/-
The all-in-memory backend (`storage::MemStorage`): versions by digest, the envelope log, and the
children index beside it. Its error type is `Infallible`, so an operation returns or panics.
-/
import IrohLotus.Storage.Value

namespace IrohLotus.Storage

open Std Outcome IrohLotus.Wire

/-- The state at one position of the chain: its namespaces by key. -/
abbrev Version := ExtTreeMap NamespaceKey Namespace

/-- A reading of the node's own clock, in milliseconds. -/
abbrev StoredAt := Int64

/-- An envelope as the log holds it. -/
structure LogEntry where
  envelope : Envelope
  storedAt : StoredAt
deriving DecidableEq

/-- A store held entirely in memory. `clock` is what `StoredAt::now` reads. -/
structure MemStorage where
  versions : ExtTreeMap EnvelopeDigest Version
  envelopes : ExtTreeMap EnvelopeDigest LogEntry
  childIndex : ExtTreeMap EnvelopeDigest (ExtTreeSet EnvelopeDigest)
  clock : StoredAt
deriving DecidableEq

/-- What a namespace write makes of a version (the body of `MemStorage::commit`). -/
def NamespaceOp.update {E : Type} (version : Version) : NamespaceOp → Res E Version
  | .put key ns => pure (version.insert key ns)
  | .delete key => do
    let _ ← Res.expect version[key]? "Delete is pre-validated: the namespace exists"
    pure (version.erase key)
  | .setAt key path value => do
    let ns ← Res.expect version[key]? "SetAt is pre-validated: the namespace exists"
    let result ← Storage.setAt ns.value path value
    pure (version.insert key { ns with value := result })
  | .amendAt key path op => do
    let ns ← Res.expect version[key]? "AmendAt is pre-validated: the namespace exists"
    let result ← Storage.amendAt ns.value path op
    pure (version.insert key { ns with value := result })

namespace MemStorage

variable {E : Type}

/-- `MemStorage::default`, at a clock reading. -/
def empty (clock : StoredAt) : MemStorage := { versions := ∅, envelopes := ∅, childIndex := ∅, clock }

/-! ## Versions -/

def containsVersion (s : MemStorage) (head : EnvelopeDigest) : Bool := s.versions.contains head

/-- The version at `head`; addressing one the store does not hold is a broken invariant. -/
def version (s : MemStorage) (head : EnvelopeDigest) : Res E Version :=
  Res.expect s.versions[head]? "head is pre-validated: the version exists"

/-- The namespace stored under `key` in the version at `head` (`Storage::namespace`). -/
def nsAt (s : MemStorage) (head : EnvelopeDigest) (key : NamespaceKey) : Res E (Option Namespace) := do
  let version ← s.version head
  pure version[key]?

def resolve (s : MemStorage) (head : EnvelopeDigest) (key : NamespaceKey) (path : List Subkey) :
    Res E (Option Resolution) := do
  let version ← s.version head
  pure (version[key]?.map fun ns => Storage.resolve ns.value path)

def valueAt (s : MemStorage) (head : EnvelopeDigest) (key : NamespaceKey) (path : List Subkey) :
    Res E (Option Value) := do
  let version ← s.version head
  pure (version[key]?.bind fun ns => ns.value.walk path)

def metaAt (s : MemStorage) (head : EnvelopeDigest) (key : NamespaceKey) (path : List Subkey) :
    Res E (Option ValueMeta) := do
  let version ← s.version head
  pure (version[key]?.bind fun ns => (ns.value.walk path).map metaOf)

/-- Every namespace in the version at `head`, in key order (`Storage::namespaces`). -/
def namespaces (s : MemStorage) (head : EnvelopeDigest) : Res E Version := s.version head

/-- The key of every namespace in the version at `head`, in key order (`Storage::namespace_keys`). -/
def namespaceKeys (s : MemStorage) (head : EnvelopeDigest) : Res E (List NamespaceKey) := do
  let version ← s.namespaces head
  pure version.keys

/-- Derives the version at `head` by applying `op` to the version at `parent`. -/
def commit (s : MemStorage) (parent head : EnvelopeDigest) (op : NamespaceOp) : Res E MemStorage := do
  let version ← s.version parent
  let version ← op.update version
  pure { s with versions := s.versions.insert head version }

/-- Installs `namespaces` as the version at `head`. -/
def install (s : MemStorage) (head : EnvelopeDigest) (namespaces : Version) : MemStorage :=
  { s with versions := s.versions.insert head namespaces }

/-- Drops every version whose head is not in `keep`. -/
def retain (s : MemStorage) (keep : List EnvelopeDigest) : MemStorage :=
  { s with versions := s.versions.filter fun head _ => keep.contains head }

/-! ## The envelope log -/

def loggedEnvelope (s : MemStorage) (digest : EnvelopeDigest) : Option LogEntry := s.envelopes[digest]?

def envelope (s : MemStorage) (digest : EnvelopeDigest) : Option Envelope :=
  (s.loggedEnvelope digest).map LogEntry.envelope

/-- The `prev` of the envelope stored under `digest`. -/
def parent (s : MemStorage) (digest : EnvelopeDigest) : Option EnvelopeDigest :=
  (s.envelope digest).bind Envelope.prev

/-- The children indexed under `parent`, as a set. -/
def childSet (s : MemStorage) (parent : EnvelopeDigest) : ExtTreeSet EnvelopeDigest :=
  (s.childIndex[parent]?).getD ∅

/-- The digests of every stored envelope whose `prev` is `parent`, in ascending digest order. -/
def children (s : MemStorage) (parent : EnvelopeDigest) : List EnvelopeDigest := (s.childSet parent).toList

/-- Stores `envelope` in the log under `digest`, indexing it under its `prev`. The stamp of a
record being replaced is kept. -/
def putEnvelope (s : MemStorage) (digest : EnvelopeDigest) (envelope : Envelope) : MemStorage :=
  let childIndex := match envelope.prev with
    | some prev => s.childIndex.insert prev ((s.childSet prev).insert digest)
    | none => s.childIndex
  let storedAt := (s.loggedEnvelope digest).elim s.clock LogEntry.storedAt
  { s with childIndex, envelopes := s.envelopes.insert digest { envelope, storedAt } }

/-- Removes the envelope stored under `digest`, unindexing it from its parent's children. -/
def removeEnvelope (s : MemStorage) (digest : EnvelopeDigest) : MemStorage :=
  let childIndex := match s.parent digest with
    | some prev =>
      match s.childIndex[prev]? with
      | some siblings =>
        let siblings := siblings.erase digest
        if siblings.isEmpty then s.childIndex.erase prev else s.childIndex.insert prev siblings
      | none => s.childIndex
    | none => s.childIndex
  { s with childIndex, envelopes := s.envelopes.erase digest }

end MemStorage

end IrohLotus.Storage
