/-
The SQLite backend (`storage::SqliteStorage`): the tables of its schema, and each function of the
source as what its statements make of them. A transaction is state passing through `Res`: one that
ends in an error or a panic leaves no state, so the tables stay as they were. SQLite's choice of a
row id, canonical CBOR and chrono are not in the repository and are the parameter `Backing`.
-/
import IrohLotus.Lib.Bytes
import IrohLotus.Lib.Closure
import IrohLotus.Lib.Table
import IrohLotus.Storage.Mem

namespace IrohLotus.Storage

open Std Outcome Bytes Relational IrohLotus.Wire

/-- The id of a row of `nodes`. -/
abbrev NodeId := Nat

/-- A row of `nodes`. -/
structure NodeRow where
  kind : Nat
  leaf : Option Blob
deriving DecidableEq

/-- A row of `envelopes`, less its digest. -/
structure EnvelopeRow where
  bytes : Blob
  prev : Option Blob
  status : Nat
  weight : Option Int
  badKeys : Option Blob
  storedAt : Int64
deriving DecidableEq

/-- The database. `versions` is an existence set; `versionNamespaces` gives each namespace of a
version its root among `nodes`, whose trees hang together by the two tables of edges. -/
structure SqliteStorage where
  envelopes : ExtTreeMap Blob EnvelopeRow
  nodes : ExtTreeMap NodeId NodeRow
  mapEdges : Table NodeId String NodeId
  arrayEdges : Table NodeId Nat NodeId
  versions : ExtTreeSet Blob
  versionNamespaces : Table Blob String NodeId

/-- The errors the SQLite backend can produce. -/
inductive SqliteError where
  | sqlite
  | codec (e : WireError)
  | corrupt (message : String)
deriving DecidableEq

/-- The code outside the repository: the id SQLite gives a new row of `nodes`, which is not in use;
canonical CBOR, which decodes to what it encoded; and the milliseconds a datetime can hold. -/
class Backing [Externals] where
  rowid : ExtTreeMap NodeId NodeRow → NodeId
  rowid_free : ∀ nodes : ExtTreeMap NodeId NodeRow, nodes[rowid nodes]? = none
  encodeValue : Value → Except WireError Blob
  decodeValue : Blob → Except WireError Value
  decodeValue_encodeValue : ∀ v, kind v = .leaf → ∃ bytes, encodeValue v = .ok bytes ∧ decodeValue bytes = .ok v
  encodeEnvelope : SignedPortion → Except WireError Blob
  decodeEnvelope : Blob → Except WireError SignedPortion
  decodeEnvelope_encodeEnvelope : ∀ e d, e.digest = .ok d →
    ∃ bytes, encodeEnvelope e = .ok bytes ∧ decodeEnvelope bytes = .ok e
  isTime : Int64 → Bool

/-! ## Columns -/

/-- `EnvelopeDigest::as_slice`. -/
def asSlice (digest : EnvelopeDigest) : Blob := ofNumber 32 digest.hash.toNat

/-- `KeyId::as_bytes`. -/
def asBytes (id : KeyId) : Blob := ofNumber 32 id.hash.toNat

/-- `KeyId::from_bytes`. -/
def keyIdOf (bytes : Blob) : KeyId := ⟨BitVec.ofNat 256 (toNumber bytes)⟩

def digestFrom (blob : Blob) : Res SqliteError EnvelopeDigest :=
  if blob.length = 32 then pure ⟨BitVec.ofNat 256 (toNumber blob)⟩
  else Res.fail (.corrupt "stored digest is not 32 bytes")

def keyFrom (key : String) : Res SqliteError NamespaceKey :=
  if h : key ≠ "" then pure ⟨key, h⟩ else Res.fail (.corrupt "stored namespace key is empty")

/-- Stored discriminants for `nodes.kind`. -/
def LEAF : Nat := 0
def MAP : Nat := 1
def ARRAY : Nat := 2

def kindFrom (code : Nat) : Res SqliteError NodeKind :=
  if code = LEAF then pure .leaf
  else if code = MAP then pure .map
  else if code = ARRAY then pure .array
  else Res.fail (.corrupt "unknown node kind")

/-- Stored discriminants for `envelopes.status`. -/
def UNCHECKED : Nat := 0
def FAILED : Nat := 1
def ALL_MATCHED : Nat := 2

/-- The columns a verification status is kept in. -/
def statusColumns : VerificationStatus → Nat × Option Int × Option Blob
  | .unchecked => (UNCHECKED, none, none)
  | .failed failingKeyIds => (FAILED, none, some (failingKeyIds.flatMap asBytes))
  | .allMatched totalWeight => (ALL_MATCHED, some totalWeight.toNat, none)

/-- The key ids `statusColumns` concatenated, collected into a set. -/
def keyIdsFrom (blob : Blob) : Res SqliteError (List KeyId) :=
  let (ids, rest) := chunks 32 blob
  if rest.isEmpty then pure (ExtTreeSet.ofList (ids.map keyIdOf)).toList
  else Res.fail (.corrupt "failing key ids are not whole ids")

def statusFrom (code : Nat) (weight : Option Int) (badKeys : Option Blob) : Res SqliteError VerificationStatus :=
  if code = UNCHECKED then pure .unchecked
  else if code = FAILED then do
    let blob ← Res.okOr badKeys (.corrupt "failed status without its keys")
    let failingKeyIds ← keyIdsFrom blob
    pure (.failed failingKeyIds)
  else if code = ALL_MATCHED then do
    let weight ← Res.okOr weight (.corrupt "all-matched status without a weight")
    if 0 ≤ weight ∧ weight < 2 ^ 32 then pure (.allMatched weight.toNat.toUInt32)
    else Res.fail (.corrupt "verification weight out of range")
  else Res.fail (.corrupt "unknown verification status")

namespace SqliteStorage

/-- A database just created. -/
def empty : SqliteStorage :=
  { envelopes := ∅, nodes := ∅, mapEdges := .empty, arrayEdges := .empty, versions := ∅, versionNamespaces := .empty }

/-! ## Rows -/

def versionExists (db : SqliteStorage) (head : EnvelopeDigest) : Bool := db.versions.contains (asSlice head)

/-- The root node of the namespace at `key` in the version at `head`; a version that is absent is a
broken invariant. -/
def namespaceRoot (db : SqliteStorage) (head : EnvelopeDigest) (key : NamespaceKey) : Res SqliteError (Option NodeId) :=
  match (db.versionNamespaces.rows (asSlice head))[key.name]? with
  | some root => pure (some root)
  | none =>
    if db.versionExists head then pure none else .error (.panic "head is pre-validated: the version exists")

/-- Every `(key, root)` of the version at `head`, in key order. -/
def namespaceRoots (db : SqliteStorage) (head : EnvelopeDigest) : Res SqliteError (List (NamespaceKey × NodeId)) :=
  let roots := (db.versionNamespaces.rows (asSlice head)).toList
  if roots.isEmpty && !db.versionExists head then .error (.panic "head is pre-validated: the version exists")
  else roots.mapM fun (key, root) => do
    let key ← keyFrom key
    pure (key, root)

/-- Registers `head` as a version, clearing what an earlier write under it left behind. -/
def replaceVersion (db : SqliteStorage) (head : EnvelopeDigest) : SqliteStorage :=
  { db with
    versions := db.versions.insert (asSlice head)
    versionNamespaces := db.versionNamespaces.eraseAll (asSlice head) }

def setRoot (db : SqliteStorage) (head : EnvelopeDigest) (key : NamespaceKey) (root : NodeId) : SqliteStorage :=
  { db with versionNamespaces := db.versionNamespaces.replace (asSlice head) key.name root }

def mapChild (db : SqliteStorage) (parent : NodeId) (key : String) : Option NodeId := (db.mapEdges.rows parent)[key]?

def arrayChild (db : SqliteStorage) (parent : NodeId) (idx : UInt32) : Option NodeId :=
  (db.arrayEdges.rows parent)[idx.toNat]?

/-- The row of a node. -/
def node (db : SqliteStorage) (id : NodeId) : Res SqliteError (NodeKind × Option Blob) := do
  let row ← Res.okOr db.nodes[id]? (.corrupt "edge references a missing node")
  let kind ← kindFrom row.kind
  pure (kind, row.leaf)

def nodeKind (db : SqliteStorage) (id : NodeId) : Res SqliteError NodeKind := do
  let (kind, _) ← db.node id
  pure kind

def insertMapEdge (db : SqliteStorage) (parent : NodeId) (key : String) (child : NodeId) : Res SqliteError SqliteStorage := do
  let mapEdges ← Res.okOr (db.mapEdges.insert parent key child) .sqlite
  pure { db with mapEdges }

def insertArrayEdge (db : SqliteStorage) (parent : NodeId) (idx : Nat) (child : NodeId) : Res SqliteError SqliteStorage := do
  let arrayEdges ← Res.okOr (db.arrayEdges.insert parent idx child) .sqlite
  pure { db with arrayEdges }

/-- `INSERT INTO map_edges ... SELECT`, of edges of `parent`. -/
def insertMapEdges (db : SqliteStorage) (parent : NodeId) (edges : List (String × NodeId)) : Res SqliteError SqliteStorage := do
  let mapEdges ← Res.okOr (db.mapEdges.insertAll parent edges) .sqlite
  pure { db with mapEdges }

/-- `INSERT INTO array_edges ... SELECT`, of edges of `parent`. -/
def insertArrayEdges (db : SqliteStorage) (parent : NodeId) (edges : List (Nat × NodeId)) : Res SqliteError SqliteStorage := do
  let arrayEdges ← Res.okOr (db.arrayEdges.insertAll parent edges) .sqlite
  pure { db with arrayEdges }

/-! ## The envelope log -/

/-- The `prev` of the envelope stored under `digest`, off its column. -/
def parent (db : SqliteStorage) (digest : EnvelopeDigest) : Res SqliteError (Option EnvelopeDigest) :=
  match db.envelopes[asSlice digest]?.bind EnvelopeRow.prev with
  | some prev => (digestFrom prev).map some
  | none => pure none

/-- The digests of every stored envelope whose `prev` is `parent`, in ascending digest order. -/
def children (db : SqliteStorage) (parent : EnvelopeDigest) : Res SqliteError (List EnvelopeDigest) :=
  ((db.envelopes.filter fun _ row => row.prev = some (asSlice parent)).keys).mapM digestFrom

def removeEnvelope (db : SqliteStorage) (digest : EnvelopeDigest) : SqliteStorage :=
  { db with envelopes := db.envelopes.erase (asSlice digest) }

variable [Externals] [Backing]

/-- Stores `envelope` under `digest`; a row being replaced keeps the time it was first stored. -/
def putEnvelope (db : SqliteStorage) (now : StoredAt) (digest : EnvelopeDigest) (envelope : Envelope) :
    Res SqliteError SqliteStorage := do
  let bytes ← Res.ofExcept .codec (Backing.encodeEnvelope envelope.toSignedPortion)
  let (status, weight, badKeys) := statusColumns envelope.verificationStatus
  let storedAt := db.envelopes[asSlice digest]?.elim now EnvelopeRow.storedAt
  pure { db with
    envelopes := db.envelopes.insert (asSlice digest)
      { bytes, prev := envelope.prev.map asSlice, status, weight, badKeys, storedAt } }

/-- What a row of `envelopes` reads back as. -/
def entryOf (row : EnvelopeRow) : Res SqliteError LogEntry := do
  let portion ← Res.ofExcept .codec (Backing.decodeEnvelope row.bytes)
  let verificationStatus ← statusFrom row.status row.weight row.badKeys
  if Backing.isTime row.storedAt then pure { envelope := { toSignedPortion := portion, verificationStatus }, storedAt := row.storedAt }
  else Res.fail (.corrupt "stored-at is not a time")

def loggedEnvelope (db : SqliteStorage) (digest : EnvelopeDigest) : Res SqliteError (Option LogEntry) :=
  match db.envelopes[asSlice digest]? with
  | some row => (entryOf row).map some
  | none => pure none

def envelope (db : SqliteStorage) (digest : EnvelopeDigest) : Res SqliteError (Option Envelope) := do
  let entry ← db.loggedEnvelope digest
  pure (entry.map LogEntry.envelope)

/-! ## Value trees -/

def insertNode (db : SqliteStorage) (kind : Nat) (leaf : Option Blob) : NodeId × SqliteStorage :=
  (Backing.rowid db.nodes, { db with nodes := db.nodes.insert (Backing.rowid db.nodes) { kind, leaf } })

mutual

/-- Stores `value` as a fresh node tree, yielding its root id. -/
def insertValue : Value → SqliteStorage → Res SqliteError (NodeId × SqliteStorage)
  | .map entries, db => do
    let (id, db) := db.insertNode MAP none
    let db ← insertEntries id entries db
    pure (id, db)
  | .array items, db => do
    let (id, db) := db.insertNode ARRAY none
    let db ← insertItems id 0 items db
    pure (id, db)
  | .string text, db => do
    let bytes ← Res.ofExcept .codec (Backing.encodeValue (.string text))
    pure (db.insertNode LEAF (some bytes))
  | .int n, db => do
    let bytes ← Res.ofExcept .codec (Backing.encodeValue (.int n))
    pure (db.insertNode LEAF (some bytes))
  | .bool flag, db => do
    let bytes ← Res.ofExcept .codec (Backing.encodeValue (.bool flag))
    pure (db.insertNode LEAF (some bytes))
  | .key key, db => do
    let bytes ← Res.ofExcept .codec (Backing.encodeValue (.key key))
    pure (db.insertNode LEAF (some bytes))

/-- Stores the entries of a map under the node `id`. -/
def insertEntries (id : NodeId) : List (String × Value) → SqliteStorage → Res SqliteError SqliteStorage
  | [], db => pure db
  | (key, child) :: rest, db => do
    let (child, db) ← insertValue child db
    let db ← db.insertMapEdge id key child
    insertEntries id rest db

/-- Stores the items of an array under the node `id`, from the index `idx` on. -/
def insertItems (id : NodeId) (idx : Nat) : List Value → SqliteStorage → Res SqliteError SqliteStorage
  | [], db => pure db
  | item :: rest, db => do
    let (child, db) ← insertValue item db
    let db ← db.insertArrayEdge id idx child
    insertItems id (idx + 1) rest db

end

/-- Materializes the subtree rooted at `id`, through at most `fuel` levels. -/
def valueOfWithin (db : SqliteStorage) : Nat → NodeId → Res SqliteError Value
  | 0, _ => .error .hang
  | fuel + 1, id => do
    let (kind, leaf) ← db.node id
    match kind with
    | .leaf => do
      let bytes ← Res.okOr leaf (.corrupt "leaf node without a payload")
      Res.ofExcept .codec (Backing.decodeValue bytes)
    | .map => do
      let entries ← (db.mapEdges.rows id).toList.mapM fun (key, child) => do
        let value ← db.valueOfWithin fuel child
        pure (key, value)
      pure (.map (entries.foldl (fun map entry => Entries.insert map entry.1 entry.2) []))
    | .array => do
      let items ← (db.arrayEdges.rows id).toList.mapM fun (_, child) => db.valueOfWithin fuel child
      pure (.array items)

/-- Materializes the subtree rooted at `id`. A subtree with more levels than there are nodes comes
back to a node it is under, and the source never returns from it. -/
def valueOf (db : SqliteStorage) (id : NodeId) : Res SqliteError Value := db.valueOfWithin db.nodes.size id

/-- A new map node with `old`'s edges, minus the one at `except`. -/
def newMapWithout (db : SqliteStorage) (old : NodeId) (except : String) : Res SqliteError (NodeId × SqliteStorage) := do
  let (id, db) := db.insertNode MAP none
  let db ← db.insertMapEdges id ((db.mapEdges.rows old).toList.filter fun edge => edge.1 ≠ except)
  pure (id, db)

/-- A new array node with `old`'s edges, the one at `idx` replaced by `child`. -/
def newArrayReplacing (db : SqliteStorage) (old : NodeId) (idx : UInt32) (child : NodeId) :
    Res SqliteError (NodeId × SqliteStorage) := do
  let (id, db) := db.insertNode ARRAY none
  let db ← db.insertArrayEdges id ((db.arrayEdges.rows old).toList.filter fun edge => edge.1 ≠ idx.toNat)
  let db ← db.insertArrayEdge id idx.toNat child
  pure (id, db)

/-- A new array node with `old`'s edges minus the one at `idx`, later indices shifted down. -/
def newArrayRemoving (db : SqliteStorage) (old : NodeId) (idx : UInt32) : Res SqliteError (NodeId × SqliteStorage) := do
  let (id, db) := db.insertNode ARRAY none
  let db ← db.insertArrayEdges id (((db.arrayEdges.rows old).toList.filter fun edge => edge.1 ≠ idx.toNat).map fun edge =>
    (if idx.toNat < edge.1 then edge.1 - 1 else edge.1, edge.2))
  pure (id, db)

/-- A new array node with `old`'s edges plus `child` appended. -/
def newArrayAppending (db : SqliteStorage) (old child : NodeId) : Res SqliteError (NodeId × SqliteStorage) := do
  match ← db.nodeKind old with
  | .array => do
    let len := (db.arrayEdges.rows old).size
    let (id, db) := db.insertNode ARRAY none
    let db ← db.insertArrayEdges id (db.arrayEdges.rows old).toList
    let db ← db.insertArrayEdge id len child
    pure (id, db)
  | _ => .error (.panic "AmendAt is pre-validated: the append target is an array")

/-- A new leaf holding `old`'s integer with `inc` applied. -/
def incrementLeaf (db : SqliteStorage) (old : NodeId) (inc : IncrementDecrement) : Res SqliteError (NodeId × SqliteStorage) := do
  match ← db.node old with
  | (.leaf, leaf) => do
    let leaf ← Res.okOr leaf (.corrupt "leaf node without a payload")
    let value ← Res.ofExcept .codec (Backing.decodeValue leaf)
    match value with
    | .int n => do
      let sum ← Res.expect (inc.apply n) "AmendAt is pre-validated: the sum fits an i64 or clamps"
      let bytes ← Res.ofExcept .codec (Backing.encodeValue (.int sum))
      pure (db.insertNode LEAF (some bytes))
    | _ => .error (.panic "AmendAt is pre-validated: the target is an integer")
  | _ => .error (.panic "AmendAt is pre-validated: the target is an integer")

/-- The edges of a map copied under `id`, less those whose child `predicate` matches. -/
def retainEntries (id : NodeId) (predicate : Predicate) : List (String × NodeId) → SqliteStorage → Res SqliteError SqliteStorage
  | [], db => pure db
  | (key, child) :: rest, db => do
    let value ← db.valueOf child
    let db ← if predicate.matches value then pure db else db.insertMapEdge id key child
    retainEntries id predicate rest db

/-- The children of an array that `predicate` does not match. -/
def keptItems (db : SqliteStorage) (predicate : Predicate) : List NodeId → Res SqliteError (List NodeId)
  | [] => pure []
  | child :: rest => do
    let value ← db.valueOf child
    let kept ← db.keptItems predicate rest
    pure (if predicate.matches value then kept else child :: kept)

/-- The children of an array put under `id`, from the index `idx` on. -/
def linkItems (id : NodeId) (idx : Nat) : List NodeId → SqliteStorage → Res SqliteError SqliteStorage
  | [], db => pure db
  | child :: rest, db => do
    let db ← db.insertArrayEdge id idx child
    linkItems id (idx + 1) rest db

/-- A new container node with `old`'s edges minus those whose child `predicate` matches. -/
def newContainerRetaining (db : SqliteStorage) (old : NodeId) (predicate : Predicate) :
    Res SqliteError (NodeId × SqliteStorage) := do
  match ← db.nodeKind old with
  | .map => do
    let edges := (db.mapEdges.rows old).toList
    let (id, db) := db.insertNode MAP none
    let db ← retainEntries id predicate edges db
    pure (id, db)
  | .array => do
    let kept ← db.keptItems predicate ((db.arrayEdges.rows old).toList.map Prod.snd)
    let (id, db) := db.insertNode ARRAY none
    let db ← linkItems id 0 kept db
    pure (id, db)
  | .leaf => .error (.panic "AmendAt is pre-validated: the target is a map or array")

/-- What the last segment of a path addresses is replaced by: handed the existing child, if any, the
replacement, or none to remove it. -/
abbrev Terminal := SqliteStorage → Option NodeId → Res SqliteError (Option NodeId × SqliteStorage)

/-- Path-copies `node` along `path`: every node on the path is cloned, the clone pointing at the
original's children except where the path continues. -/
def replaceChild (terminal : Terminal) : List Subkey → NodeId → SqliteStorage → Res SqliteError (NodeId × SqliteStorage)
  | [], _, _ => .error (.panic "SubkeyPath is validated non-empty")
  | segment :: rest, node, db => do
    match ← db.nodeKind node, segment with
    | .map, .key key => do
      let (replacement, db) ←
        if rest = [] then terminal db (db.mapChild node key)
        else match db.mapChild node key with
          | some child => do
            let (child, db) ← replaceChild terminal rest child db
            pure (some child, db)
          | none => .error (.panic "op is pre-validated: every parent exists")
      let (id, db) ← db.newMapWithout node key
      match replacement with
      | some child => do
        let db ← db.insertMapEdge id key child
        pure (id, db)
      | none => pure (id, db)
    | .array, .index idx => do
      let child ← Res.expect (db.arrayChild node idx) "op is pre-validated: the index is in bounds"
      if rest = [] then do
        match ← terminal db (some child) with
        | (some child, db) => db.newArrayReplacing node idx child
        | (none, db) => db.newArrayRemoving node idx
      else do
        let (child, db) ← replaceChild terminal rest child db
        db.newArrayReplacing node idx child
    | _, _ => .error (.panic "op is pre-validated: the parent's shape matches the segment")

/-- Applies `op` to the value rooted at `node`, yielding the new root id. -/
def amendNode (db : SqliteStorage) (node : NodeId) : AmendOp → Res SqliteError (NodeId × SqliteStorage)
  | .appendEntry entry => do
    let (entry, db) ← insertValue entry db
    db.newArrayAppending node entry
  | .incrementDecrement inc => db.incrementLeaf node inc
  | .deleteMatching predicate => db.newContainerRetaining node predicate

/-! ## Reading versions -/

def containsVersion (db : SqliteStorage) (head : EnvelopeDigest) : Bool := db.versionExists head

/-- One step of a path: a key into a map, or an index into an array. -/
def childAt (db : SqliteStorage) (node : NodeId) (kind : NodeKind) : Subkey → Option (Option NodeId)
  | .key key => if kind = .map then some (db.mapChild node key) else none
  | .index idx => if kind = .array then some (db.arrayChild node idx) else none

/-- The loop of `resolve`, at `current` after `depth` segments. -/
def resolveFrom (db : SqliteStorage) : Nat → NodeId → List Subkey → Res SqliteError Resolution
  | _, current, [] => do
    let kind ← db.nodeKind current
    pure (.node kind)
  | depth, current, segment :: rest => do
    let kind ← db.nodeKind current
    match db.childAt current kind segment with
    | none => pure (.mismatch depth)
    | some none => pure (.missing depth kind)
    | some (some child) => db.resolveFrom (depth + 1) child rest

def resolve (db : SqliteStorage) (head : EnvelopeDigest) (key : NamespaceKey) (path : List Subkey) :
    Res SqliteError (Option Resolution) := do
  match ← db.namespaceRoot head key with
  | none => pure none
  | some root => (db.resolveFrom 0 root path).map some

/-- The fold of `walk`, from `node` down. -/
def walkFrom (db : SqliteStorage) : NodeId → List Subkey → Res SqliteError (Option NodeId)
  | node, [] => pure (some node)
  | node, segment :: rest => do
    let kind ← db.nodeKind node
    match (db.childAt node kind segment).join with
    | none => pure none
    | some child => db.walkFrom child rest

/-- The node `path` addresses inside the namespace under `key` at `head`. -/
def walk (db : SqliteStorage) (head : EnvelopeDigest) (key : NamespaceKey) (path : List Subkey) :
    Res SqliteError (Option NodeId) := do
  match ← db.namespaceRoot head key with
  | none => pure none
  | some root => db.walkFrom root path

def valueAt (db : SqliteStorage) (head : EnvelopeDigest) (key : NamespaceKey) (path : List Subkey) :
    Res SqliteError (Option Value) := do
  match ← db.walk head key path with
  | none => pure none
  | some id => (db.valueOf id).map some

/-- What the node `id` holds, counted and named off its edges. -/
def metaOfNode (db : SqliteStorage) (id : NodeId) : Res SqliteError ValueMeta := do
  match ← db.nodeKind id with
  | .leaf => pure .leaf
  | .array => pure (.array (db.arrayEdges.rows id).size)
  | .map => pure (.map (db.mapEdges.rows id).keys)

def metaAt (db : SqliteStorage) (head : EnvelopeDigest) (key : NamespaceKey) (path : List Subkey) :
    Res SqliteError (Option ValueMeta) := do
  match ← db.walk head key path with
  | none => pure none
  | some id => (db.metaOfNode id).map some

/-- The namespace stored under `key` in the version at `head` (`Storage::namespace`). -/
def nsAt (db : SqliteStorage) (head : EnvelopeDigest) (key : NamespaceKey) : Res SqliteError (Option Namespace) := do
  match ← db.namespaceRoot head key with
  | none => pure none
  | some root => do
    let value ← db.valueOf root
    pure (some { value })

/-- Every namespace in the version at `head`, in key order (`Storage::namespaces`). -/
def namespaces (db : SqliteStorage) (head : EnvelopeDigest) : Res SqliteError (List (NamespaceKey × Namespace)) := do
  let roots ← db.namespaceRoots head
  roots.mapM fun (key, root) => do
    let value ← db.valueOf root
    pure (key, { value })

/-- The key of every namespace in the version at `head`, in key order. -/
def namespaceKeys (db : SqliteStorage) (head : EnvelopeDigest) : Res SqliteError (List NamespaceKey) := do
  let roots ← db.namespaceRoots head
  pure (roots.map Prod.fst)

/-! ## Writing versions -/

/-- What a `SetAt` puts at the end of its path. -/
def setTerminal (value : Option Value) : Terminal := fun db old =>
  match value with
  | some value => do
    let (id, db) ← insertValue value db
    pure (some id, db)
  | none =>
    if old.isSome then pure (none, db)
    else .error (.panic "SetAt is pre-validated: the value being cleared exists")

/-- What an `AmendAt` puts at the end of its path. -/
def amendTerminal (op : AmendOp) : Terminal := fun db old =>
  match op with
  | .appendEntry entry => do
    let (entry, db) ← insertValue entry db
    match old with
    | some target => do
      let (id, db) ← db.newArrayAppending target entry
      pure (some id, db)
    | none => do
      let (array, db) := db.insertNode ARRAY none
      let db ← db.insertArrayEdge array 0 entry
      pure (some array, db)
  | op => do
    let target ← Res.expect old "AmendAt is pre-validated: the target exists"
    let (id, db) ← db.amendNode target op
    pure (some id, db)

/-- The new root an `AmendAt` makes of `root`. -/
def amendRoot (db : SqliteStorage) (root : NodeId) (path : Option SubkeyPath) (op : AmendOp) :
    Res SqliteError (NodeId × SqliteStorage) :=
  match path with
  | none => db.amendNode root op
  | some path => replaceChild (amendTerminal op) path.segments root db

/-- The write of `op` to the version at `head`, which holds the parent's namespaces by now. -/
def applyOp (db : SqliteStorage) (head : EnvelopeDigest) : NamespaceOp → Res SqliteError SqliteStorage
  | .put key ns => do
    let (root, db) ← insertValue ns.value db
    pure (db.setRoot head key root)
  | .delete key =>
    if key.name ∈ db.versionNamespaces.rows (asSlice head) then
      pure { db with versionNamespaces := db.versionNamespaces.erase (asSlice head) key.name }
    else .error (.panic "Delete is pre-validated: the namespace exists")
  | .setAt key path value => do
    let root ← db.namespaceRoot head key
    let root ← Res.expect root "SetAt is pre-validated: the namespace exists"
    let (root, db) ← replaceChild (setTerminal value) path.segments root db
    pure (db.setRoot head key root)
  | .amendAt key path op => do
    let root ← db.namespaceRoot head key
    let root ← Res.expect root "AmendAt is pre-validated: the namespace exists"
    let (root, db) ← db.amendRoot root path op
    pure (db.setRoot head key root)

/-- Derives the version at `head` by applying `op` to the version at `parent`. -/
def commit (db : SqliteStorage) (parent head : EnvelopeDigest) (op : NamespaceOp) : Res SqliteError SqliteStorage := do
  if !db.versionExists parent then .error (.panic "head is pre-validated: the version exists") else do
    let db := db.replaceVersion head
    let versionNamespaces ← Res.okOr
      (db.versionNamespaces.insertAll (asSlice head) (db.versionNamespaces.rows (asSlice parent)).toList) .sqlite
    { db with versionNamespaces }.applyOp head op

/-- The namespaces of an install, in turn. -/
def installEach (head : EnvelopeDigest) : List (NamespaceKey × Namespace) → SqliteStorage → Res SqliteError SqliteStorage
  | [], db => pure db
  | (key, ns) :: rest, db => do
    let (root, db) ← insertValue ns.value db
    installEach head rest (db.setRoot head key root)

/-- Installs `namespaces` as the version at `head`. -/
def install (db : SqliteStorage) (head : EnvelopeDigest) (namespaces : List (NamespaceKey × Namespace)) :
    Res SqliteError SqliteStorage :=
  installEach head namespaces (db.replaceVersion head)

omit [Externals] [Backing]

/-- The children of a node, by either kind of edge. -/
def childrenOf (db : SqliteStorage) (id : NodeId) : List NodeId :=
  (db.mapEdges.rows id).toList.map Prod.snd ++ (db.arrayEdges.rows id).toList.map Prod.snd

/-- The recursive query of `retain`: what the roots reach. Each row of the three tables is followed at
most once. -/
def reachable (db : SqliteStorage) : List NodeId :=
  Closure.visit db.childrenOf
    (db.versionNamespaces.values.length + (db.mapEdges.values.length + db.arrayEdges.values.length))
    db.versionNamespaces.values []

/-- Drops the versions whose head is not in `keep`. -/
def dropUnkept (db : SqliteStorage) (keep : List EnvelopeDigest) : SqliteStorage :=
  { db with
    versions := db.versions.filter (· ∈ keep.map asSlice)
    versionNamespaces := db.versionNamespaces.filter (· ∈ keep.map asSlice) }

/-- Deletes the edges and nodes outside `reachable`. -/
def sweep (db : SqliteStorage) (reachable : List NodeId) : SqliteStorage :=
  { db with
    mapEdges := db.mapEdges.filter (· ∈ reachable)
    arrayEdges := db.arrayEdges.filter (· ∈ reachable)
    nodes := db.nodes.filter fun id _ => id ∈ reachable }

/-- Drops every version whose head is not in `keep`, then sweeps what no surviving root reaches. -/
def retain (db : SqliteStorage) (keep : List EnvelopeDigest) : SqliteStorage :=
  (db.dropUnkept keep).sweep (db.dropUnkept keep).reachable

end SqliteStorage

end IrohLotus.Storage
