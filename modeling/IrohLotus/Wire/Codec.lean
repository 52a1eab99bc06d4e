/-
How the `wire` crate puts its types on the wire (`wire::codec` and the serde implementations of the
types it moves). Each implementation serves two formats and asks which it is given: canonical CBOR,
compact, and JSON, readable. The CBOR writer and reader are not in the repository and are the
parameter `Cbor2`; a derived implementation is the record of its fields.
-/
import IrohLotus.Lib.Serde
import IrohLotus.Wire.Envelope
import IrohLotus.Wire.Order

namespace IrohLotus.Wire

open Std Bytes Serde

/-- The code outside the repository: a writer of canonical CBOR and a reader of CBOR. What was written
reads back, up to the order canonical CBOR puts the entries of maps in. -/
class Cbor2 where
  toCanonicalVec : Tree → Except WireError Blob
  fromSlice : Blob → Except WireError Tree
  faithful : ∀ w, ∃ bytes t, toCanonicalVec w = .ok bytes ∧ fromSlice bytes = .ok t ∧ Reordered w t

/-! ## Enums -/

/-- A variant of an enum defined through `dual_repr!`: on the wire a one-pair map under an integer tag,
in JSON an adjacently tagged object under the full name. -/
def serializeVariant (human : Bool) (variant : Name) (value : Tree) : Tree :=
  if human then .map [(.text "type", .text variant.name), (.text "value", value)]
  else .map [(.int variant.number, value)]

/-- The variant a tree tags, by its number, with its payload. -/
def deserializeVariant (human : Bool) (variants : List Name) (t : Tree) : Option (Nat × Tree) :=
  if human then do
    let type ← (t.field true ⟨0, "type"⟩).bind Tree.readText
    let variant ← variants.find? fun variant => variant.name = type
    let value ← t.field true ⟨0, "value"⟩
    pure (variant.number, value)
  else
    match t with
    | .map [(tag, value)] => do
      let tag ← tag.readInt 0 (2 ^ 64)
      let variant ← variants.find? fun variant => (variant.number : Int) = tag
      pure (variant.number, value)
    | _ => none

/-! ## Fixed-width bytes -/

/-- The lowercase hex digit of a number below sixteen. -/
def hexDigit (n : Nat) : Char := if n < 10 then Char.ofNat (48 + n) else Char.ofNat (87 + n)

/-- What a hex digit of either case stands for. -/
def nibble (c : Char) : Option Nat :=
  if '0' ≤ c ∧ c ≤ '9' then some (c.toNat - 48)
  else if 'a' ≤ c ∧ c ≤ 'f' then some (c.toNat - 87)
  else if 'A' ≤ c ∧ c ≤ 'F' then some (c.toNat - 55)
  else none

/-- Bytes as hex, two digits each. -/
def hexOf (blob : Blob) : List Char := blob.flatMap fun byte => [hexDigit (byte.toNat / 16), hexDigit (byte.toNat % 16)]

/-- The bytes pairs of hex digits spell. -/
def unhex : List Char → Option Blob
  | hi :: lo :: rest => do
    let hi ← nibble hi
    let lo ← nibble lo
    let bytes ← unhex rest
    pure (UInt8.ofNat (hi * 16 + lo) :: bytes)
  | [] => some []
  | [_] => none

/-- `str::strip_prefix`, on characters. -/
def stripMark : List Char → List Char → Option (List Char)
  | [], s => some s
  | c :: mark, d :: s => if c = d then stripMark mark s else none
  | _ :: _, [] => none

/-- A byte string on the wire; in JSON, hex after a mark that names the type. -/
def serializeByteArray (human : Bool) (mark : String) (blob : Blob) : Tree :=
  if human then .text (String.ofList (mark.toList ++ hexOf blob)) else .bytes blob

/-- Exactly `n` bytes, off what `serializeByteArray` produced. -/
def byteArray (human : Bool) (n : Nat) (mark : String) : Tree → Option Blob
  | .text s =>
    if human then do
      let hex ← stripMark mark.toList s.toList
      if hex.length = 2 * n then unhex hex else none
    else none
  | .bytes blob => if !human && blob.length = n then some blob else none
  | _ => none

namespace EnvelopeDigest

def serialize (human : Bool) (digest : EnvelopeDigest) : Tree :=
  serializeByteArray human "ed:" (ofNumber 32 digest.hash.toNat)

def deserialize (human : Bool) (t : Tree) : Option EnvelopeDigest :=
  (byteArray human 32 "ed:" t).map fun bytes => ⟨BitVec.ofNat 256 (toNumber bytes)⟩

end EnvelopeDigest

namespace KeyId

def serialize (human : Bool) (id : KeyId) : Tree := serializeByteArray human "" (ofNumber 32 id.hash.toNat)

def deserialize (human : Bool) (t : Tree) : Option KeyId :=
  (byteArray human 32 "" t).map fun bytes => ⟨BitVec.ofNat 256 (toNumber bytes)⟩

end KeyId

namespace Ed25519PublicKey

def serialize (human : Bool) (key : Ed25519PublicKey) : Tree := serializeByteArray human "" (ofNumber 32 key.bytes.toNat)

def deserialize (human : Bool) (t : Tree) : Option Ed25519PublicKey :=
  (byteArray human 32 "" t).map fun bytes => ⟨BitVec.ofNat 256 (toNumber bytes)⟩

end Ed25519PublicKey

namespace Ed25519Signature

def serialize (human : Bool) (signature : Ed25519Signature) : Tree :=
  serializeByteArray human "" (ofNumber 64 signature.bytes.toNat)

def deserialize (human : Bool) (t : Tree) : Option Ed25519Signature :=
  (byteArray human 64 "" t).map fun bytes => ⟨BitVec.ofNat 512 (toNumber bytes)⟩

end Ed25519Signature

/-! ## Integers -/

def readI64 (t : Tree) : Option Int64 := (t.readInt (-2 ^ 63) (2 ^ 63)).map Int64.ofInt

def readU32 (t : Tree) : Option UInt32 := (t.readInt 0 (2 ^ 32)).map fun n => UInt32.ofNat n.toNat

/-! ## Keys -/

namespace PublicKey

def serialize (human : Bool) : PublicKey → Tree
  | .ed25519 key => serializeVariant human ⟨1, "ed25519"⟩ (key.serialize human)

def deserialize (human : Bool) (t : Tree) : Option PublicKey := do
  match ← deserializeVariant human [⟨1, "ed25519"⟩] t with
  | (1, value) => (Ed25519PublicKey.deserialize human value).map .ed25519
  | _ => none

end PublicKey

namespace Signature

def serialize (human : Bool) : Signature → Tree
  | .ed25519 signature => serializeVariant human ⟨1, "ed25519"⟩ (signature.serialize human)

def deserialize (human : Bool) (t : Tree) : Option Signature := do
  match ← deserializeVariant human [⟨1, "ed25519"⟩] t with
  | (1, value) => (Ed25519Signature.deserialize human value).map .ed25519
  | _ => none

end Signature

namespace Key

def serialize (human : Bool) (key : Key) : Tree :=
  record human [(⟨1, "public_key"⟩, key.publicKey.serialize human), (⟨2, "weight"⟩, .int key.weight.toNat),
    (⟨3, "metadata"⟩, .map (key.metadata.toList.map fun e => (.text e.1, .text e.2)))]

def deserialize (human : Bool) (t : Tree) : Option Key := do
  let publicKey ← (t.field human ⟨1, "public_key"⟩).bind (PublicKey.deserialize human)
  let weight ← (t.field human ⟨2, "weight"⟩).bind readU32
  let metadata ← (t.field human ⟨3, "metadata"⟩).bind (Tree.readMap Tree.readText Tree.readText)
  pure { publicKey, weight, metadata := metadata.foldl (fun m e => m.insert e.1 e.2) ∅ }

end Key

/-! ## Paths -/

namespace Subkey

def serialize (human : Bool) : Subkey → Tree
  | .key name => serializeVariant human ⟨1, "key"⟩ (.text name)
  | .index i => serializeVariant human ⟨2, "index"⟩ (.int i.toNat)

def deserialize (human : Bool) (t : Tree) : Option Subkey := do
  match ← deserializeVariant human [⟨1, "key"⟩, ⟨2, "index"⟩] t with
  | (1, value) => value.readText.map .key
  | (2, value) => (readU32 value).map .index
  | _ => none

end Subkey

namespace SubkeyPath

def serialize (human : Bool) (path : SubkeyPath) : Tree := .seq (path.segments.map (Subkey.serialize human))

/-- A path that is empty is refused. -/
def deserialize (human : Bool) (t : Tree) : Option SubkeyPath := do
  let segments ← t.readSeq (Subkey.deserialize human)
  if h : segments ≠ [] then pure ⟨segments, h⟩ else none

end SubkeyPath

namespace NamespaceKey

def serialize (key : NamespaceKey) : Tree := .text key.name

/-- A key that is empty is refused. -/
def deserialize (t : Tree) : Option NamespaceKey := do
  let name ← t.readText
  if h : name ≠ "" then pure ⟨name, h⟩ else none

end NamespaceKey

/-! ## Values -/

namespace Value

def VARIANTS : List Name :=
  [⟨1, "string"⟩, ⟨2, "int"⟩, ⟨3, "bool"⟩, ⟨4, "array"⟩, ⟨5, "map"⟩, ⟨6, "key"⟩]

mutual

def serialize (human : Bool) : Value → Tree
  | .string text => serializeVariant human ⟨1, "string"⟩ (.text text)
  | .int n => serializeVariant human ⟨2, "int"⟩ (.int n.toInt)
  | .bool flag => serializeVariant human ⟨3, "bool"⟩ (.bool flag)
  | .array items => serializeVariant human ⟨4, "array"⟩ (.seq (serializeItems human items))
  | .map entries => serializeVariant human ⟨5, "map"⟩ (.map (serializeEntries human entries))
  | .key k => serializeVariant human ⟨6, "key"⟩ (k.serialize human)

def serializeItems (human : Bool) : List Value → List Tree
  | [] => []
  | item :: rest => serialize human item :: serializeItems human rest

def serializeEntries (human : Bool) : List (String × Value) → List (Tree × Tree)
  | [] => []
  | (name, value) :: rest => (.text name, serialize human value) :: serializeEntries human rest

end

/-- The payload of a tagged tree is smaller than the tree. -/
theorem sizeOf_deserializeVariant {human : Bool} {variants : List Name} {t value : Tree} {n : Nat}
    (h : deserializeVariant human variants t = some (n, value)) : sizeOf value < sizeOf t := by
  unfold deserializeVariant at h
  split at h
  · obtain ⟨type, -, h⟩ := Option.bind_eq_some_iff.1 h
    obtain ⟨variant, -, h⟩ := Option.bind_eq_some_iff.1 h
    obtain ⟨value', hvalue, h⟩ := Option.bind_eq_some_iff.1 h
    cases h
    exact Tree.sizeOf_field hvalue
  · split at h
    · obtain ⟨tag', -, h⟩ := Option.bind_eq_some_iff.1 h
      obtain ⟨variant, -, h⟩ := Option.bind_eq_some_iff.1 h
      cases h
      simp only [Tree.map.sizeOf_spec, List.cons.sizeOf_spec, Prod.mk.sizeOf_spec]
      omega
    · cases h

mutual

def deserialize (human : Bool) (t : Tree) : Option Value :=
  match _h : deserializeVariant human VARIANTS t with
  | some (1, value) => value.readText.map .string
  | some (2, value) => (readI64 value).map .int
  | some (3, value) => value.readBool.map .bool
  | some (4, .seq items) => (deserializeItems human items).map .array
  | some (5, .map entries) => (deserializeEntries human entries).map fun entries =>
      .map (entries.foldl (fun map entry => Entries.insert map entry.1 entry.2) [])
  | some (6, value) => (Key.deserialize human value).map .key
  | _ => none
termination_by sizeOf t
decreasing_by
  · have := sizeOf_deserializeVariant _h
    simp only [Tree.seq.sizeOf_spec] at this
    omega
  · have := sizeOf_deserializeVariant _h
    simp only [Tree.map.sizeOf_spec] at this
    omega

def deserializeItems (human : Bool) (items : List Tree) : Option (List Value) :=
  match items with
  | [] => some []
  | item :: rest => do
    let item ← deserialize human item
    let rest ← deserializeItems human rest
    pure (item :: rest)
termination_by sizeOf items

def deserializeEntries (human : Bool) (entries : List (Tree × Tree)) : Option (List (String × Value)) :=
  match entries with
  | [] => some []
  | (name, value) :: rest => do
    let name ← name.readText
    let value ← deserialize human value
    let rest ← deserializeEntries human rest
    pure ((name, value) :: rest)
termination_by sizeOf entries

end

end Value

namespace Namespace

def serialize (human : Bool) (ns : Namespace) : Tree := record human [(⟨1, "value"⟩, ns.value.serialize human)]

def deserialize (human : Bool) (t : Tree) : Option Namespace := do
  let value ← (t.field human ⟨1, "value"⟩).bind (Value.deserialize human)
  pure { value }

end Namespace

/-! ## Messages -/

namespace Match

def serialize (human : Bool) (m : Match) : Tree :=
  record human [(⟨1, "path"⟩, option (SubkeyPath.serialize human) m.path), (⟨2, "value"⟩, m.value.serialize human)]

def deserialize (human : Bool) (t : Tree) : Option Match := do
  let path ← t.optField human ⟨1, "path"⟩ (SubkeyPath.deserialize human)
  let value ← (t.field human ⟨2, "value"⟩).bind (Value.deserialize human)
  pure { path, value }

end Match

namespace Predicate

def serialize (human : Bool) (p : Predicate) : Tree := .seq (p.conditions.map (Match.serialize human))

/-- A predicate without a condition is refused. -/
def deserialize (human : Bool) (t : Tree) : Option Predicate := do
  let conditions ← t.readSeq (Match.deserialize human)
  if h : conditions ≠ [] then pure ⟨conditions, h⟩ else none

end Predicate

namespace IncrementDecrement

def serialize (human : Bool) (inc : IncrementDecrement) : Tree :=
  record human [(⟨1, "delta"⟩, .int inc.delta.toInt), (⟨2, "min"⟩, option (fun n : Int64 => .int n.toInt) inc.min),
    (⟨3, "max"⟩, option (fun n : Int64 => .int n.toInt) inc.max)]

def deserialize (human : Bool) (t : Tree) : Option IncrementDecrement := do
  let delta ← (t.field human ⟨1, "delta"⟩).bind readI64
  let min ← t.optField human ⟨2, "min"⟩ readI64
  let max ← t.optField human ⟨3, "max"⟩ readI64
  pure { delta, min, max }

end IncrementDecrement

namespace AmendOp

def serialize (human : Bool) : AmendOp → Tree
  | .appendEntry entry => serializeVariant human ⟨1, "append_entry"⟩ (entry.serialize human)
  | .incrementDecrement inc => serializeVariant human ⟨2, "increment_decrement"⟩ (inc.serialize human)
  | .deleteMatching predicate => serializeVariant human ⟨3, "delete_matching"⟩ (predicate.serialize human)

def deserialize (human : Bool) (t : Tree) : Option AmendOp := do
  match ← deserializeVariant human [⟨1, "append_entry"⟩, ⟨2, "increment_decrement"⟩, ⟨3, "delete_matching"⟩] t with
  | (1, value) => (Value.deserialize human value).map .appendEntry
  | (2, value) => (IncrementDecrement.deserialize human value).map .incrementDecrement
  | (3, value) => (Predicate.deserialize human value).map .deleteMatching
  | _ => none

end AmendOp

namespace FullCheckpoint

def serialize (human : Bool) (state : FullCheckpoint) : Tree :=
  record human [(⟨1, "namespaces"⟩,
    .map (state.namespaces.toList.map fun e => (e.1.serialize, e.2.serialize human)))]

def deserialize (human : Bool) (t : Tree) : Option FullCheckpoint := do
  let namespaces ← (t.field human ⟨1, "namespaces"⟩).bind (Tree.readMap NamespaceKey.deserialize (Namespace.deserialize human))
  pure { namespaces := namespaces.foldl (fun m e => m.insert e.1 e.2) ∅ }

end FullCheckpoint

namespace InitMsg

def serialize (human : Bool) (msg : InitMsg) : Tree := record human [(⟨1, "state"⟩, msg.state.serialize human)]

def deserialize (human : Bool) (t : Tree) : Option InitMsg := do
  let state ← (t.field human ⟨1, "state"⟩).bind (FullCheckpoint.deserialize human)
  pure { state }

end InitMsg

namespace SetNamespace

def serialize (human : Bool) (msg : SetNamespace) : Tree :=
  record human [(⟨1, "prev"⟩, msg.prev.serialize human), (⟨2, "key"⟩, msg.key.serialize),
    (⟨3, "namespace"⟩, msg.namespace.serialize human)]

def deserialize (human : Bool) (t : Tree) : Option SetNamespace := do
  let prev ← (t.field human ⟨1, "prev"⟩).bind (EnvelopeDigest.deserialize human)
  let key ← (t.field human ⟨2, "key"⟩).bind NamespaceKey.deserialize
  let ns ← (t.field human ⟨3, "namespace"⟩).bind (Namespace.deserialize human)
  pure ⟨prev, key, ns⟩

end SetNamespace

namespace SetNamespaceKey

def serialize (human : Bool) (msg : SetNamespaceKey) : Tree :=
  record human [(⟨1, "prev"⟩, msg.prev.serialize human), (⟨2, "key"⟩, msg.key.serialize),
    (⟨3, "path"⟩, msg.path.serialize human), (⟨4, "value"⟩, option (Value.serialize human) msg.value)]

def deserialize (human : Bool) (t : Tree) : Option SetNamespaceKey := do
  let prev ← (t.field human ⟨1, "prev"⟩).bind (EnvelopeDigest.deserialize human)
  let key ← (t.field human ⟨2, "key"⟩).bind NamespaceKey.deserialize
  let path ← (t.field human ⟨3, "path"⟩).bind (SubkeyPath.deserialize human)
  let value ← t.optField human ⟨4, "value"⟩ (Value.deserialize human)
  pure { prev, key, path, value }

end SetNamespaceKey

namespace AmendNamespaceKey

def serialize (human : Bool) (msg : AmendNamespaceKey) : Tree :=
  record human [(⟨1, "prev"⟩, msg.prev.serialize human), (⟨2, "key"⟩, msg.key.serialize),
    (⟨3, "path"⟩, option (SubkeyPath.serialize human) msg.path), (⟨4, "op"⟩, msg.op.serialize human)]

def deserialize (human : Bool) (t : Tree) : Option AmendNamespaceKey := do
  let prev ← (t.field human ⟨1, "prev"⟩).bind (EnvelopeDigest.deserialize human)
  let key ← (t.field human ⟨2, "key"⟩).bind NamespaceKey.deserialize
  let path ← t.optField human ⟨3, "path"⟩ (SubkeyPath.deserialize human)
  let op ← (t.field human ⟨4, "op"⟩).bind (AmendOp.deserialize human)
  pure { prev, key, path, op }

end AmendNamespaceKey

namespace DeleteNamespace

def serialize (human : Bool) (msg : DeleteNamespace) : Tree :=
  record human [(⟨1, "prev"⟩, msg.prev.serialize human), (⟨2, "key"⟩, msg.key.serialize)]

def deserialize (human : Bool) (t : Tree) : Option DeleteNamespace := do
  let prev ← (t.field human ⟨1, "prev"⟩).bind (EnvelopeDigest.deserialize human)
  let key ← (t.field human ⟨2, "key"⟩).bind NamespaceKey.deserialize
  pure { prev, key }

end DeleteNamespace

namespace Msg

def VARIANTS : List Name :=
  [⟨1, "init"⟩, ⟨2, "set_namespace"⟩, ⟨3, "set_namespace_key"⟩, ⟨4, "amend_namespace_key"⟩, ⟨5, "delete_namespace"⟩]

def serialize (human : Bool) : Msg → Tree
  | .init msg => serializeVariant human ⟨1, "init"⟩ (msg.serialize human)
  | .setNamespace msg => serializeVariant human ⟨2, "set_namespace"⟩ (msg.serialize human)
  | .setNamespaceKey msg => serializeVariant human ⟨3, "set_namespace_key"⟩ (msg.serialize human)
  | .amendNamespaceKey msg => serializeVariant human ⟨4, "amend_namespace_key"⟩ (msg.serialize human)
  | .deleteNamespace msg => serializeVariant human ⟨5, "delete_namespace"⟩ (msg.serialize human)

def deserialize (human : Bool) (t : Tree) : Option Msg := do
  match ← deserializeVariant human VARIANTS t with
  | (1, value) => (InitMsg.deserialize human value).map .init
  | (2, value) => (SetNamespace.deserialize human value).map .setNamespace
  | (3, value) => (SetNamespaceKey.deserialize human value).map .setNamespaceKey
  | (4, value) => (AmendNamespaceKey.deserialize human value).map .amendNamespaceKey
  | (5, value) => (DeleteNamespace.deserialize human value).map .deleteNamespace
  | _ => none

end Msg

/-! ## Envelopes -/

namespace SignedTimestamp

def serialize (_ : SignedTimestamp) : Tree := .map []

/-- No field is asked for, so any map will do. -/
def deserialize : Tree → Option SignedTimestamp
  | .map _ => some {}
  | _ => none

end SignedTimestamp

namespace Envelope

/-- The verification status is not serialized. -/
def serialize (human : Bool) (envelope : Envelope) : Tree :=
  record human [(⟨1, "payload"⟩, envelope.payload.serialize human),
    (⟨2, "signatures"⟩, .map (envelope.signatures.toList.map fun e => (e.1.serialize human, e.2.serialize human))),
    (⟨3, "timestamps"⟩, .seq (envelope.timestamps.map SignedTimestamp.serialize))]

def deserialize (human : Bool) (t : Tree) : Option Envelope := do
  let payload ← (t.field human ⟨1, "payload"⟩).bind (Msg.deserialize human)
  let signatures ← (t.field human ⟨2, "signatures"⟩).bind
    (Tree.readMap (KeyId.deserialize human) (Signature.deserialize human))
  let timestamps ← (t.field human ⟨3, "timestamps"⟩).bind (Tree.readSeq SignedTimestamp.deserialize)
  pure { payload, signatures := signatures.foldl (fun m e => m.insert e.1 e.2) ∅, timestamps, verificationStatus := .unchecked }

end Envelope

section

variable [Cbor2]

/-- Encodes a wire value as deterministic CBOR (`wire::encode`). -/
def encode (envelope : Envelope) : Except WireError Blob := Cbor2.toCanonicalVec (envelope.serialize false)

/-- Decodes a wire value from CBOR (`wire::decode`). -/
def decode (bytes : Blob) : Except WireError Envelope := do
  let t ← Cbor2.fromSlice bytes
  (Envelope.deserialize false t).elim (.error .decode) .ok

end

end IrohLotus.Wire
