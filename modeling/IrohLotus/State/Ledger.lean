/-
The state a chain of envelopes folds down to (`state::Ledger`): a cursor at a head, the rules of
the reserved namespaces, signature verification against the parent's key set, and `apply`.
-/
import IrohLotus.Storage.Mem
import IrohLotus.Wire.Addr
import IrohLotus.State.Error

namespace IrohLotus.State

open Std Outcome IrohLotus.Wire IrohLotus.Storage

/-! ## Reserved namespaces -/

/-- The least minutes a message is kept before compaction may take it. -/
def minKeepMinutesKey : NamespaceKey := ⟨"_lotus_min_keep_minutes", by decide⟩
/-- The least verified signature weight an envelope must carry to apply. -/
def minEnvelopeWeightKey : NamespaceKey := ⟨"_lotus_min_envelope_weight", by decide⟩
/-- The fewest distinct keys that must have verifiably signed an envelope. -/
def minEnvelopeSignaturesKey : NamespaceKey := ⟨"_lotus_min_envelope_signatures", by decide⟩
/-- The keys whose signatures the ledger verifies against. -/
def trustedKeysKey : NamespaceKey := ⟨"_lotus_trusted_keys", by decide⟩
/-- The nodes known to the cluster. -/
def clusterNodesKey : NamespaceKey := ⟨"_lotus_nodes", by decide⟩

/-- The compaction floor in force when none was set: five days. -/
def defaultMinKeepMinutes : UInt32 := 5 * 24 * 60

/-- `u32::try_from` on an `i64`. -/
def u32TryFrom (n : Int64) : Option UInt32 :=
  if 0 ≤ n.toInt ∧ n.toInt < 2 ^ 32 then some (UInt32.ofNat n.toInt.toNat) else none

/-- A valid compaction floor: a positive integer that fits a `u32`. -/
def parseMinKeep : Value → Option UInt32
  | .int minutes => (u32TryFrom minutes).filter (0 < ·)
  | _ => none

/-- A threshold: a non-negative integer that fits a `u32`. -/
def parseThreshold : Value → Option UInt32
  | .int n => u32TryFrom n
  | _ => none

section Rules

variable [Externals]

/-- One entry of the trusted key set: a key filed under the id it derives to. -/
def parseTrustedKey : String × Value → Except TrustedKeysError (KeyId × Key)
  | (id, .key key) =>
    if id = Externals.keyIdToHex key.id then pure (key.id, key) else throw (.idMismatch id key.id)
  | (id, _) => throw (.notAKey id)

/-- Reads the trusted key set: a map from a key's hex id to the key. -/
def parseTrustedKeys : Value → Except TrustedKeysError (ExtTreeMap KeyId Key)
  | .map entries => do
    let keys ← entries.mapM parseTrustedKey
    pure (ExtTreeMap.ofList keys)
  | _ => throw .notAMap

/-- One entry of the cluster nodes: a key id in its one canonical spelling, and where to reach it. -/
def parseClusterNode : String × Value → Except String (KeyId × EndpointAddr)
  | (id, entry) => do
    let nodeId ← (Externals.keyIdFromHex id).mapError fun e => id ++ ": " ++ e
    if id ≠ Externals.keyIdToHex nodeId then throw (id ++ ": not the canonical spelling of a key id")
    match entry with
    | .map inner =>
      match Entries.get inner "iroh" with
      | some iroh => do
        let addr ← (EndpointAddr.tryFrom iroh).mapError fun e => id ++ ": " ++ e.text
        pure (nodeId, addr)
      | none => throw (id ++ ": missing or invalid `iroh` value")
    | _ => throw (id ++ ": not a map")

/-- Parses the set of cluster nodes. -/
def parseClusterNodes : Value → Except String (ExtTreeMap KeyId EndpointAddr)
  | .map entries => do
    let nodes ← entries.mapM parseClusterNode
    pure (ExtTreeMap.ofList nodes)
  | _ => throw "not a map"

/-- What a reserved namespace's value must satisfy, and why it does not when it does not. -/
abbrev Rule := Value → Except ValueError Unit

/-- The rule judging what `key`'s namespace may hold, if it has one. -/
def rule (key : NamespaceKey) : Option Rule :=
  if key = minKeepMinutesKey then
    some fun value => ((parseMinKeep value).elim (throw .minKeepMinutes) fun _ => pure ())
  else if key = minEnvelopeWeightKey then
    some fun value => ((parseThreshold value).elim (throw .minEnvelopeWeight) fun _ => pure ())
  else if key = minEnvelopeSignaturesKey then
    some fun value => ((parseThreshold value).elim (throw .minEnvelopeSignatures) fun _ => pure ())
  else if key = trustedKeysKey then
    some fun value => ((parseTrustedKeys value).map fun _ => ()).mapError .trustedKeys
  else if key = clusterNodesKey then
    some fun value => ((parseClusterNodes value).map fun _ => ()).mapError .clusterNodes
  else none

/-- Validates the whole value `key` would hold after a write. -/
def validateValue (key : NamespaceKey) (value : Value) : Res ApplyError Unit :=
  Res.ofExcept (.invalidValue key) ((rule key).elim (pure ()) fun rule => rule value)

/-- Validates every namespace of a checkpoint, in key order. -/
def validateCheckpoint (state : FullCheckpoint) : Res ApplyError Unit :=
  state.namespaces.toList.forM fun (key, ns) => validateValue key ns.value

end Rules

/-- The ledger, as of some position in the chain: nothing but the head it stands at. -/
structure Ledger where
  head : EnvelopeDigest
deriving DecidableEq

namespace Ledger

variable [Externals]

/-! ## Opening -/

/-- Opens a ledger from the `Init` envelope that starts a chain, installing its checkpoint. -/
def init (envelope : Envelope) : Action MemStorage Error Ledger :=
  match envelope.payload with
  | .init msg => do
    Action.ofRes ((validateCheckpoint msg.state).mapErr .apply)
    let head ← Action.ofRes (Res.ofExcept .wire envelope.digest)
    Action.write fun s => pure (s.install head msg.state.namespaces)
    pure { head }
  | _ => Action.fail .notInit

/-- Reopens a ledger standing at `head`. -/
def «open» (s : MemStorage) (head : EnvelopeDigest) : Res Error Ledger :=
  if s.containsVersion head then pure { head } else Res.fail (.unknownHead head)

/-- Opens a ledger at `envelope`'s digest, installing `state`. -/
def adopt (envelope : Envelope) (state : FullCheckpoint) : Action MemStorage Error Ledger := do
  Action.ofRes ((validateCheckpoint state).mapErr .apply)
  let head ← Action.ofRes (Res.ofExcept .wire envelope.digest)
  Action.write fun s => pure (s.install head state.namespaces)
  pure { head }

/-! ## Reading the ledger's config -/

/-- The compaction floor in force at the ledger's position. -/
def minKeepMinutes (ledger : Ledger) (s : MemStorage) : Res ApplyError UInt32 := do
  let ns ← s.nsAt ledger.head minKeepMinutesKey
  pure ((ns.bind fun ns => parseMinKeep ns.value).getD defaultMinKeepMinutes)

/-- The set of trusted keys at this state; absent, the set is empty. -/
def trustedKeys (ledger : Ledger) (s : MemStorage) : Res ApplyError (ExtTreeMap KeyId Key) := do
  match ← s.nsAt ledger.head trustedKeysKey with
  | none => pure ∅
  | some ns =>
    Res.ofExcept (fun reason => .invalidValue trustedKeysKey (.trustedKeys reason)) (parseTrustedKeys ns.value)

/-- How to reach each node the cluster knows of; absent, it knows of none. -/
def peerAddresses (ledger : Ledger) (s : MemStorage) : Res ApplyError (ExtTreeMap KeyId EndpointAddr) := do
  match ← s.nsAt ledger.head clusterNodesKey with
  | none => pure ∅
  | some ns =>
    Res.ofExcept (fun reason => .invalidValue clusterNodesKey (.clusterNodes reason)) (parseClusterNodes ns.value)

/-- Reads a `u32` threshold out of a reserved namespace: absent is no threshold, present but
unreadable an error. -/
def threshold (ledger : Ledger) (s : MemStorage) (key : NamespaceKey) (reason : ValueError) :
    Res ApplyError UInt32 := do
  match ← s.nsAt ledger.head key with
  | none => pure 0
  | some ns => Res.okOr (parseThreshold ns.value) (.invalidValue key reason)

def minEnvelopeWeight (ledger : Ledger) (s : MemStorage) : Res ApplyError UInt32 :=
  ledger.threshold s minEnvelopeWeightKey .minEnvelopeWeight

def minEnvelopeSignatures (ledger : Ledger) (s : MemStorage) : Res ApplyError UInt32 :=
  ledger.threshold s minEnvelopeSignaturesKey .minEnvelopeSignatures

/-! ## Signatures -/

/-- Refuses an envelope whose signatures did not verify, or that misses a threshold in force here. -/
def checkSigThresholds (ledger : Ledger) (s : MemStorage) (envelope : Envelope) : Res ApplyError Unit := do
  if let .failed failingKeyIds := envelope.verificationStatus then
    Res.fail (.invalidSignatures failingKeyIds)
  let found := envelope.verificationStatus.signatureWeight
  let required ← ledger.minEnvelopeWeight s
  if found < required then
    Res.fail (.insufficientWeight required found)
  let found := envelope.verifiedSigners
  let required ← ledger.minEnvelopeSignatures s
  if found < required then
    Res.fail (.insufficientSignatures required found)

/-- The total weight of the signing keys, saturating at `u32::MAX` (the source sums in `u64`, which
fewer than `2 ^ 32` signers cannot overflow). -/
def signedWeight (keys : ExtTreeMap KeyId Key) (signatures : ExtTreeMap KeyId Signature) : UInt32 :=
  let total := ((signatures.keys.filterMap fun keyId => keys[keyId]?).map fun key => key.weight.toNat).sum
  if total < 2 ^ 32 then UInt32.ofNat total else 2 ^ 32 - 1

/-- Where a ledger must stand to verify `envelope`: at its parent, or, for genesis, which has none, at
the envelope itself. -/
def verifiedAt (envelope : Envelope) : Res ApplyError EnvelopeDigest :=
  match envelope.prev with
  | some prev => pure prev
  | none => Res.ofExcept .wire envelope.digest

/-- Verifies `envelope`'s signatures against the trusted key set of this state, its parent's. -/
def verifyEnvelope (ledger : Ledger) (s : MemStorage) (envelope : Envelope) :
    Res ApplyError VerificationStatus := do
  let parent ← verifiedAt envelope
  if parent ≠ ledger.head then
    Res.fail (.chainMismatch ledger.head parent)
  if envelope.signatures.isEmpty then
    return .allMatched 0
  let keys ← ledger.trustedKeys s
  let digest ← Res.ofExcept .wire envelope.signatureDigest
  let failing := envelope.signatures.toList.filter fun (keyId, signature) =>
    !(keys[keyId]?.any fun key => key.verify signature digest)
  if !failing.isEmpty then
    return .failed (failing.map Prod.fst)
  return .allMatched (signedWeight keys envelope.signatures)

/-! ## Applying -/

/-- Checks a `SetNamespaceKey` against the store, yielding the op that commits it. -/
def validateSetKey (ledger : Ledger) (s : MemStorage) (set : SetNamespaceKey) : Res ApplyError NamespaceOp := do
  let last := set.path.segments.length - 1
  let resolution ← Res.okOr (← s.resolve ledger.head set.key set.path.segments) (.unknownNamespace set.key)
  match resolution with
  | .node _ => pure ()
  | .missing depth stoppedIn =>
    -- the only legal absence: a fresh key set into a map
    if stoppedIn = .map ∧ depth = last ∧ set.value.isSome then pure ()
    else Res.fail (.unknownPath set.key set.path)
  | .mismatch _ => Res.fail (.pathTypeMismatch set.key set.path)
  pure (.setAt set.key set.path set.value)

/-- Refuses inverted bounds. -/
def checkBounds (amend : AmendNamespaceKey) (inc : IncrementDecrement) : Res ApplyError Unit :=
  match inc.min, inc.max with
  | some min, some max => if max < min then Res.fail (.invalidBounds amend.key amend.path) else pure ()
  | _, _ => pure ()

/-- The increment arm of `validateAmendKey`: bounds not inverted, an integer at the path, and a sum
that clamps or fits; a root increment is judged by the namespace's rule as well. -/
def validateIncrement (ledger : Ledger) (s : MemStorage) (amend : AmendNamespaceKey) (inc : IncrementDecrement) :
    Res ApplyError Unit := do
  checkBounds amend inc
  match ← s.valueAt ledger.head amend.key (segmentsOf amend.path) with
  | some (.int n) =>
    let sum ← Res.okOr (inc.apply n) (.overflow amend.key amend.path)
    if (segmentsOf amend.path).isEmpty then
      validateValue amend.key (.int sum)
  | _ => Res.fail (.amendTypeMismatch amend.key amend.path)

/-- Checks an `AmendNamespaceKey` against the store, yielding the op that commits it. -/
def validateAmendKey (ledger : Ledger) (s : MemStorage) (amend : AmendNamespaceKey) :
    Res ApplyError NamespaceOp := do
  let segments := segmentsOf amend.path
  let miss (error : NamespaceKey → SubkeyPath → ApplyError) : Res ApplyError Unit := do
    let path ← Res.expect amend.path "Missing and Mismatch resolutions walk at least one segment"
    Res.fail (error amend.key path)
  let cannotAmend : Res ApplyError Unit := Res.fail (.amendTypeMismatch amend.key amend.path)
  let resolution ← Res.okOr (← s.resolve ledger.head amend.key segments) (.unknownNamespace amend.key)
  match amend.op, resolution with
  | .appendEntry _, .node .array => pure ()
  | .appendEntry _, .missing depth stoppedIn =>
    -- the only legal absence: an append creating its array as a fresh key under an existing map
    if stoppedIn = .map ∧ depth + 1 = segments.length then pure () else miss .unknownPath
  | .appendEntry _, .node _ => cannotAmend
  | .incrementDecrement inc, .node .leaf => ledger.validateIncrement s amend inc
  | .incrementDecrement _, .node _ => cannotAmend
  | .deleteMatching _, .node .map | .deleteMatching _, .node .array => pure ()
  | .deleteMatching _, .node .leaf => cannotAmend
  | _, .missing _ _ => miss .unknownPath
  | _, .mismatch _ => miss .pathTypeMismatch
  pure (.amendAt amend.key amend.path amend.op)

/-- The value a nested write is about to change. -/
def ruledValue (ledger : Ledger) (s : MemStorage) (key : NamespaceKey) : Res ApplyError Value := do
  let ns ← Res.expect (← s.nsAt ledger.head key) "a nested write is pre-validated: the namespace exists"
  pure ns.value

/-- Re-judges a nested write against its namespace's rule, by a dry run. -/
def validateNested (ledger : Ledger) (s : MemStorage) : NamespaceOp → Res ApplyError Unit
  | .setAt key path value =>
    if (rule key).isSome then do
      let result ← setAt (← ledger.ruledValue s key) path value
      validateValue key result
    else pure ()
  | .amendAt key path op =>
    if (rule key).isSome then do
      let result ← amendAt (← ledger.ruledValue s key) path op
      validateValue key result
    else pure ()
  | .put _ _ | .delete _ => pure ()

/-- The op a message commits, once its own checks pass. -/
def validateMsg (ledger : Ledger) (s : MemStorage) : Msg → Res ApplyError NamespaceOp
  | .init _ => Res.fail .unexpectedInit
  | .setNamespace set => do
    validateValue set.key set.namespace.value
    pure (.put set.key set.namespace)
  | .setNamespaceKey set => ledger.validateSetKey s set
  | .amendNamespaceKey amend => ledger.validateAmendKey s amend
  | .deleteNamespace del => do
    let _ ← Res.okOr (← s.resolve ledger.head del.key []) (.unknownNamespace del.key)
    pure (.delete del.key)

/-- Everything `apply` validates before its one commit: the digest the new version stands at, and
the op that makes it. -/
def checked (ledger : Ledger) (s : MemStorage) (envelope : Envelope) :
    Res ApplyError (EnvelopeDigest × NamespaceOp) := do
  let prev ← Res.okOr envelope.prev .unexpectedInit
  if prev ≠ ledger.head then
    Res.fail (.chainMismatch ledger.head prev)
  let head ← Res.ofExcept .wire envelope.digest
  ledger.checkSigThresholds s envelope
  let op ← ledger.validateMsg s envelope.payload
  ledger.validateNested s op
  pure (head, op)

/-- Advances the ledger by one envelope (`Ledger::apply`). -/
def apply (ledger : Ledger) (envelope : Envelope) : Action MemStorage ApplyError Ledger := do
  let (head, op) ← Action.read fun s => ledger.checked s envelope
  Action.write fun s => s.commit ledger.head head op
  pure { head }

/-- One envelope of a replay: verified where the ledger stands, then applied. -/
def replayOne (ledger : Ledger) (envelope : Envelope) : Action MemStorage ApplyError Ledger := do
  let status ← Action.read fun s => ledger.verifyEnvelope s envelope
  ledger.apply (envelope.setVerificationStatus status)

/-- Replays a whole chain, `Init` envelope first. -/
def replay : List Envelope → Action MemStorage Error Ledger
  | [] => Action.fail .emptyChain
  | first :: rest => do
    let ledger ← Ledger.init first
    (rest.foldlM replayOne ledger).mapErr .apply

/-- The ledger's state as a checkpoint. -/
def checkpoint (ledger : Ledger) (s : MemStorage) : Res Error FullCheckpoint := do
  pure { namespaces := ← s.namespaces ledger.head }

end Ledger

end IrohLotus.State
