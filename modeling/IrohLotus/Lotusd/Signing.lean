/-
What a node's own signature carries. An envelope with one signature is accepted on a state exactly
when the state trusts the key, the signature verifies, the key weighs what the state asks for and the
state asks for no second signer; and a write signed so goes in exactly when the state accepts it.
-/
import IrohLotus.Lotusd.Admit
import IrohLotus.State.Verified

namespace IrohLotus.Lotusd

open Std Outcome Forest IrohLotus.Wire IrohLotus.Storage IrohLotus.State

variable [Externals]

/-! ## One signature -/

/-- The state asks for no more than this signature over `digest` gives. -/
structure Carries (v : Version) (id : KeyId) (signature : Signature) (digest : EnvelopeSignatureDigest) : Prop where
  key : ∃ key, (trustedIn v)[id]? = some key ∧ key.verify signature digest = true ∧
    thresholdIn v minEnvelopeWeightKey ≤ key.weight
  signers : thresholdIn v minEnvelopeSignaturesKey ≤ 1

section Single

variable {v : Version} {p : EnvelopeDigest} {e : Envelope} {id : KeyId} {signature : Signature}
  {digest : EnvelopeSignatureDigest}

omit [Externals] in
theorem versions_mk (p : EnvelopeDigest) (v : Version) : (only p v).versions[(Ledger.mk p).head]? = some v :=
  versions_only p v

omit [Externals] in
theorem toList_single : ((∅ : ExtTreeMap KeyId Signature).insert id signature).toList = [(id, signature)] := by
  have hlen : ((∅ : ExtTreeMap KeyId Signature).insert id signature).toList.length = 1 := by
    rw [ExtTreeMap.length_toList, ExtTreeMap.size_insert]
    simp
  obtain ⟨x, hx⟩ := List.length_eq_one_iff.1 hlen
  have hmem : (id, signature) ∈ ((∅ : ExtTreeMap KeyId Signature).insert id signature).toList := by
    rw [ExtTreeMap.mem_toList_iff_getElem?_eq_some]
    simp
  rw [hx] at hmem ⊢
  rw [List.mem_singleton.1 hmem]

omit [Externals] in
theorem keys_single : ((∅ : ExtTreeMap KeyId Signature).insert id signature).keys = [id] := by
  rw [← ExtTreeMap.map_fst_toList_eq_keys, toList_single]
  rfl

/-- What one signature verifies to. -/
def singleStatus (v : Version) (id : KeyId) (signature : Signature) (digest : EnvelopeSignatureDigest) :
    VerificationStatus :=
  match (trustedIn v)[id]? with
  | some key => if key.verify signature digest then .allMatched key.weight else .failed [id]
  | none => .failed [id]

theorem trustedKeys_ruled (hr : Ruled v) : (Ledger.mk p).trustedKeys (only p v) = .ok (trustedIn v) := by
  obtain ⟨keys, hkeys⟩ := Ledger.trustedKeys_of_ruled (versions_mk p v) hr
  rw [hkeys, trustedKeys_eq_ok (versions_mk p v) hkeys]

theorem verifyEnvelope_single (hr : Ruled v) (hsig : e.signatures = (∅ : ExtTreeMap KeyId Signature).insert id signature)
    (hp : e.prev = some p) (hd : e.signatureDigest = .ok digest) :
    (Ledger.mk p).verifyEnvelope (only p v) e = .ok (singleStatus v id signature digest) := by
  have hat : Ledger.verifiedAt e = .ok p := by
    unfold Ledger.verifiedAt
    rw [hp]
    rfl
  have hsome : e.signatures.isEmpty = false := by
    rw [hsig]
    simp
  have hweight : ∀ key, (trustedIn v)[id]? = some key → Ledger.signedWeight (trustedIn v) e.signatures = key.weight := by
    intro key hkey
    have hlt := key.weight.toNat_lt
    unfold Ledger.signedWeight
    simp only [hsig, keys_single, List.filterMap_cons, hkey, List.filterMap_nil, List.map_cons, List.map_nil, List.sum_cons,
      List.sum_nil, Nat.add_zero]
    rw [if_pos (by omega)]
    exact UInt32.ofNat_toNat
  unfold Ledger.verifyEnvelope
  simp only [hat, Res.ok_bind, ne_eq, not_true_eq_false, if_false, hsome, trustedKeys_ruled hr, hd, Res.ofExcept_ok]
  rw [hsig, toList_single, ← hsig]
  unfold singleStatus
  cases hkey : (trustedIn v)[id]? with
  | none => simp only [List.filter_cons, hkey]; rfl
  | some key =>
    cases hver : key.verify signature digest with
    | true => simp only [List.filter_cons, hkey, Option.any_some, hver, hweight key hkey]; rfl
    | false => simp only [List.filter_cons, hkey, Option.any_some, hver]; rfl

/-- And with what it verifies to the envelope passes the thresholds exactly when the state asks for no
more. -/
theorem checkSigThresholds_single (hr : Ruled v)
    (hsig : e.signatures = (∅ : ExtTreeMap KeyId Signature).insert id signature)
    (hstatus : e.verificationStatus = singleStatus v id signature digest) :
    (Ledger.mk p).checkSigThresholds (only p v) e = .ok () ↔ Carries v id signature digest := by
  obtain ⟨minWeight, hminWeight⟩ := Ledger.threshold_of_ruled (versions_mk p v) hr
    Ledger.rule_minEnvelopeWeightKey
  obtain ⟨minSigners, hminSigners⟩ := Ledger.threshold_of_ruled (versions_mk p v) hr
    Ledger.rule_minEnvelopeSignaturesKey
  obtain rfl := threshold_eq_ok (versions_mk p v) hminWeight
  obtain rfl := threshold_eq_ok (versions_mk p v) hminSigners
  have hsize : e.signatures.size = 1 := by
    rw [hsig, ExtTreeMap.size_insert]
    simp
  have hsigners : ∀ w, e.verificationStatus = .allMatched w → e.verifiedSigners = 1 := by
    intro w hw
    unfold Envelope.verifiedSigners
    simp only [hw, hsize]
    rfl
  unfold Ledger.checkSigThresholds Ledger.minEnvelopeWeight Ledger.minEnvelopeSignatures
  rw [hminWeight, hminSigners]
  cases hkey : (trustedIn v)[id]? with
  | none =>
    have hfailed : e.verificationStatus = .failed [id] := by rw [hstatus]; simp only [singleStatus, hkey]
    simp only [hfailed]
    refine ⟨nofun, fun h => ?_⟩
    obtain ⟨key, hk, -⟩ := h.key
    rw [hkey] at hk; cases hk
  | some key =>
    cases hver : key.verify signature digest with
    | false =>
      have hfailed : e.verificationStatus = .failed [id] := by
        rw [hstatus]; simp only [singleStatus, hkey, hver]; rfl
      simp only [hfailed]
      refine ⟨nofun, fun h => ?_⟩
      obtain ⟨key', hk, hver', -⟩ := h.key
      rw [hkey] at hk; cases hk
      rw [hver] at hver'; cases hver'
    | true =>
      have hmatched : singleStatus v id signature digest = .allMatched key.weight := by
        simp only [singleStatus, hkey, hver, if_true]
      rw [← hstatus] at hmatched
      have hone := hsigners _ hmatched
      simp only [hmatched, VerificationStatus.signatureWeight, hone, Res.ok_bind]
      constructor
      · intro h
        split at h
        · cases h
        · rename_i hweight
          split at h
          · cases h
          · rename_i hcount
            exact ⟨⟨key, hkey, hver, UInt32.not_lt.1 hweight⟩, UInt32.not_lt.1 hcount⟩
      · rintro ⟨⟨key', hk, -, hweight⟩, hcount⟩
        rw [hkey] at hk; cases hk
        rw [if_neg (UInt32.not_lt.2 hweight)]
        rw [if_neg (UInt32.not_lt.2 hcount)]
        rfl

end Single

/-! ## A signed message -/

/-- The checks of a message pass on the state `v` of `p`, and it makes the state `v'` of it. -/
def Passes (v : Version) (p : EnvelopeDigest) (msg : Msg) (v' : Version) : Prop :=
  ∃ op, (Ledger.mk p).validateMsg (only p v) msg = .ok op ∧ (Ledger.mk p).validateNested (only p v) op = .ok () ∧
    op.update (E := ApplyError) v = .ok v'

/-- The node's own signature is all the state asks of an envelope that carries `msg`. -/
def SignsAlone (keys : NodeKeys) (v : Version) (msg : Msg) : Prop :=
  ∃ digest, (Envelope.new msg).signatureDigest = .ok digest ∧
    Carries v keys.keyId (.ed25519 (keys.signingKey digest)) digest

section Signed

variable {keys : NodeKeys} {v v' : Version} {p d : EnvelopeDigest} {msg : Msg} {e : Envelope}

theorem sign_eq_ok (h : keys.sign (Envelope.new msg) = .ok e) : ∃ digest, (Envelope.new msg).signatureDigest = .ok digest ∧
    e.payload = msg ∧ e.signatures = (∅ : ExtTreeMap KeyId Signature).insert keys.keyId (.ed25519 (keys.signingKey digest)) ∧
    e.signatureDigest = .ok digest := by
  unfold NodeKeys.sign at h
  obtain ⟨digest, hdigest, h⟩ := except_bind_eq_ok h
  cases h
  exact ⟨digest, hdigest, rfl, rfl, hdigest⟩

/-- A message this node signs is accepted exactly when its signature is enough and the checks pass. -/
theorem accepts_signed_iff (hr : Ruled v) (hp : msg.prevDigest = some p) (hs : keys.sign (Envelope.new msg) = .ok e)
    (hd : e.digest = .ok d) :
    (∃ status, Accepts p v (e.setVerificationStatus status) d v') ↔ SignsAlone keys v msg ∧ Passes v p msg v' := by
  obtain ⟨digest, hdigest, hpayload, hsig, hsigned⟩ := sign_eq_ok hs
  have hprev : e.prev = some p := by
    unfold Envelope.prev
    rw [hpayload]
    exact hp
  have hverify := verifyEnvelope_single hr hsig hprev hsigned
  constructor
  · rintro ⟨status, hacc⟩
    have hstatus : status = singleStatus v keys.keyId (.ed25519 (keys.signingKey digest)) digest := by
      have hver := hacc.verified
      rw [verifyEnvelope_setVerificationStatus, hverify] at hver
      exact (Except.ok.inj hver).symm
    obtain ⟨op, hc, hu⟩ := hacc.checked
    obtain ⟨-, -, hthresholds, hmsg, hnested⟩ := Ledger.checked_eq_ok hc
    have hcarries := (checkSigThresholds_single (e := e.setVerificationStatus status) hr hsig hstatus).1 hthresholds
    refine ⟨⟨digest, hdigest, hcarries⟩, op, ?_, hnested, hu⟩
    rw [← hpayload]
    exact hmsg
  · rintro ⟨⟨digest', hdigest', hcarries⟩, op, hmsg, hnested, hu⟩
    rw [hdigest] at hdigest'
    cases hdigest'
    refine ⟨singleStatus v keys.keyId (.ed25519 (keys.signingKey digest)) digest, ?_, op, ?_, hu⟩
    · rw [verifyEnvelope_setVerificationStatus]
      exact hverify
    have hthresholds := (checkSigThresholds_single (p := p)
      (e := e.setVerificationStatus (singleStatus v keys.keyId (.ed25519 (keys.signingKey digest)) digest)) hr hsig rfl).2 hcarries
    have hmsg' : (Ledger.mk p).validateMsg (only p v) e.payload = .ok op := by
      rw [hpayload]
      exact hmsg
    unfold Ledger.checked
    simp only [Envelope.setVerificationStatus_prev, hprev, Res.okOr_some, Res.ok_bind, ne_eq, not_true_eq_false, if_false,
      Envelope.digest_setVerificationStatus, hd, Res.ofExcept_ok, hthresholds]
    show (do
      let op ← (Ledger.mk p).validateMsg (only p v) e.payload
      (Ledger.mk p).validateNested (only p v) op
      pure (d, op) : Res ApplyError (EnvelopeDigest × NamespaceOp)) = _
    rw [hmsg', Res.ok_bind, hnested]
    rfl

end Signed

/-! ## Nested writes -/

section Nested

variable {v v' : Version} {p : EnvelopeDigest} {key : NamespaceKey} {ns : Namespace} {w : Value}

theorem validateValue_iff {value : Value} : validateValue key value = .ok () ↔ ∀ r, rule key = some r → r value = .ok () := by
  refine ⟨fun h r hr => validateValue_eq_ok h hr, fun h => ?_⟩
  unfold validateValue
  cases hr : rule key with
  | none => rfl
  | some r => rw [Option.elim_some, h r hr]; rfl

/-- The dry run of a nested write is the rule's judgement of what the write makes. -/
theorem dryRun_iff (hns : v[key]? = some ns) (result : Value → Res ApplyError Value) (hw : result ns.value = .ok w) :
    (if (rule key).isSome then do
      let value ← result (← (Ledger.mk p).ruledValue (only p v) key)
      validateValue key value
    else pure ()) = (.ok () : Res ApplyError Unit) ↔ ∀ r, rule key = some r → r w = .ok () := by
  rw [Ledger.ruledValue_eq_ok (versions_mk p v) hns, Res.ok_bind, hw, Res.ok_bind]
  cases hr : rule key with
  | none => simp; rfl
  | some r =>
    rw [Option.isSome_some, if_pos rfl, validateValue_iff, hr]

/-- Setting one entry passes exactly where the namespace holds a map and keeps its rule. -/
theorem passes_setEntry_iff {id : String} {value : Value} : Passes v p (Core.setEntry key id value p) v' ↔
    ∃ entries, v[key]? = some ⟨.map entries⟩ ∧
      (∀ r, rule key = some r → r (.map (Entries.insert entries id value)) = .ok ()) ∧
      v' = v.insert key ⟨.map (Entries.insert entries id value)⟩ := by
  constructor
  · rintro ⟨op, hmsg, hnested, hu⟩
    have hop := (Ledger.validateMsg_eq_ok (E := Empty) (versions_only p v) hmsg).1
    cases hop
    obtain ⟨ns, w, hns, hw, rfl⟩ := MemStorage.update_setAt_eq_ok hu
    have hrule := (dryRun_iff hns (setAt · _ _) hw).1 hnested
    obtain ⟨entries, hmap, rfl⟩ := setAt_entry hw
    obtain ⟨nsValue⟩ := ns
    obtain rfl : nsValue = .map entries := hmap
    exact ⟨entries, hns, hrule, rfl⟩
  · rintro ⟨entries, hns, hrule, rfl⟩
    have hset : setAt (E := ApplyError) (.map entries) ⟨[.key id], List.cons_ne_nil _ _⟩ (some value) =
        .ok (.map (Entries.insert entries id value)) := rfl
    refine ⟨.setAt key ⟨[.key id], List.cons_ne_nil _ _⟩ (some value), ?_, (dryRun_iff hns (setAt · _ _) hset).2 hrule, ?_⟩
    · show (Ledger.mk p).validateSetKey (only p v) _ = _
      have hres : (only p v).resolve (E := ApplyError) p key [.key id] =
          .ok (some (Storage.resolve (.map entries) [.key id])) := by
        simp only [MemStorage.resolve, (only p v).version_eq_ok (versions_only p v), Res.ok_bind, hns]
        rfl
      unfold Ledger.validateSetKey
      simp only [hres, Res.ok_bind, Res.okOr_some]
      cases hget : Entries.get entries id with
      | some child => simp only [Storage.resolve, resolveFrom, hget]; rfl
      | none => simp only [Storage.resolve, resolveFrom, hget]; rfl
    · simp only [NamespaceOp.update, hns, Res.expect_some, Res.ok_bind, hset]
      rfl

end Nested

/-! ## A signed write -/

section Write

variable {W : World} {core : Core} {keys : NodeKeys} {msg : Msg}

/-- The core's own bookkeeping about an insert never fails: the two heads share the root. -/
theorem Core.insert_eq (hgood : Good W core.chain core.storage) {es : List Envelope}
    (content : ∀ e ∈ es, e.toSignedPortion ∈ W.contents) {r : Res Error Insert} {chain : Chain} {storage : MemStorage}
    (run : core.chain.insertBatch es core.storage = (r, chain, storage)) :
    core.insert es = (r, { core with chain, storage }) := by
  obtain ⟨hgood', hroot, hw, -⟩ := hgood.insertBatch content run
  have hbefore : Desc storage.parent chain.root core.chain.head := by
    rw [hroot]
    exact hgood.tip.canonical.desc.mono hw.logGrows.extends
  obtain ⟨m, undone, made, hdiff, -⟩ := ChangeDiffer.diff_eq_ok hgood'.acyclic hbefore hgood'.tip.canonical.desc
  unfold Core.insert Lotusd.insert
  rw [run]
  simp only [hdiff]
  split <;> rfl

/-- Whatever becomes of the run, the core it leaves is one the chain's calls reach. -/
theorem Core.insert_reachable {contents : Set SignedPortion} (h : Reachable contents core.chain core.storage)
    {es : List Envelope} (content : ∀ e ∈ es, e.toSignedPortion ∈ contents) :
    Reachable contents (core.insert es).2.chain (core.insert es).2.storage := by
  rcases hrun : core.chain.insertBatch es core.storage with ⟨r, chain, storage⟩
  have hreach := h.insertBatch content hrun
  unfold Core.insert Lotusd.insert
  rw [hrun]
  dsimp only
  split
  · split
    · exact hreach
    · exact hreach
  · exact hreach

/-- The message this node signs goes in on the state `v` of `p`, as `e`, and makes `v'`. -/
structure Lands (keys : NodeKeys) (v : Version) (p : EnvelopeDigest) (msg : Msg) (e : Envelope) (d : EnvelopeDigest)
    (v' : Version) : Prop where
  signed : keys.sign (Envelope.new msg) = .ok e
  digest : e.digest = .ok d
  alone : SignsAlone keys v msg
  passes : Passes v p msg v'

/-- A write signed by this node goes in exactly when the head's state accepts it, and one that is
refused leaves the core as it was. -/
theorem Core.signWrite_cases (hgood : Good W core.chain core.storage) (build : EnvelopeDigest → Msg)
    (hprev : (build core.head).prevDigest = some core.head)
    (content : ∀ e, keys.sign (Envelope.new (build core.head)) = .ok e → e.toSignedPortion ∈ W.contents) :
    ∃ v, core.storage.versions[core.head]? = some v ∧
      ((∃ err, core.signWrite keys build = (.error (.error err), core) ∧
          ∀ e d v', ¬ Lands keys v core.head (build core.head) e d v') ∨
        ∃ e d v' i core', Lands keys v core.head (build core.head) e d v' ∧
          core.signWrite keys build = (.ok (d, i), core') ∧ core'.head = d ∧ core'.chain.root = core.chain.root ∧
          core'.storage.versions[d]? = some v' ∧ Good W core'.chain core'.storage) := by
  obtain ⟨v, hv⟩ : ∃ v, core.storage.versions[core.head]? = some v := hgood.pathHeld _ hgood.tip.canonical
  refine ⟨v, hv, ?_⟩
  have hruled : Ruled v := (hgood.coherent.versions _ _ hv).2.ruled
  unfold Core.signWrite
  cases hsign : keys.sign (Envelope.new (build core.head)) with
  | error err =>
    refine .inl ⟨.wire err, rfl, fun e d v' h => ?_⟩
    have := h.signed
    rw [hsign] at this; cases this
  | ok e =>
    cases hd : e.digest with
    | error err =>
      refine .inl ⟨.wire err, ?_, fun e' d v' h => ?_⟩
      · simp only [Res.ofExcept_ok, Res.ok_bind, hd]
        rfl
      · have hsigned := h.signed
        rw [hsign] at hsigned; cases hsigned
        have hdigest := h.digest
        rw [hd] at hdigest; cases hdigest
    | ok d =>
      simp only [Res.ofExcept_ok, Res.ok_bind, hd]
      obtain ⟨-, -, hpayload, -⟩ := sign_eq_ok hsign
      have heprev : e.prev = some core.chain.head := by
        unfold Envelope.prev
        rw [hpayload]
        exact hprev
      have hone : ∀ e' ∈ [e], e'.toSignedPortion ∈ W.contents := by
        intro e' he'
        rw [List.mem_singleton.1 he']
        exact content e hsign
      rcases Chain.insertBatch_onto_head hgood (content e hsign) heprev with
        ⟨err, hins, hno⟩ | ⟨d', w, v', status, i, t, hd', hw, hacc, hins, hv', hgood'⟩
      · refine .inl ⟨err, ?_, fun e' d' v' h => ?_⟩
        · show ((core.insert [e]).1.map fun insert => (d, insert), (core.insert [e]).2) = _
          rw [Core.insert_eq hgood hone hins]
          rfl
        · have hsigned := h.signed
          rw [hsign] at hsigned; cases hsigned
          obtain ⟨status, hacc⟩ := (accepts_signed_iff hruled hprev hsign h.digest).2 ⟨h.alone, h.passes⟩
          exact hno d' v status v' h.digest hv hacc
      · rw [hd] at hd'; cases hd'
        have hsame : v = w := by
          have hv₁ : core.storage.versions[core.chain.head]? = some v := hv
          rw [hv₁] at hw
          exact Option.some.inj hw
        subst hsame
        obtain ⟨halone, hpasses⟩ := (accepts_signed_iff hruled hprev hsign hd).1 ⟨status, hacc⟩
        refine .inr ⟨e, d, v', i, { core with chain := ⟨core.chain.root, ⟨d⟩⟩, storage := t }, ⟨hsign, hd, halone, hpasses⟩, ?_,
          rfl, rfl, hv', hgood'⟩
        show ((core.insert [e]).1.map fun insert => (d, insert), (core.insert [e]).2) = _
        rw [Core.insert_eq hgood hone hins]
        rfl

end Write

end IrohLotus.Lotusd
