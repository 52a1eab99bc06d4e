/-
What a status in the log vouches for. Every envelope the log holds above the root is signed only by
keys its parent's state trusts, weighs what those keys weigh together, and meets the thresholds of
that state; and an envelope of which any of that is false is in no log, whatever status it came with.
-/
import IrohLotus.State.Replay

namespace IrohLotus.State

open Std Outcome Forest IrohLotus.Wire IrohLotus.Storage

variable [Externals]

/-! ## What a state asks of an envelope -/

/-- The keys a state trusts; none where it lists none. -/
def trustedIn (v : Version) : ExtTreeMap KeyId Key :=
  (v[trustedKeysKey]?.bind fun ns => (parseTrustedKeys ns.value).toOption).getD ∅

omit [Externals] in
/-- A threshold of a state; zero where it sets none. -/
def thresholdIn (v : Version) (key : NamespaceKey) : UInt32 := (v[key]?.bind fun ns => parseThreshold ns.value).getD 0

/-- The weights of the keys that signed, exactly summed. -/
def signersWeight (v : Version) (e : Envelope) : Nat :=
  (e.signatures.keys.map fun id => (trustedIn v)[id]?.elim 0 fun key : Key => key.weight.toNat).sum

/-- The state vouches for the envelope at the weight `w`. -/
structure Vouched (v : Version) (e : Envelope) (w : UInt32) : Prop where
  signers : ∀ (id : KeyId) (signature : Signature), e.signatures[id]? = some signature → ∃ key digest,
    (trustedIn v)[id]? = some key ∧ e.signatureDigest = .ok digest ∧ key.verify signature digest = true
  weight : w.toNat = min (2 ^ 32 - 1) (signersWeight v e)
  minWeight : thresholdIn v minEnvelopeWeightKey ≤ w
  minSigners : (thresholdIn v minEnvelopeSignaturesKey).toNat ≤ e.signatures.size

/-- The state the parent of an envelope folds to, over the version of the root. -/
def ParentState (chain : Chain) (s : MemStorage) (e : Envelope) (v : Version) : Prop :=
  ∃ rootState p es, s.versions[chain.root]? = some rootState ∧ e.prev = some p ∧ Path s chain.root es p ∧
    fold rootState es = some v

/-- Every envelope above the root has the status its parent's state vouches for, and none is in the log
that its parent's state does not vouch for. -/
structure Attested (contents : Set SignedPortion) (chain : Chain) (s : MemStorage) : Prop where
  stored : ∀ d e, s.envelope d = some e → d ≠ chain.root → ∃ v w, ParentState chain s e v ∧
    e.verificationStatus = .allMatched w ∧ Vouched v e w
  refused : ∀ d e v, e.toSignedPortion ∈ contents → e.digest = .ok d → ParentState chain s e v →
    (∀ w, ¬ Vouched v e w) → ¬ s.Stored d

/-! ## What verification and the thresholds check -/

section Checks

variable {s : MemStorage} {ledger : Ledger} {v : Version} {e : Envelope}

theorem trustedKeys_eq_ok {keys : ExtTreeMap KeyId Key} (hv : s.versions[ledger.head]? = some v)
    (h : ledger.trustedKeys s = .ok keys) : keys = trustedIn v := by
  unfold Ledger.trustedKeys at h
  rw [Ledger.nsAt_eq_ok hv, Res.ok_bind] at h
  unfold trustedIn
  cases hns : v[trustedKeysKey]? with
  | none =>
    rw [hns] at h
    cases h
    rfl
  | some ns =>
    rw [hns] at h
    simp only [Option.bind_some, Res.ofExcept_eq_ok h]
    rfl

omit [Externals] in
theorem threshold_eq_ok {key : NamespaceKey} {reason : ValueError} {required : UInt32}
    (hv : s.versions[ledger.head]? = some v) (h : ledger.threshold s key reason = .ok required) :
    required = thresholdIn v key := by
  unfold Ledger.threshold at h
  rw [Ledger.nsAt_eq_ok hv, Res.ok_bind] at h
  unfold thresholdIn
  cases hns : v[key]? with
  | none =>
    rw [hns] at h
    cases h
    rfl
  | some ns =>
    rw [hns] at h
    simp only [Option.bind_some, Res.okOr_eq_ok h]
    rfl

omit [Externals] in
/-- The sum that saturates is the least of the exact sum and the largest weight. -/
theorem signedWeight_toNat (keys : ExtTreeMap KeyId Key) (signatures : ExtTreeMap KeyId Signature) :
    (Ledger.signedWeight keys signatures).toNat =
      min (2 ^ 32 - 1) (signatures.keys.map fun id => keys[id]?.elim 0 fun key : Key => key.weight.toNat).sum := by
  have hsum : ∀ l : List KeyId, ((l.filterMap fun id => keys[id]?).map fun key => key.weight.toNat).sum =
      (l.map fun id => keys[id]?.elim 0 fun key : Key => key.weight.toNat).sum := by
    intro l
    induction l with
    | nil => rfl
    | cons id l ih =>
      cases hk : keys[id]? with
      | none => simp only [List.filterMap_cons, hk, List.map_cons, List.sum_cons, Option.elim_none, ih, Nat.zero_add]
      | some key => simp only [List.filterMap_cons, hk, List.map_cons, List.sum_cons, Option.elim_some, ih]
  unfold Ledger.signedWeight
  dsimp only
  rw [hsum]
  split
  · rename_i hlt
    rw [UInt32.toNat_ofNat', Nat.mod_eq_of_lt hlt]
    omega
  · rename_i hge
    have hmax : (2 ^ 32 - 1 : UInt32).toNat = 2 ^ 32 - 1 := by decide
    rw [hmax]
    omega

/-- A status other than a failure is the weight of keys that all verify. -/
theorem verifyEnvelope_eq_ok {status : VerificationStatus} (hv : s.versions[ledger.head]? = some v)
    (h : ledger.verifyEnvelope s e = .ok status) (hgood : ∀ ids, status ≠ .failed ids) :
    ∃ w, status = .allMatched w ∧ w.toNat = min (2 ^ 32 - 1) (signersWeight v e) ∧
      ∀ (id : KeyId) (signature : Signature), e.signatures[id]? = some signature → ∃ key digest,
        (trustedIn v)[id]? = some key ∧ e.signatureDigest = .ok digest ∧ key.verify signature digest = true := by
  unfold Ledger.verifyEnvelope at h
  obtain ⟨parent, -, h⟩ := Res.bind_eq_ok h
  dsimp only at h
  split at h
  · cases h
  · split at h
    · rename_i hempty
      cases h
      have hnone : e.signatures = ∅ := ExtTreeMap.isEmpty_iff.1 hempty
      refine ⟨0, rfl, ?_, fun id signature hid => ?_⟩
      · unfold signersWeight
        rw [hnone]
        rfl
      · rw [hnone] at hid
        simp at hid
    · obtain ⟨keys, hkeys, h⟩ := Res.bind_eq_ok h
      obtain ⟨digest, hdigest, h⟩ := Res.bind_eq_ok h
      obtain rfl := trustedKeys_eq_ok hv hkeys
      split at h
      · cases h
        exact absurd rfl (hgood _)
      · rename_i hfailing
        cases h
        refine ⟨_, rfl, signedWeight_toNat _ _, fun id signature hid => ?_⟩
        have hpass : (trustedIn v)[id]?.any (fun key => key.verify signature digest) = true := by
          by_contra hno
          refine hfailing ?_
          rw [Bool.not_eq_true', List.isEmpty_eq_false_iff]
          refine List.ne_nil_of_mem (a := (id, signature)) (List.mem_filter.2 ⟨?_, by simpa using hno⟩)
          exact ExtTreeMap.mem_toList_iff_getElem?_eq_some.2 hid
        obtain ⟨key, hkey, hverify⟩ := (Option.any_eq_true _ _).1 hpass
        exact ⟨key, digest, hkey, Res.ofExcept_eq_ok hdigest, hverify⟩

omit [Externals] in
/-- The thresholds an envelope passes are met by its weight and by the number of its signers. -/
theorem checkSigThresholds_eq_ok {w : UInt32} (hv : s.versions[ledger.head]? = some v)
    (hstatus : e.verificationStatus = .allMatched w) (h : ledger.checkSigThresholds s e = .ok ()) :
    thresholdIn v minEnvelopeWeightKey ≤ w ∧ (thresholdIn v minEnvelopeSignaturesKey).toNat ≤ e.signatures.size := by
  unfold Ledger.checkSigThresholds at h
  simp only [hstatus] at h
  obtain ⟨required, hrequired, h⟩ := Res.bind_eq_ok h
  obtain rfl := threshold_eq_ok hv hrequired
  split at h
  · cases h
  · rename_i hweight
    obtain ⟨required, hrequired, h⟩ := Res.bind_eq_ok h
    obtain rfl := threshold_eq_ok hv hrequired
    split at h
    · cases h
    · rename_i hsigners
      refine ⟨UInt32.not_lt.1 hweight, ?_⟩
      have hle := UInt32.le_iff_toNat_le.1 (UInt32.not_lt.1 hsigners)
      have hcount : e.verifiedSigners.toNat ≤ e.signatures.size := by
        unfold Envelope.verifiedSigners
        simp only [hstatus]
        split
        · rename_i hlt
          have hsize : e.signatures.size.toUInt32.toNat = e.signatures.size % 2 ^ 32 := UInt32.toNat_ofNat' ..
          rw [hsize]
          exact Nat.mod_le _ _
        · rename_i hge
          have hmax : (2 ^ 32 - 1 : UInt32).toNat = 2 ^ 32 - 1 := by decide
          rw [hmax]
          omega
      omega

end Checks

/-! ## Every log -/

/-- The state an envelope was accepted on vouches for it, at the weight of its status. -/
theorem Accepts.vouched {p d : EnvelopeDigest} {v v' : Version} {e : Envelope} (h : Accepts p v e d v') :
    ∃ w, e.verificationStatus = .allMatched w ∧ Vouched v e w := by
  obtain ⟨op, hc, -⟩ := h.checked
  obtain ⟨-, -, hthresholds, -, -⟩ := Ledger.checked_eq_ok hc
  have hgood : ∀ ids, e.verificationStatus ≠ .failed ids := by
    intro ids hfailed
    simp only [Ledger.checkSigThresholds, hfailed] at hthresholds
    cases hthresholds
  obtain ⟨w, hstatus, hweight, hsigners⟩ := verifyEnvelope_eq_ok (versions_only p v) h.verified hgood
  obtain ⟨hmin, hcount⟩ := checkSigThresholds_eq_ok (versions_only p v) hstatus hthresholds
  exact ⟨w, hstatus, hsigners, hweight, hmin, hcount⟩

/-- What a state vouches for does not depend on the status an envelope carries. -/
theorem Vouched.of_content {v : Version} {e e' : Envelope} {w : UInt32} (h : Vouched v e w)
    (hsame : e.toSignedPortion = e'.toSignedPortion) : Vouched v e' w := by
  obtain ⟨portion, status⟩ := e
  obtain ⟨portion', status'⟩ := e'
  obtain rfl : portion = portion' := hsame
  exact ⟨h.signers, h.weight, h.minWeight, h.minSigners⟩

theorem Good.attested_of_good {W : World} {chain : Chain} {s : MemStorage} (h : Good W chain s) :
    Attested W.contents chain s := by
  have hco := h.coherent
  obtain ⟨rootState, hroot⟩ := hco.base_held
  -- the parent's path folds to the state the envelope was accepted on
  have haccepted : ∀ d e, s.envelope d = some e → d ≠ chain.root →
      ∃ p v v', Accepts p v e d v' ∧ W.StateOf p v ∧ ParentState chain s e v := by
    intro d e he hne
    obtain ⟨p, v, v', hp, hv, hacc⟩ := hco.accepted d e he hne
    obtain ⟨es, hes⟩ := hco.exists_path hp
    obtain ⟨w, hfold, hw⟩ := hco.fold_path hroot hes
    obtain rfl := hw.unique hv
    exact ⟨p, w, v', hacc, hv, rootState, p, es, hroot, hacc.prev, hes, hfold⟩
  refine ⟨fun d e he hne => ?_, ?_⟩
  · obtain ⟨p, v, v', hacc, -, hparent⟩ := haccepted d e he hne
    obtain ⟨w, hstatus, hvouched⟩ := hacc.vouched
    exact ⟨v, w, hparent, hstatus, hvouched⟩
  · rintro d e v content hd ⟨rootState', p, es, hroot', hprev, hes, hfold⟩ hno ⟨e', he'⟩
    rw [hroot] at hroot'
    cases hroot'
    obtain ⟨content', hd'⟩ := hco.content d e' he'
    have hsame := W.laws.collisionFree _ content' _ content d hd' hd
    have hprev' : e'.prev = some p := by
      rw [← hprev]
      simp only [Envelope.prev, hsame]
    have hne : d ≠ chain.root := by
      rintro rfl
      exact hco.not_desc_base hes.stored (by rw [s.parent_of_envelope he']; exact hprev')
    obtain ⟨q, w, v', hacc, hw, -⟩ := haccepted d e' he' hne
    obtain rfl : q = p := Option.some.inj (hacc.prev.symm.trans hprev')
    obtain ⟨w', hfold', hw'⟩ := hco.fold_path hroot hes
    rw [hfold] at hfold'
    cases hfold'
    obtain rfl := hw'.unique hw
    obtain ⟨weight, -, hvouched⟩ := hacc.vouched
    exact hno weight (hvouched.of_content hsame)

/-- In every state of a run in which no `compact` names what the root's own `prev` names, the log holds
what its parents' states vouch for and nothing else. -/
theorem Reachable.attested {contents : Set SignedPortion} (laws : DigestLaws contents) {chain : Chain} {s : MemStorage}
    (h : Reachable contents chain s) : Attested contents chain s := by
  obtain ⟨W, rfl, hg⟩ := h.good laws
  exact hg.attested_of_good

end IrohLotus.State

/-! ## The samples -/

namespace IrohLotus.State

open Std Outcome Forest IrohLotus.Wire IrohLotus.Wire.Sample IrohLotus.Storage

theorem attested_compactedStore :
    Reachable Sample.contents ⟨firstDigest, ⟨secondDigest⟩⟩ compactedStore ∧
      Attested Sample.contents ⟨firstDigest, ⟨secondDigest⟩⟩ compactedStore :=
  ⟨reachable_compactedStore, Reachable.attested sample_laws reachable_compactedStore⟩

/-- After a `compact` at the digest the root's `prev` names, the adopted envelope is above the root
with the status it came with. -/
theorem not_attested_below_root :
    Chain.adopt first ⟨∅⟩ (MemStorage.empty 0) = (.ok ⟨firstDigest, ⟨firstDigest⟩⟩, adoptedStore) ∧
      (Chain.mk firstDigest ⟨firstDigest⟩).compact genesisDigest adoptedStore =
        (.ok 0, ⟨genesisDigest, ⟨firstDigest⟩⟩, adoptedStore) ∧
      ¬ Attested Sample.contents ⟨genesisDigest, ⟨firstDigest⟩⟩ adoptedStore := by
  refine ⟨by decide +kernel, by decide +kernel, fun h => ?_⟩
  have hstored : adoptedStore.envelope firstDigest = some first := by decide +kernel
  have hne : firstDigest ≠ genesisDigest := by decide
  obtain ⟨v, w, -, hstatus, -⟩ := h.stored firstDigest first hstored hne
  cases hstatus

end IrohLotus.State
