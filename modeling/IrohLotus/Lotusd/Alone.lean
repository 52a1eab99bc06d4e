/-
Whether a node's own signature is enough. `Core::signs_alone` weighs the node's key without asking
whether it is trusted at all: a key the ledger does not trust weighs nothing, which a ledger with no
floor lets pass, and no envelope it signs is accepted.
-/
import IrohLotus.Lotusd.Advertise
import IrohLotus.Lotusd.Invites
import IrohLotus.Lotusd.Partway

namespace IrohLotus.Lotusd

open Std Outcome Forest IrohLotus.Wire IrohLotus.Storage IrohLotus.State

variable [Externals]

/-- An envelope passes verification and the signature thresholds on the state `v`. -/
def PassesOn (v : Version) (e : Envelope) : Prop :=
  ∃ p status, e.prev = some p ∧ (Ledger.mk p).verifyEnvelope (only p v) e = .ok status ∧
    (Ledger.mk p).checkSigThresholds (only p v) (e.setVerificationStatus status) = .ok ()

/-- `msg`, signed by this node's key alone, passes both at the core's head. -/
def Core.PassesAlone (core : Core) (keys : NodeKeys) (msg : Msg) : Prop :=
  ∃ e status, keys.sign (Envelope.new msg) = .ok e ∧ core.chain.ledger.verifyEnvelope core.storage e = .ok status ∧
    core.chain.ledger.checkSigThresholds core.storage (e.setVerificationStatus status) = .ok ()

/-- What the node relies on of its key: its signatures verify under it, and no other key has its id. -/
structure Genuine (keys : NodeKeys) : Prop where
  verifies : ∀ msg digest, (Envelope.new msg).signatureDigest = .ok digest →
    (newKey keys.publicKey 0).verify (.ed25519 (keys.signingKey digest)) digest = true
  own : ∀ publicKey : PublicKey, publicKey.id = keys.keyId → publicKey = keys.publicKey

section Weighing

variable {core : Core} {keys : NodeKeys} {v : Version} {p : EnvelopeDigest} {msg : Msg} {digest : EnvelopeSignatureDigest}

omit [Externals] in
/-- What a map collected from a list holds is in the list. -/
theorem mem_of_getElem?_ofList {l : List (KeyId × Key)} {id : KeyId} {key : Key} (h : (ExtTreeMap.ofList l)[id]? = some key) :
    (id, key) ∈ l := by
  rw [ExtTreeMap.ofList_eq_insertMany_empty, ExtTreeMap.getElem?_insertMany_list, ExtTreeMap.getElem?_empty, Option.or_none,
    List.findSomeRev?_eq_findSome?_reverse] at h
  obtain ⟨⟨id', key'⟩, hmem, hfound⟩ := List.exists_of_findSome?_eq_some h
  dsimp only at hfound
  split at hfound
  · rename_i heq
    cases hfound
    rw [← LawfulEqCmp.eq_of_compare heq]
    exact List.mem_reverse.1 hmem
  · cases hfound

/-- A trusted key is filed under its own id. -/
theorem id_of_trustedIn {id : KeyId} {key : Key} (h : (trustedIn v)[id]? = some key) : key.id = id := by
  unfold trustedIn at h
  cases hparsed : (v[trustedKeysKey]?.bind fun ns => (parseTrustedKeys ns.value).toOption) with
  | none =>
    rw [hparsed] at h
    simp at h
  | some keys =>
    rw [hparsed, Option.getD_some] at h
    obtain ⟨⟨value⟩, -, hparsed⟩ := Option.bind_eq_some_iff.1 hparsed
    cases value with
    | map entries =>
      cases hcollected : entries.mapM parseTrustedKey with
      | error e => simp [parseTrustedKeys, hcollected, Except.toOption] at hparsed
      | ok collected =>
        obtain rfl : ExtTreeMap.ofList collected = keys := by
          simpa [parseTrustedKeys, hcollected, Except.toOption] using hparsed
        obtain ⟨⟨name, value⟩, -, hkey⟩ := (except_mapM_mem hcollected).1 (mem_of_getElem?_ofList h)
        cases value with
        | key filed =>
          unfold parseTrustedKey at hkey
          dsimp only at hkey
          split at hkey
          · cases hkey
            rfl
          · cases hkey
        | _ => cases hkey
    | _ => cases hparsed

/-- What the answer weighs. -/
theorem signsAlone_iff (hv : core.storage.versions[core.head]? = some v) (hr : Ruled v) {id : KeyId} :
    core.signsAlone id = .ok (.ok ()) ↔ thresholdIn v minEnvelopeWeightKey ≤ (trustedIn v)[id]?.elim 0 Key.weight ∧
      thresholdIn v minEnvelopeSignaturesKey ≤ 1 := by
  have hhead : core.storage.versions[core.chain.ledger.head]? = some v := hv
  obtain ⟨trusted, htrusted⟩ := Ledger.trustedKeys_of_ruled hhead hr
  obtain ⟨minWeight, hminWeight⟩ := Ledger.threshold_of_ruled hhead hr Ledger.rule_minEnvelopeWeightKey
  obtain ⟨minSignatures, hminSignatures⟩ := Ledger.threshold_of_ruled hhead hr Ledger.rule_minEnvelopeSignaturesKey
  obtain rfl := trustedKeys_eq_ok hhead htrusted
  obtain rfl := threshold_eq_ok hhead hminWeight
  obtain rfl := threshold_eq_ok hhead hminSignatures
  unfold Core.signsAlone Ledger.minEnvelopeWeight Ledger.minEnvelopeSignatures
  simp only [htrusted, hminWeight, hminSignatures, Res.mapErr, Res.ok_bind]
  constructor
  · intro h
    split at h
    · cases h
    · rename_i hweight
      split at h
      · cases h
      · rename_i hcount
        exact ⟨UInt32.not_lt.1 hweight, UInt32.not_lt.1 hcount⟩
  · rintro ⟨hweight, hcount⟩
    rw [if_neg (UInt32.not_lt.2 hweight), if_neg (UInt32.not_lt.2 hcount)]
    rfl

/-- An envelope this node signed passes on a state exactly when its own signature is all that asks. -/
theorem passesOn_iff (hr : Ruled v) (hp : msg.prevDigest = some p) {e : Envelope}
    (hs : keys.sign (Envelope.new msg) = .ok e) : PassesOn v e ↔ SignsAlone keys v msg := by
  obtain ⟨digest, hdigest, hpayload, hsig, hsigned⟩ := sign_eq_ok hs
  have hprev : e.prev = some p := by
    unfold Envelope.prev
    rw [hpayload]
    exact hp
  have hverify := verifyEnvelope_single hr hsig hprev hsigned
  have hchecked := @checkSigThresholds_single _ v p
    (e.setVerificationStatus (singleStatus v keys.keyId (.ed25519 (keys.signingKey digest)) digest)) _ _ digest hr hsig rfl
  constructor
  · rintro ⟨p', status, hp', hver, hthresholds⟩
    rw [hprev] at hp'
    cases hp'
    rw [hverify] at hver
    cases hver
    exact ⟨digest, hdigest, hchecked.1 hthresholds⟩
  · rintro ⟨digest', hdigest', hcarries⟩
    rw [hdigest] at hdigest'
    cases hdigest'
    exact ⟨p, _, hprev, hverify, hchecked.2 hcarries⟩

/-- At the head that is what the ledger checks. -/
theorem passesAlone_iff (hv : core.storage.versions[core.head]? = some v) (hr : Ruled v)
    (hp : msg.prevDigest = some core.head) : core.PassesAlone keys msg ↔ SignsAlone keys v msg := by
  have hsame : core.storage.versions[core.chain.ledger.head]? = (only core.head v).versions[core.chain.ledger.head]? :=
    (show _ = some v from hv).trans (versions_only core.head v).symm
  unfold Core.PassesAlone
  simp only [Ledger.verifyEnvelope_congr hsame, Ledger.checkSigThresholds_congr hsame]
  constructor
  · rintro ⟨e, status, hs, hver, hthresholds⟩
    have hprev : e.prev = some core.head := by
      obtain ⟨-, -, hpayload, -⟩ := sign_eq_ok hs
      unfold Envelope.prev
      rw [hpayload]
      exact hp
    exact (passesOn_iff hr hp hs).1 ⟨core.head, status, hprev, hver, hthresholds⟩
  · intro halone
    obtain ⟨digest, hdigest, hcarries⟩ := halone
    have hs : keys.sign (Envelope.new msg) =
        .ok (withSignature (Envelope.new msg) keys.keyId (.ed25519 (keys.signingKey digest))) := by
      unfold NodeKeys.sign
      rw [hdigest]
      rfl
    obtain ⟨p, status, hprev, hver, hthresholds⟩ := (passesOn_iff hr hp hs).2 ⟨digest, hdigest, hcarries⟩
    obtain rfl : core.head = p := Option.some.inj (hp.symm.trans hprev)
    exact ⟨_, status, hs, hver, hthresholds⟩

/-- A genuine key carries what it signs exactly where it is trusted with the weight that is asked. -/
theorem signsAlone_genuine_iff (genuine : Genuine keys) (hd : (Envelope.new msg).signatureDigest = .ok digest) :
    SignsAlone keys v msg ↔ (∃ key, (trustedIn v)[keys.keyId]? = some key ∧
      thresholdIn v minEnvelopeWeightKey ≤ key.weight) ∧ thresholdIn v minEnvelopeSignaturesKey ≤ 1 := by
  constructor
  · rintro ⟨_, _, hcarries⟩
    obtain ⟨key, hkey, -, hweight⟩ := hcarries.key
    exact ⟨⟨key, hkey, hweight⟩, hcarries.signers⟩
  · rintro ⟨⟨key, hkey, hweight⟩, hsigners⟩
    have hown : key.publicKey = keys.publicKey := genuine.own _ (id_of_trustedIn hkey)
    have hverify : key.verify (.ed25519 (keys.signingKey digest)) digest = true := by
      have hnew := genuine.verifies msg digest hd
      unfold Key.verify at hnew ⊢
      rw [hown]
      exact hnew
    exact ⟨digest, hd, ⟨key, hkey, hverify, hweight⟩, hsigners⟩

end Weighing

/-! ## What it promises -/

/-- `signs_alone` predicts for `msg` what the ledger makes of it, so that an invite is issued, and an
advertisement built, only where this node's signature carries it. -/
structure Predicts [AddrText] [Encoding] [DecidableEq Externals.EndpointId] [DecidableEq TransportAddr] (core : Core)
    (keys : NodeKeys) (v : Version) (msg : Msg) : Prop where
  answers : core.signsAlone keys.keyId = .ok (.ok ()) ↔ core.PassesAlone keys msg
  invites : ∀ (σ : Sponsor) (Endpoint : Type) (limit : Nat) (endpoint : Option Endpoint) (drawn : Option Token) (weight : UInt32)
    (ttl : Nat) (invite : Invite), σ.core = core →
      (σ.createInvite limit endpoint keys.keyId drawn weight ttl).1 = .ok invite → core.PassesAlone keys msg
  builds : ∀ addr batch, core.advertiseRun keys addr = .ok (.inr batch) → ∀ e ∈ batch, PassesOn v e

theorem signsAlone_of_createInvite {Endpoint : Type} {σ : Sponsor} {limit ttl : Nat} {endpoint : Option Endpoint}
    {keyId : KeyId} {drawn : Option Token} {weight : UInt32} {invite : Invite}
    (h : (σ.createInvite limit endpoint keyId drawn weight ttl).1 = .ok invite) : σ.core.signsAlone keyId = .ok (.ok ()) := by
  have hprint : σ.printInvite endpoint keyId drawn = .ok invite := by
    unfold Sponsor.createInvite at h
    dsimp only at h
    split at h
    · cases h
    · rename_i hprint
      cases h
      exact hprint
  unfold Sponsor.printInvite at hprint
  obtain ⟨_, -, hprint⟩ := Res.bind_eq_ok hprint
  obtain ⟨alone, halone, hprint⟩ := Res.bind_eq_ok hprint
  obtain ⟨⟨⟩, hok, -⟩ := Res.bind_eq_ok hprint
  rw [Res.mapErr_eq_ok halone, Res.ofExcept_eq_ok hok]

/-- The answer is right exactly where this node's key is trusted, or the state asks for some weight or
for a second signature: a key the state does not trust weighs nothing, and asked for nothing it seems
enough. -/
theorem Core.signsAlone_predicts_iff [AddrText] [Encoding] [DecidableEq Externals.EndpointId] [DecidableEq TransportAddr]
    {contents : Set SignedPortion} (laws : DigestLaws contents) {core : Core}
    (reachable : Reachable contents core.chain core.storage) {keys : NodeKeys} (genuine : Genuine keys) :
    ∃ v, core.storage.versions[core.head]? = some v ∧ ∀ msg digest, msg.prevDigest = some core.head →
      (Envelope.new msg).signatureDigest = .ok digest →
        (Predicts core keys v msg ↔ (∃ key, (trustedIn v)[keys.keyId]? = some key) ∨
          0 < thresholdIn v minEnvelopeWeightKey ∨ 1 < thresholdIn v minEnvelopeSignaturesKey) := by
  obtain ⟨W, rfl, hgood⟩ := reachable.good laws
  obtain ⟨v, hv⟩ : ∃ v, core.storage.versions[core.head]? = some v := hgood.pathHeld _ hgood.tip.canonical
  have hruled : Ruled v := (hgood.coherent.versions _ _ hv).2.ruled
  refine ⟨v, hv, fun msg digest hprev hdigest => ?_⟩
  have halone := @signsAlone_iff _ _ _ hv hruled keys.keyId
  have hpasses := @passesAlone_iff _ _ keys _ _ hv hruled hprev
  rw [signsAlone_genuine_iff genuine hdigest] at hpasses
  constructor
  · intro h
    by_contra hcond
    rw [not_or, not_or] at hcond
    obtain ⟨huntrusted, hweight, hsigners⟩ := hcond
    have hnone : (trustedIn v)[keys.keyId]? = none := by
      cases hkey : (trustedIn v)[keys.keyId]? with
      | none => rfl
      | some key => exact absurd ⟨key, hkey⟩ huntrusted
    have hanswer : core.signsAlone keys.keyId = .ok (.ok ()) := by
      refine halone.2 ⟨?_, UInt32.not_lt.1 hsigners⟩
      rw [hnone]
      exact UInt32.not_lt.1 hweight
    obtain ⟨⟨key, hkey, -⟩, -⟩ := hpasses.1 (h.answers.1 hanswer)
    exact huntrusted ⟨key, hkey⟩
  · intro hcond
    have hcarried : core.signsAlone keys.keyId = .ok (.ok ()) → (∃ key, (trustedIn v)[keys.keyId]? = some key ∧
        thresholdIn v minEnvelopeWeightKey ≤ key.weight) ∧ thresholdIn v minEnvelopeSignaturesKey ≤ 1 := by
      intro hanswer
      obtain ⟨hweight, hsigners⟩ := halone.1 hanswer
      refine ⟨?_, hsigners⟩
      cases hkey : (trustedIn v)[keys.keyId]? with
      | some key =>
        rw [hkey] at hweight
        exact ⟨key, rfl, hweight⟩
      | none =>
        rw [hkey] at hweight
        rcases hcond with ⟨key, hsome⟩ | hfloor | hmany
        · rw [hkey] at hsome
          cases hsome
        · exact absurd hfloor (UInt32.not_lt.2 hweight)
        · exact absurd hmany (UInt32.not_lt.2 hsigners)
    refine ⟨⟨fun hanswer => hpasses.2 (hcarried hanswer), fun hpass => ?_⟩, ?_, ?_⟩
    · obtain ⟨⟨key, hkey, hweight⟩, hsigners⟩ := hpasses.1 hpass
      refine halone.2 ⟨?_, hsigners⟩
      rw [hkey]
      exact hweight
    · rintro σ Endpoint limit endpoint drawn weight ttl invite rfl hinvite
      exact hpasses.2 (hcarried (signsAlone_of_createInvite hinvite))
    · intro addr batch hrun e he
      obtain ⟨-, -, -, -, -, -, hanswer, hbatch⟩ := advertiseRun_eq_built hrun
      obtain ⟨u, us, hsigned, -⟩ := advertiseBatch_cases hbatch
      obtain ⟨p, u', hs⟩ := signed_of_signUpdates hsigned e he
      have hp : (keys.advertiseMsg p u').prevDigest = some p := by cases u' <;> rfl
      obtain ⟨digest', hdigest', -⟩ := sign_eq_ok hs
      exact (passesOn_iff hruled hp hs).2 ((signsAlone_genuine_iff genuine hdigest').2 (hcarried hanswer))

end IrohLotus.Lotusd

/-! ## The samples -/

namespace IrohLotus.Lotusd

open Std Outcome IrohLotus.Wire IrohLotus.Wire.Founded IrohLotus.Storage IrohLotus.State

theorem genuine_founderKeys : Genuine founderKeys where
  verifies msg digest h := by
    have hrows : ∀ row ∈ table, row.1.signatures.isEmpty = true →
        (newKey founderKey 0).verify (.ed25519 (founderKeys.signingKey ⟨row.2⟩)) ⟨row.2⟩ = true := by
      decide +kernel
    have hnew : Externals.hash (Envelope.new msg).toSignedPortion = .ok digest.hash := by
      unfold Envelope.signatureDigest at h
      cases hhash : Externals.hash { (Envelope.new msg).toSignedPortion with signatures := ∅ } with
      | error e => rw [hhash] at h; cases h
      | ok hash => rw [hhash] at h; cases h; exact hhash
    have hdigest : (Envelope.new msg).toSignedPortion.digest = .ok ⟨digest.hash⟩ := by
      unfold SignedPortion.digest
      rw [hnew]
      rfl
    exact hrows _ (founded_mem hdigest) (by simp [Envelope.new])
  own publicKey h := by
    have hhash : (if publicKey = founderKey then founderId.hash else if publicKey = joinerKey then joinerId.hash else 0) =
        founderId.hash := congrArg KeyId.hash h
    by_contra hne
    have hne : ¬ publicKey = founderKey := hne
    rw [if_neg hne] at hhash
    split at hhash
    · revert hhash
      decide
    · revert hhash
      decide

/-- The message that trusts the joiner's key on the genesis. -/
def trustJoiner : Msg := trusting (newKey joinerKey 1) foundedDigest

theorem digest_trustJoiner : (Envelope.new trustJoiner).signatureDigest =
    .ok ⟨0xea45515730d9b427ce8f7113ed08568e4b71929acbeb542dd6200e33876b3789⟩ := by
  decide +kernel

theorem predicts_founder : Predicts foundedCore founderKeys foundedState trustJoiner := by
  obtain ⟨v, hv, hiff⟩ := Core.signsAlone_predicts_iff founded_laws reachable_foundedCore genuine_founderKeys
  rw [versions_foundedCore] at hv
  cases hv
  have htrusted : (trustedIn foundedState)[founderKeys.keyId]? = some (newKey founderKey 2) := by decide +kernel
  exact (hiff trustJoiner _ rfl digest_trustJoiner).2 (.inl ⟨_, htrusted⟩)

/-- The joiner's node, on a chain that does not trust it. -/
def joinerSponsor : Sponsor := ⟨foundedCore, [], 0, [], []⟩

/-- A node the ledger does not trust answers that it signs alone, and is issued an invite; what it signs
passes every check but that of its signature. -/
theorem not_predicts_joiner : Reachable Set.univ foundedCore.chain foundedCore.storage ∧
    foundedCore.signsAlone joinerKeys.keyId = .ok (.ok ()) ∧
    (∃ invite, (joinerSponsor.createInvite 1000 (some ()) joinerKeys.keyId (some ⟨7⟩) 1 60).1 = .ok invite) ∧
    (∃ v', Passes foundedState foundedDigest trustJoiner v') ∧ ¬ foundedCore.PassesAlone joinerKeys trustJoiner := by
  obtain ⟨W, hW, hgood⟩ := reachable_foundedCore.good founded_laws
  have hruled : Ruled foundedState := (hgood.coherent.versions _ _ versions_foundedCore).2.ruled
  have halone : foundedCore.signsAlone joinerKeys.keyId = .ok (.ok ()) := by
    have hanswer : (foundedCore.signsAlone joinerKeys.keyId).toOption.bind Except.toOption = some () := by decide +kernel
    obtain ⟨answer, hok, hunit⟩ := Option.bind_eq_some_iff.1 hanswer
    rw [except_of_toOption_some hok, except_of_toOption_some hunit]
  have hissued : (joinerSponsor.createInvite 1000 (some ()) joinerKeys.keyId (some ⟨7⟩) 1 60).1.toOption.isSome = true := by
    decide +kernel
  have hentries : foundedState[trustedKeysKey]? = some ⟨.map [(founderName, .key ⟨founderKey, 2, ∅⟩)]⟩ := by decide +kernel
  refine ⟨reachable_foundedCore, halone, ?_, ?_, ?_⟩
  · obtain ⟨invite, hinvite⟩ := Option.isSome_iff_exists.1 hissued
    exact ⟨invite, except_of_toOption_some hinvite⟩
  · exact ⟨_, passes_setEntry_iff.2 ⟨_, hentries, rule_withKey hruled hentries, rfl⟩⟩
  · rw [passesAlone_iff versions_foundedCore hruled rfl]
    rintro ⟨digest, -, hcarries⟩
    obtain ⟨key, hkey, -⟩ := hcarries.key
    have huntrusted : (trustedIn foundedState)[joinerKeys.keyId]? = none := by decide +kernel
    rw [huntrusted] at hkey
    cases hkey

end IrohLotus.Lotusd
