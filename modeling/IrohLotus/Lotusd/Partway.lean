/-
An admission that fails part-way. The trusting write and the listing write are judged one after the
other, so where the first goes in and the second is refused the ledger keeps the key of a node that
was never listed.
-/
import IrohLotus.Lotusd.Signing

namespace IrohLotus.Lotusd

open Std Outcome Forest IrohLotus.Wire IrohLotus.Storage IrohLotus.State

variable [Externals]

/-! ## The two writes -/

/-- The message of an admission that trusts the key. -/
def trusting (key : Key) : EnvelopeDigest → Msg := Core.setEntry trustedKeysKey (Externals.keyIdToHex key.id) (.key key)

/-- The message that lists the address. -/
def listingOf [AddrText] (key : Key) (addr : EndpointAddr) : EnvelopeDigest → Msg :=
  Core.setEntry clusterNodesKey (Externals.keyIdToHex key.id) (Core.listing addr)

/-- A state with the key put among the ones it trusts, where these are a map. -/
def withKey (v : Version) (key : Key) : Version :=
  match v[trustedKeysKey]? with
  | some ⟨.map entries⟩ => v.insert trustedKeysKey ⟨.map (Entries.insert entries (Externals.keyIdToHex key.id) (.key key))⟩
  | _ => v

/-- The trusting write goes in on the state `v` of `p`, with the digest `d`. -/
structure Trusts (keys : NodeKeys) (v : Version) (p : EnvelopeDigest) (key : Key) (d : EnvelopeDigest) : Prop where
  encodes : ∃ e, keys.sign (Envelope.new (trusting key p)) = .ok e ∧ e.digest = .ok d
  alone : SignsAlone keys v (trusting key p)
  keysMap : ∃ entries, v[trustedKeysKey]? = some ⟨.map entries⟩

/-- What the listing write after it asks of the state before both: the nodes are a map, the listing
reads back under the id of the key, and with the key put in the sponsor's signature is still enough. -/
structure Lists [AddrText] (keys : NodeKeys) (v : Version) (key : Key) (addr : EndpointAddr) (d : EnvelopeDigest) : Prop where
  encodes : ∃ e d', keys.sign (Envelope.new (listingOf key addr d)) = .ok e ∧ e.digest = .ok d'
  alone : SignsAlone keys (withKey v key) (listingOf key addr d)
  nodesMap : ∃ entries, v[clusterNodesKey]? = some ⟨.map entries⟩
  readsBack : ∃ node, parseClusterNode (Externals.keyIdToHex key.id, Core.listing addr) = .ok node

section Writes

variable {keys : NodeKeys} {v v' : Version} {p d : EnvelopeDigest} {key : Key} {e : Envelope}

omit [Externals] in
theorem ok_of_map_mapError {α ε ε' : Type} {r : Except ε α} {f : ε → ε'} :
    (r.map fun _ => ()).mapError f = .ok () ↔ ∃ a, r = .ok a := by
  cases r with
  | error err => exact ⟨nofun, nofun⟩
  | ok a => exact ⟨fun _ => ⟨a, rfl⟩, fun _ => rfl⟩

/-- A key put in under its own id keeps the rule of the trusted keys. -/
theorem rule_withKey {entries : Entries Value} (hr : Ruled v) (hns : v[trustedKeysKey]? = some ⟨.map entries⟩) :
    ∀ r, rule trustedKeysKey = some r →
      r (.map (Entries.insert entries (Externals.keyIdToHex key.id) (.key key))) = .ok () := by
  intro r hrule
  have hbefore := hr _ _ hns r hrule
  rw [Ledger.rule_trustedKeysKey] at hrule
  cases hrule
  obtain ⟨parsed, hparsed⟩ := ok_of_map_mapError.1 hbefore
  obtain ⟨keys, hkeys, -⟩ := except_bind_eq_ok hparsed
  have hall := except_mapM_isOk.1 ⟨keys, hkeys⟩
  refine ok_of_map_mapError.2 ?_
  have hinserted : ∀ e ∈ Entries.insert entries (Externals.keyIdToHex key.id) (.key key), ∃ b, parseTrustedKey e = .ok b := by
    intro e he
    rcases Entries.mem_insert he with rfl | he
    · exact ⟨(key.id, key), by simp only [parseTrustedKey, if_true]; rfl⟩
    · exact hall e he
  obtain ⟨keys', hkeys'⟩ := except_mapM_isOk.2 hinserted
  exact ⟨ExtTreeMap.ofList keys', by unfold parseTrustedKeys; simp only [hkeys']; rfl⟩

/-- A listing put in keeps the rule of the cluster nodes exactly where it reads back. -/
theorem rule_listed_iff {entries : Entries Value} (hr : Ruled v) (hns : v[clusterNodesKey]? = some ⟨.map entries⟩) {id : String}
    {value : Value} : (∀ r, rule clusterNodesKey = some r → r (.map (Entries.insert entries id value)) = .ok ()) ↔
      ∃ node, parseClusterNode (id, value) = .ok node := by
  rw [Ledger.rule_clusterNodesKey]
  simp only [Option.some.injEq, forall_eq']
  rw [ok_of_map_mapError]
  constructor
  · rintro ⟨parsed, hparsed⟩
    obtain ⟨nodes, hnodes, -⟩ := except_bind_eq_ok hparsed
    exact except_mapM_isOk.1 ⟨nodes, hnodes⟩ _ (Entries.mem_insert_self entries id value)
  · rintro hnode
    obtain ⟨parsed, hparsed⟩ := ok_of_map_mapError.1 (hr _ _ hns _ Ledger.rule_clusterNodesKey)
    obtain ⟨nodes, hnodes, -⟩ := except_bind_eq_ok hparsed
    have hinserted : ∀ e ∈ Entries.insert entries id value, ∃ b, parseClusterNode e = .ok b := by
      intro e he
      rcases Entries.mem_insert he with rfl | he
      · exact hnode
      · exact except_mapM_isOk.1 ⟨nodes, hnodes⟩ e he
    obtain ⟨nodes', hnodes'⟩ := except_mapM_isOk.2 hinserted
    exact ⟨ExtTreeMap.ofList nodes', by unfold parseClusterNodes; simp only [hnodes']; rfl⟩

theorem withKey_eq {entries : Entries Value} (hns : v[trustedKeysKey]? = some ⟨.map entries⟩) :
    withKey v key = v.insert trustedKeysKey ⟨.map (Entries.insert entries (Externals.keyIdToHex key.id) (.key key))⟩ := by
  unfold withKey
  rw [hns]

theorem withKey_nodes : (withKey v key)[clusterNodesKey]? = v[clusterNodesKey]? := by
  have hne : trustedKeysKey ≠ clusterNodesKey := by decide
  unfold withKey
  split
  · exact Ledger.getElem?_insert_of_ne hne _ _
  · rfl

/-- The trusting write goes in exactly where it can, and makes the state with the key. -/
theorem lands_trusting_iff (hr : Ruled v) :
    (∃ e, Lands keys v p (trusting key p) e d v') ↔ Trusts keys v p key d ∧ v' = withKey v key := by
  constructor
  · rintro ⟨e, hlands⟩
    obtain ⟨entries, hns, -, rfl⟩ := passes_setEntry_iff.1 hlands.passes
    exact ⟨⟨⟨e, hlands.signed, hlands.digest⟩, hlands.alone, entries, hns⟩, (withKey_eq hns).symm⟩
  · rintro ⟨htrusts, rfl⟩
    obtain ⟨e, hsigned, hdigest⟩ := htrusts.encodes
    obtain ⟨entries, hns⟩ := htrusts.keysMap
    exact ⟨e, hsigned, hdigest, htrusts.alone, passes_setEntry_iff.2 ⟨entries, hns, rule_withKey hr hns, withKey_eq hns⟩⟩

/-- The listing write after it goes in exactly where it can. -/
theorem lands_listing_iff [AddrText] {addr : EndpointAddr} (hr : Ruled (withKey v key)) :
    (∃ e d' v', Lands keys (withKey v key) d (listingOf key addr d) e d' v') ↔ Lists keys v key addr d := by
  constructor
  · rintro ⟨e, d', v', hlands⟩
    obtain ⟨entries, hns, hrule, rfl⟩ := passes_setEntry_iff.1 hlands.passes
    have hnode := (rule_listed_iff hr hns).1 hrule
    rw [withKey_nodes] at hns
    exact ⟨⟨e, d', hlands.signed, hlands.digest⟩, hlands.alone, ⟨entries, hns⟩, hnode⟩
  · intro h
    obtain ⟨e, d', hsigned, hdigest⟩ := h.encodes
    obtain ⟨entries, hns⟩ := h.nodesMap
    rw [← @withKey_nodes _ v key] at hns
    exact ⟨e, d', _, hsigned, hdigest, h.alone,
      passes_setEntry_iff.2 ⟨entries, hns, (rule_listed_iff hr hns).2 h.readsBack, rfl⟩⟩

end Writes

/-! ## All or nothing -/

/-- The head, the trusted keys and the cluster nodes at it are what they were. -/
structure Untouched (before after : Core) : Prop where
  head : after.head = before.head
  states : ∃ v w, before.storage.versions[before.head]? = some v ∧ after.storage.versions[after.head]? = some w ∧
    trustedIn w = trustedIn v ∧ w[clusterNodesKey]? = v[clusterNodesKey]?

/-- A failed admission leaves nothing exactly where a trusting write that goes in is followed by a
listing write that does. -/
theorem Core.admit_atomic_iff [AddrText] {contents : Set SignedPortion} (laws : DigestLaws contents) {core : Core}
    (reachable : Reachable contents core.chain core.storage) {keys : NodeKeys} {key : Key} {addr : EndpointAddr}
    (content : ∀ e, keys.sign (Envelope.new (trusting key core.head)) = .ok e → e.toSignedPortion ∈ contents ∧
      ∀ d e', e.digest = .ok d → keys.sign (Envelope.new (listingOf key addr d)) = .ok e' → e'.toSignedPortion ∈ contents) :
    ∃ before, core.storage.versions[core.head]? = some before ∧
      ((∀ halt core', core.admit keys key addr = (.error halt, core') → Untouched core core') ↔
        ∀ d, Trusts keys before core.head key d → Lists keys before key addr d) := by
  obtain ⟨W, rfl, hgood⟩ := reachable.good laws
  obtain ⟨v, hv, hwrite⟩ := Core.signWrite_cases hgood (trusting key) rfl fun e he => (content e he).1
  have hruled : Ruled v := (hgood.coherent.versions _ _ hv).2.ruled
  refine ⟨v, hv, ?_⟩
  have hrefuses : ∀ {halt core₁}, core.signWrite keys (trusting key) = (.error halt, core₁) →
      core.admit keys key addr = (.error halt, core₁) := by
    intro halt core₁ hrun
    unfold Core.admit
    simp only [trusting] at hrun
    simp only [hrun]
  have htrusted : ∀ {p core₁}, core.signWrite keys (trusting key) = (.ok p, core₁) →
      core.admit keys key addr = ((core₁.signWrite keys (listingOf key addr)).1.map Prod.fst,
        (core₁.signWrite keys (listingOf key addr)).2) := by
    intro p core₁ hrun
    unfold Core.admit
    simp only [trusting] at hrun
    simp only [hrun]
    rfl
  rcases hwrite with ⟨err, hrun, hno⟩ | ⟨e, d, v', i, core₁, hlands, hrun, hhead, hroot, hv', hgood₁⟩
  · have hcall := hrefuses hrun
    refine ⟨fun _ d htrusts => ?_, fun _ halt core' hfailed => ?_⟩
    · obtain ⟨e, hlands⟩ := (lands_trusting_iff hruled).2 ⟨htrusts, rfl⟩
      exact absurd hlands (hno e d _)
    · rw [hcall] at hfailed
      cases hfailed
      exact ⟨rfl, v, v, hv, hv, rfl, rfl⟩
  · have hcall := htrusted hrun
    obtain ⟨htrusts, rfl⟩ := (lands_trusting_iff hruled).1 ⟨e, hlands⟩
    subst hhead
    have hruled₁ : Ruled (withKey v key) := (hgood₁.coherent.versions _ _ hv').2.ruled
    obtain ⟨w, hw, hlisted⟩ := Core.signWrite_cases hgood₁ (listingOf key addr) rfl fun e' he' =>
      (content e hlands.signed).2 _ e' hlands.digest he'
    rw [hv'] at hw
    cases hw
    -- the first write is a child of the head it was made on
    have hmoved : core₁.head ≠ core.head := by
      have hprev : e.prev = some core.head := by
        obtain ⟨-, -, hpayload, -⟩ := sign_eq_ok hlands.signed
        unfold Envelope.prev
        rw [hpayload]
        rfl
      have hparent : W.prev core₁.head = some core.head := by
        rw [World.prev_eq (content e hlands.signed).1 hlands.digest]
        exact hprev
      exact World.acyclic.ne_parent hparent
    rcases hlisted with ⟨err, hrun₁, hno⟩ | ⟨e', d', v'', j, core₂, hlands', hrun₁, -⟩
    · rw [hrun₁] at hcall
      refine ⟨fun hatomic => ?_, fun hlists => ?_⟩
      · exact absurd (hatomic _ _ hcall).head hmoved
      · obtain ⟨e', d', v', hlands'⟩ := (lands_listing_iff hruled₁).2 (hlists _ htrusts)
        exact absurd hlands' (hno e' d' v')
    · rw [hrun₁] at hcall
      refine ⟨fun _ d htrusts' => ?_, fun _ halt core' hfailed => ?_⟩
      · obtain rfl : d = core₁.head := by
          obtain ⟨e₂, hsigned, hdigest⟩ := htrusts'.encodes
          rw [hlands.signed] at hsigned
          cases hsigned
          rw [hlands.digest] at hdigest
          exact (Except.ok.inj hdigest).symm
        exact (lands_listing_iff hruled₁).1 ⟨e', d', v'', hlands'⟩
      · rw [hcall] at hfailed
        cases hfailed

end IrohLotus.Lotusd

/-! ## The samples -/

namespace IrohLotus.Lotusd

open Std Outcome IrohLotus.Wire IrohLotus.Wire.Founded IrohLotus.Storage IrohLotus.State

/-- The joiner's keys. -/
def joinerKeys : NodeKeys where
  publicKey := joinerKey
  signingKey digest := ⟨(joinerSignatures.lookup digest.hash).getD 0⟩

/-- What is left when a node that is not trusted admits the joiner. -/
def usurped : Res Error EnvelopeDigest × Core :=
  foundedCore.admit joinerKeys (newKey joinerKey 1) ⟨joinerEndpoint, []⟩

theorem trusts_joiner : Trusts founderKeys foundedState foundedCore.head (newKey joinerKey 1) trustedDigest where
  encodes := ⟨trusted, by decide +kernel, by decide +kernel⟩
  alone := by
    have hdigest : (Envelope.new (trusting (newKey joinerKey 1) foundedCore.head)).signatureDigest =
        .ok ⟨0xea45515730d9b427ce8f7113ed08568e4b71929acbeb542dd6200e33876b3789⟩ := by decide +kernel
    exact ⟨_, hdigest, ⟨newKey founderKey 2, by decide +kernel, by decide +kernel, by decide +kernel⟩, by decide +kernel⟩
  keysMap := ⟨[(founderName, .key ⟨founderKey, 2, ∅⟩)], by decide +kernel⟩

/-- The founder's admission of the joiner goes in whole, so what it trusts it can list. The joiner's own is refused for
its signature and leaves nothing. -/
theorem atomic_founded : (Trusts founderKeys foundedState foundedCore.head (newKey joinerKey 1) trustedDigest ∧
      Lists founderKeys foundedState (newKey joinerKey 1) ⟨joinerEndpoint, []⟩ trustedDigest) ∧
    usurped.1 = .error (.error (.apply (.invalidSignatures [joinerId]))) ∧ Untouched foundedCore usurped.2 := by
  constructor
  · obtain ⟨before, hbefore, hiff⟩ := @Core.admit_atomic_iff _ _ _ founded_laws _ reachable_foundedCore founderKeys
      (newKey joinerKey 1) ⟨joinerEndpoint, []⟩ fun _ _ => ⟨Set.mem_univ _, fun _ _ _ _ => Set.mem_univ _⟩
    rw [versions_foundedCore] at hbefore
    cases hbefore
    have hadmitted : (admitted joinerKey 1).1 = .ok joinedDigest := by decide +kernel
    refine ⟨trusts_joiner, hiff.1 (fun halt core' hfailed => ?_) _ trusts_joiner⟩
    rw [admitted, hfailed] at hadmitted
    cases hadmitted
  · obtain ⟨before, hbefore, hiff⟩ := @Core.admit_atomic_iff _ _ _ founded_laws _ reachable_foundedCore joinerKeys
      (newKey joinerKey 1) ⟨joinerEndpoint, []⟩ fun _ _ => ⟨Set.mem_univ _, fun _ _ _ _ => Set.mem_univ _⟩
    rw [versions_foundedCore] at hbefore
    cases hbefore
    have hrefused : usurped.1 = .error (.error (.apply (.invalidSignatures [joinerId]))) := by decide +kernel
    have hcall : foundedCore.admit joinerKeys (newKey joinerKey 1) ⟨joinerEndpoint, []⟩ =
        (.error (.error (.apply (.invalidSignatures [joinerId]))), usurped.2) := Prod.ext hrefused (by rw [usurped])
    have huntrusted : (trustedIn foundedState)[joinerKeys.keyId]? = none := by decide +kernel
    refine ⟨hrefused, hiff.2 (fun d htrusts => ?_) _ usurped.2 hcall⟩
    obtain ⟨digest, -, hcarries⟩ := htrusts.alone
    obtain ⟨key, hkey, -⟩ := hcarries.key
    rw [huntrusted] at hkey
    cases hkey

/-- The founder's core once it deleted the listings. -/
def delistedCore : Core := (foundedCore.insert [delisted]).2

theorem reachable_delistedCore : Reachable Set.univ delistedCore.chain delistedCore.storage := by
  rw [delistedCore]
  exact Core.insert_reachable reachable_foundedCore fun _ _ => Set.mem_univ _

/-- What is left there when the founder admits the joiner. -/
def stranding : Res Error EnvelopeDigest × Core :=
  delistedCore.admit founderKeys (newKey joinerKey 1) ⟨joinerEndpoint, []⟩

/-- The joiner's key is trusted and its endpoint listed nowhere. -/
theorem not_untouched_stranding : Reachable Set.univ delistedCore.chain delistedCore.storage ∧
    (∃ halt, stranding.1 = .error halt) ∧ ¬ Untouched delistedCore stranding.2 := by
  have hfailed : stranding.1.toOption = none := by decide +kernel
  have hhead : stranding.2.head ≠ delistedCore.head := by decide +kernel
  exact ⟨reachable_delistedCore, except_of_toOption_none hfailed, fun h => hhead h.head⟩

end IrohLotus.Lotusd
