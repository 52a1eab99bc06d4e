/-
Admission (`Core::admit`): a sponsor trusts the key a joiner claims and lists its endpoint under that
key's id, each by a write signed with its own key. A write sets what stands under the id, so admission
only adds exactly when nothing else stood there.
-/
import IrohLotus.Lotusd.Core
import IrohLotus.Lotusd.Watch
import IrohLotus.State.Batch
import IrohLotus.State.Intended
import IrohLotus.Wire.Founded

namespace IrohLotus.Lotusd

open Std Outcome IrohLotus.Wire IrohLotus.Storage IrohLotus.State

/-! ## The model -/

/-- A node's signing key: its public half, and the ed25519 signing done outside the repository. -/
structure NodeKeys where
  publicKey : PublicKey
  signingKey : EnvelopeSignatureDigest → Ed25519Signature

section Model

variable [Externals]

/-- The id the ledger knows this node by (`NodeKeys::key_id`). -/
def NodeKeys.keyId (keys : NodeKeys) : KeyId := keys.publicKey.id

/-- `Envelope::with_signature`. -/
def withSignature (envelope : Envelope) (keyId : KeyId) (signature : Signature) : Envelope :=
  { envelope with signatures := envelope.signatures.insert keyId signature }

/-- Attaches this node's signature (`NodeKeys::sign`). -/
def NodeKeys.sign (keys : NodeKeys) (envelope : Envelope) : Except WireError Envelope := do
  let digest ← envelope.signatureDigest
  pure (withSignature envelope keys.keyId (.ed25519 (keys.signingKey digest)))

/-- `Key::new`. -/
def newKey (publicKey : PublicKey) (weight : UInt32) : Key := ⟨publicKey, weight, ∅⟩

namespace Core

/-- Ingests a run of envelopes (`Core::insert`); what it publishes is its subscribers' matter. -/
def insert (core : Core) (envelopes : List Envelope) : Res Error Insert × Core :=
  let inserted := Lotusd.insert core.chain core.storage envelopes
  (inserted.outcome, { core with chain := inserted.chain, storage := inserted.store })

/-- Builds a message onto the head, signs it and inserts it (`Core::sign_write`). -/
def signWrite (core : Core) (keys : NodeKeys) (build : EnvelopeDigest → Msg) :
    Res Error (EnvelopeDigest × Insert) × Core :=
  let signed : Res Error (Envelope × EnvelopeDigest) := do
    let envelope ← Res.ofExcept .wire (keys.sign (Envelope.new (build core.head)))
    let digest ← Res.ofExcept .wire envelope.digest
    pure (envelope, digest)
  match signed with
  | .error e => (.error e, core)
  | .ok (envelope, digest) =>
    let (outcome, core) := core.insert [envelope]
    (outcome.map fun insert => (digest, insert), core)

omit [Externals] in
theorem single_ne_nil (id : String) : [Subkey.key id] ≠ [] := List.cons_ne_nil _ _

/-- The message that sets one entry of a reserved namespace. -/
def setEntry (key : NamespaceKey) (id : String) (value : Value) (prev : EnvelopeDigest) : Msg :=
  .setNamespaceKey ⟨prev, key, ⟨[.key id], single_ne_nil id⟩, some value⟩

/-- What a node's listing holds: its address under `iroh`. -/
def listing [AddrText] (addr : EndpointAddr) : Value := .map (Entries.insert [] "iroh" addr.toValue)

end Core

/-- Trusts `key` under its own id, then lists `addr` under that id (`Core::admit`). -/
def Core.admit [AddrText] (core : Core) (keys : NodeKeys) (key : Key) (addr : EndpointAddr) : Res Error EnvelopeDigest × Core :=
  let id := Externals.keyIdToHex key.id
  match core.signWrite keys (setEntry trustedKeysKey id (.key key)) with
  | (.error e, core) => (.error e, core)
  | (.ok _, core) =>
    let (outcome, core) := core.signWrite keys (setEntry clusterNodesKey id (listing addr))
    (outcome.map Prod.fst, core)

end Model

/-! ## What admission should do -/

/-- The entry under a name in a namespace that holds a map. -/
def entryAt (version : Version) (key : NamespaceKey) (name : String) : Option Value :=
  version[key]?.bind fun ns => ns.value.child (.key name)

/-- Admission only adds: every entry of the trusted keys and of the cluster nodes stands as it did, and
all that is new is the key and the listing under its id. -/
structure OnlyAdds [Externals] (key : Key) (listing : Value) (before after : Version) : Prop where
  trustedKept : ∀ name value, entryAt before trustedKeysKey name = some value → entryAt after trustedKeysKey name = some value
  listedKept : ∀ name value, entryAt before clusterNodesKey name = some value → entryAt after clusterNodesKey name = some value
  trusted : ∀ name, entryAt after trustedKeysKey name =
    if name = Externals.keyIdToHex key.id then some (.key key) else entryAt before trustedKeysKey name
  listed : ∀ name, entryAt after clusterNodesKey name =
    if name = Externals.keyIdToHex key.id then some listing else entryAt before clusterNodesKey name
  others : ∀ other, other ≠ trustedKeysKey → other ≠ clusterNodesKey → after[other]? = before[other]?

/-- Nothing else stands under the name. -/
def Free (version : Version) (key : NamespaceKey) (name : String) (value : Value) : Prop :=
  ∀ old, entryAt version key name = some old → old = value

/-! ## One signed write -/

section Write

variable [Externals] {W : World} {core core' : Core} {keys : NodeKeys}

theorem Core.insert_eq_ok {envelopes : List Envelope} {i : Insert} (h : core.insert envelopes = (.ok i, core')) :
    core.chain.insertBatch envelopes core.storage = (.ok i, core'.chain, core'.storage) := by
  unfold Core.insert Lotusd.insert at h
  rcases hrun : core.chain.insertBatch envelopes core.storage with ⟨r, chain, store⟩
  simp only [hrun] at h
  split at h
  · split at h
    · cases h; rfl
    · cases h
  · cases h; rfl

/-- A signature leaves what is signed as it is. -/
theorem NodeKeys.payload_of_sign {e signed : Envelope} (h : keys.sign e = .ok signed) : signed.payload = e.payload := by
  unfold NodeKeys.sign at h
  cases hd : e.signatureDigest with
  | error err => rw [hd] at h; cases h
  | ok digest =>
    rw [hd] at h
    cases h
    rfl

omit [Externals] in
/-- A set of one entry that goes through was made on a map. -/
theorem setAt_entry {E : Type} {root w value : Value} {name : String}
    (h : setAt (E := E) root ⟨[.key name], List.cons_ne_nil _ _⟩ (some value) = .ok w) :
    ∃ entries, root = .map entries ∧ w = .map (Entries.insert entries name value) := by
  cases root <;> cases h
  exact ⟨_, rfl, rfl⟩

/-- A signed write of one entry that goes through leaves the core at a head whose version is the last
one with that entry set. -/
theorem Core.signWrite_entry (hgood : Good W core.chain core.storage)
    (hsigned : ∀ e signed, keys.sign e = .ok signed → signed.toSignedPortion ∈ W.contents)
    {key : NamespaceKey} {id : String} {value : Value} {d : EnvelopeDigest} {i : Insert}
    (run : core.signWrite keys (setEntry key id value) = (.ok (d, i), core')) :
    ∃ v entries, core.storage.versions[core.head]? = some v ∧ v[key]? = some ⟨.map entries⟩ ∧
      core'.storage.versions[core'.head]? = some (v.insert key ⟨.map (Entries.insert entries id value)⟩) ∧
      Good W core'.chain core'.storage := by
  unfold Core.signWrite at run
  dsimp only at run
  split at run
  · cases run
  · rename_i envelope digest hsign
    obtain ⟨e, he, hsign⟩ := Res.bind_eq_ok hsign
    obtain ⟨d', hd', hsign⟩ := Res.bind_eq_ok hsign
    cases hsign
    have he := Res.ofExcept_eq_ok he
    rcases hins : core.insert [envelope] with ⟨outcome, core₁⟩
    rw [hins] at run
    cases outcome with
    | error halt => cases run
    | ok insert =>
      cases run
      have hpayload : envelope.payload = setEntry key id value core.head := NodeKeys.payload_of_sign he
      have hprev : envelope.prev = some core.chain.head := by
        unfold Envelope.prev
        rw [hpayload]
        rfl
      obtain ⟨d', v, v', status, -, hv, hacc, hchain, hv', hgood'⟩ :=
        Chain.insertBatch_extends hgood (hsigned _ _ he) hprev (Core.insert_eq_ok hins)
      obtain ⟨op, hc, hu⟩ := hacc.checked
      obtain ⟨-, -, -, hmsg, -⟩ := Ledger.checked_eq_ok hc
      have hop := (Ledger.validateMsg_eq_ok (E := Empty) (versions_only _ _) hmsg).1
      have hset : opOf (setEntry key id value core.head) = some op := by
        rw [← hpayload]; exact hop
      cases hset
      obtain ⟨ns, w, hns, hw, rfl⟩ := MemStorage.update_setAt_eq_ok hu
      obtain ⟨entries, hmap, rfl⟩ := setAt_entry hw
      obtain ⟨nsValue⟩ := ns
      obtain rfl : nsValue = .map entries := hmap
      refine ⟨v, entries, hv, hns, ?_, hgood'⟩
      have hhead : core₁.head = d' := by
        unfold Core.head
        rw [hchain]
        rfl
      rw [hhead, hv']

end Write

/-! ## Admission -/

section Admit

variable [Externals] [AddrText] {contents : Set SignedPortion} {core core' : Core} {keys : NodeKeys}

omit [Externals] [AddrText] in
theorem entryAt_insert_self {v : Version} {key : NamespaceKey} {entries : Entries Value} (id name : String) (value : Value)
    (h : v[key]? = some ⟨.map entries⟩) : entryAt (v.insert key ⟨.map (Entries.insert entries id value)⟩) key name =
      if name = id then some value else entryAt v key name := by
  unfold entryAt
  rw [ExtTreeMap.getElem?_insert_self, h, Option.bind_some, Option.bind_some]
  simp only [Value.child, Entries.get_insert, eq_comm]

omit [Externals] [AddrText] in
theorem entryAt_insert_of_ne {v : Version} {key other : NamespaceKey} (hne : other ≠ key) (ns : Namespace) (name : String) :
    entryAt (v.insert other ns) key name = entryAt v key name := by
  unfold entryAt
  rw [Ledger.getElem?_insert_of_ne hne]

/-- A successful admission changes one entry in each of two namespaces. -/
theorem Core.admit_entries {W : World} (hgood : Good W core.chain core.storage)
    (hsigned : ∀ e signed, keys.sign e = .ok signed → signed.toSignedPortion ∈ W.contents) {key : Key} {addr : EndpointAddr}
    {d : EnvelopeDigest} (run : core.admit keys key addr = (.ok d, core')) :
    ∃ before after, core.storage.versions[core.head]? = some before ∧ core'.storage.versions[core'.head]? = some after ∧
      (∀ name, entryAt after trustedKeysKey name =
        if name = Externals.keyIdToHex key.id then some (.key key) else entryAt before trustedKeysKey name) ∧
      (∀ name, entryAt after clusterNodesKey name =
        if name = Externals.keyIdToHex key.id then some (listing addr) else entryAt before clusterNodesKey name) ∧
      ∀ other, other ≠ trustedKeysKey → other ≠ clusterNodesKey → after[other]? = before[other]? := by
  unfold Core.admit at run
  dsimp only at run
  split at run
  · cases run
  · rename_i written core₁ htrust
    obtain ⟨d₁, i₁⟩ := written
    obtain ⟨v, keyEntries, hv, hkeys, hv₁, hgood₁⟩ := Core.signWrite_entry hgood hsigned htrust
    rcases hlist : core₁.signWrite keys (setEntry clusterNodesKey (Externals.keyIdToHex key.id) (listing addr)) with ⟨r, core₂⟩
    rw [hlist] at run
    cases r with
    | error halt => cases run
    | ok written =>
      cases run
      obtain ⟨d₂, i₂⟩ := written
      obtain ⟨v₁, nodeEntries, hv₁', hnodes, hv₂, -⟩ := Core.signWrite_entry hgood₁ hsigned hlist
      rw [hv₁] at hv₁'
      cases hv₁'
      have hne : trustedKeysKey ≠ clusterNodesKey := by decide
      refine ⟨v, _, hv, hv₂, fun name => ?_, fun name => ?_, fun other hkey hnode => ?_⟩
      · rw [entryAt_insert_of_ne hne.symm, entryAt_insert_self _ _ _ hkeys]
      · rw [entryAt_insert_self _ _ _ hnodes, entryAt_insert_of_ne hne]
      · rw [Ledger.getElem?_insert_of_ne hnode.symm, Ledger.getElem?_insert_of_ne hkey.symm]

omit [Externals] [AddrText] in
theorem keeps_iff_free {before after : Version} {key : NamespaceKey} {id : String} {value : Value}
    (h : ∀ name, entryAt after key name = if name = id then some value else entryAt before key name) :
    (∀ name old, entryAt before key name = some old → entryAt after key name = some old) ↔ Free before key id value := by
  constructor
  · intro hkept old hold
    have hafter := hkept id old hold
    rw [h, if_pos rfl] at hafter
    exact (Option.some.inj hafter).symm
  · intro hfree name old hold
    rw [h]
    split
    · rename_i hname
      subst hname
      rw [hfree old hold]
    · exact hold

/-- For every reachable core, claimed key, weight and address: a successful admission only adds exactly
when nothing else stood under the claimed key's id. -/
theorem Core.admit_onlyAdds_iff (laws : DigestLaws contents) (reachable : Reachable contents core.chain core.storage)
    (signed : ∀ e signed, keys.sign e = .ok signed → signed.toSignedPortion ∈ contents) (publicKey : PublicKey)
    (weight : UInt32) (addr : EndpointAddr) {d : EnvelopeDigest}
    (run : core.admit keys (newKey publicKey weight) addr = (.ok d, core')) :
    ∃ before after, core.storage.versions[core.head]? = some before ∧ core'.storage.versions[core'.head]? = some after ∧
      (OnlyAdds (newKey publicKey weight) (listing addr) before after ↔
        Free before trustedKeysKey (Externals.keyIdToHex publicKey.id) (.key (newKey publicKey weight)) ∧
          Free before clusterNodesKey (Externals.keyIdToHex publicKey.id) (listing addr)) := by
  obtain ⟨W, rfl, hgood⟩ := reachable.good laws
  obtain ⟨before, after, hbefore, hafter, htrusted, hlisted, hothers⟩ := Core.admit_entries hgood signed run
  refine ⟨before, after, hbefore, hafter, fun h => ?_, fun h => ?_⟩
  · exact ⟨(keeps_iff_free htrusted).1 h.trustedKept, (keeps_iff_free hlisted).1 h.listedKept⟩
  · exact ⟨(keeps_iff_free htrusted).2 h.1, (keeps_iff_free hlisted).2 h.2, htrusted, hlisted, hothers⟩

end Admit

end IrohLotus.Lotusd

/-! ## The samples -/

namespace IrohLotus.Lotusd

open Std Outcome IrohLotus.Wire IrohLotus.Wire.Founded IrohLotus.Storage IrohLotus.State

/-- What has a digest is in the table. -/
theorem founded_mem {portion : SignedPortion} {d : EnvelopeDigest} (h : portion.digest = .ok d) : (portion, d.hash) ∈ table := by
  cases hlookup : table.lookup portion with
  | none =>
    simp only [SignedPortion.digest, Externals.hash, hlookup] at h
    cases h
  | some hash =>
    simp only [SignedPortion.digest, Externals.hash, hlookup] at h
    cases h
    obtain ⟨before, after, hsplit, -⟩ := List.lookup_eq_some_iff.1 hlookup
    rw [hsplit]
    exact List.mem_append_right _ List.mem_cons_self

theorem founded_laws : DigestLaws (Set.univ : Set SignedPortion) where
  collisionFree := by
    have hall : ∀ a ∈ table, ∀ b ∈ table, a.2 = b.2 → a.1 = b.1 := by decide +kernel
    intro a _ b _ d hda hdb
    exact hall _ (founded_mem hda) _ (founded_mem hdb) rfl
  acyclic := by
    have hrow : ∀ row ∈ table, (row.1.payload.prevDigest.elim true fun p =>
        (table.map Prod.snd).idxOf p.hash < (table.map Prod.snd).idxOf row.2) = true := by
      decide +kernel
    refine Subrelation.wf (fun {p c} h => ?_) (measure fun d : EnvelopeDigest => (table.map Prod.snd).idxOf d.hash).wf
    obtain ⟨e, -, hd, hp⟩ := h
    have hlt := hrow _ (founded_mem hd)
    rw [hp] at hlt
    have hlt : (table.map Prod.snd).idxOf p.hash < (table.map Prod.snd).idxOf c.hash := of_decide_eq_true hlt
    exact hlt

/-- The founder's keys. -/
def founderKeys : NodeKeys where
  publicKey := founderKey
  signingKey digest := ⟨(signatures.lookup digest.hash).getD 0⟩

/-- The founder's store once it has its genesis. -/
def foundedStore : MemStorage := (Chain.init founded (MemStorage.empty 0)).2

/-- The founder's core on its genesis. -/
def foundedCore : Core := ⟨⟨foundedDigest, ⟨foundedDigest⟩⟩, foundedStore, foundedDigest⟩

theorem reachable_foundedCore : Reachable Set.univ foundedCore.chain foundedCore.storage := by
  have hrun : (Chain.init founded (MemStorage.empty 0)).1 = .ok ⟨foundedDigest, ⟨foundedDigest⟩⟩ := by decide +kernel
  rw [foundedCore]
  exact .init (Set.mem_univ _) (Prod.ext hrun (by rw [foundedStore]))

/-- What the founder is left with when it admits `key` at the joiner's endpoint. -/
def admitted (key : PublicKey) (weight : UInt32) : Res Error EnvelopeDigest × Core :=
  foundedCore.admit founderKeys (newKey key weight) ⟨joinerEndpoint, []⟩

theorem versions_foundedCore : foundedCore.storage.versions[foundedCore.head]? = some foundedState := by decide +kernel

theorem admit_onlyAdds_joiner : (admitted joinerKey 1).1 = .ok joinedDigest ∧
    ∃ after, (admitted joinerKey 1).2.storage.versions[(admitted joinerKey 1).2.head]? = some after ∧
      OnlyAdds (newKey joinerKey 1) (Core.listing ⟨joinerEndpoint, []⟩) foundedState after := by
  have hrun : (admitted joinerKey 1).1 = .ok joinedDigest := by decide +kernel
  have hcall : foundedCore.admit founderKeys (newKey joinerKey 1) ⟨joinerEndpoint, []⟩ =
      (.ok joinedDigest, (admitted joinerKey 1).2) := Prod.ext hrun (by rw [admitted])
  obtain ⟨before, after, hbefore, hafter, hiff⟩ := Core.admit_onlyAdds_iff founded_laws reachable_foundedCore
    (fun _ _ _ => Set.mem_univ _) joinerKey 1 ⟨joinerEndpoint, []⟩ hcall
  rw [versions_foundedCore] at hbefore
  cases hbefore
  have htrusted : entryAt foundedState trustedKeysKey (Externals.keyIdToHex joinerKey.id) = none := by decide +kernel
  have hlisted : entryAt foundedState clusterNodesKey (Externals.keyIdToHex joinerKey.id) = none := by decide +kernel
  refine ⟨hrun, after, hafter, hiff.2 ⟨fun old hold => ?_, fun old hold => ?_⟩⟩
  · rw [htrusted] at hold; cases hold
  · rw [hlisted] at hold; cases hold

/-- A joiner that claims the founder's own key takes over its entry. -/
theorem not_onlyAdds_claimed : Reachable Set.univ foundedCore.chain foundedCore.storage ∧
    (admitted founderKey 1).1 = .ok capturedDigest ∧
    ∀ after, (admitted founderKey 1).2.storage.versions[(admitted founderKey 1).2.head]? = some after →
      ¬ OnlyAdds (newKey founderKey 1) (Core.listing ⟨joinerEndpoint, []⟩) foundedState after := by
  refine ⟨reachable_foundedCore, by decide +kernel, fun after hafter h => ?_⟩
  have hbefore : entryAt foundedState trustedKeysKey founderName = some (.key (newKey founderKey 2)) := by decide +kernel
  have hclaimed : (((admitted founderKey 1).2.storage.versions[(admitted founderKey 1).2.head]?).bind fun after =>
      entryAt after trustedKeysKey founderName) = some (.key (newKey founderKey 1)) := by decide +kernel
  rw [hafter, Option.bind_some, h.trustedKept _ _ hbefore] at hclaimed
  revert hclaimed
  decide

end IrohLotus.Lotusd
