/-
Nodes grown from one `Init`, never compacted. They live in one world: what one of them stored, the
other accepts once it has the parent, so a linked run out of one log goes into the other whole.
-/
import IrohLotus.Lotusd.Pull
import IrohLotus.State.Converge

namespace IrohLotus.Lotusd

open Std Outcome Forest IrohLotus.Wire IrohLotus.Storage IrohLotus.State IrohLotus.Sync

variable [Externals]

/-! ## Growing -/

/-- What a node does besides its sessions: a batch goes in, or is refused, an `insert` being a batch
of one; it reopens; or its clock moves on. -/
inductive Core.Moves (contents : Set SignedPortion) : Core → Core → Prop
  | insertBatch {core : Core} {es : List Envelope} (content : ∀ e ∈ es, e.toSignedPortion ∈ contents) :
    Moves contents core (core.insertBatch es).2
  | open {core : Core} {chain : Chain} {storage : MemStorage}
    (run : Chain.open core.oldest core.storage = (.ok chain, storage)) : Moves contents core { core with chain, storage }
  | tick {core : Core} (clock : StoredAt) : Moves contents core { core with storage := { core.storage with clock } }

/-- The cores that came about from the `Init` envelope `start` by such moves. -/
inductive Core.Grown (contents : Set SignedPortion) (start : Envelope) : Core → Prop
  | init {clock : StoredAt} {chain : Chain} {storage : MemStorage}
    (run : Chain.init start (MemStorage.empty clock) = (.ok chain, storage)) : Grown contents start ⟨chain, storage, chain.root⟩
  | moves {core core' : Core} (h : Grown contents start core) (move : core.Moves contents core') : Grown contents start core'

/-- A core over the world of its `Init`: every envelope of its log has its version. -/
structure Core.Full (W : World) (core : Core) : Prop where
  good : Good W core.chain core.storage
  root : core.chain.root = W.genesis
  oldest : core.oldest = core.chain.root
  top : core.storage.parent W.genesis = none
  allHeld : AllHeld core.storage

section Full

variable {W : World} {core : Core}

theorem Core.Full.coherent (h : core.Full W) : Coherent W W.genesis core.storage := h.root ▸ h.good.coherent

theorem Core.Full.tip (h : core.Full W) : Tip core.storage.parent core.storage.rank W.genesis core.head :=
  h.root ▸ h.good.tip

/-- Walking down from the head stays in the log. -/
theorem Core.Full.stored_of_desc (h : core.Full W) {d : EnvelopeDigest} (hd : Desc core.storage.parent d core.head) :
    core.storage.Stored d := by
  rcases hd.total h.tip.canonical.desc with hbelow | habove
  · by_cases hne : W.genesis = d
    · rw [← hne]; exact h.coherent.base_stored
    · obtain ⟨p, hp, -⟩ := hbelow.exists_parent hne
      rw [h.top] at hp; cases hp
  · exact core.storage.stored_of_desc h.coherent.base_stored habove

/-- A batch keeps a node full, and its log only grows. -/
theorem Core.Full.insertBatch (h : core.Full W) {es : List Envelope} (content : ∀ e ∈ es, e.toSignedPortion ∈ W.contents) :
    (core.insertBatch es).2.Full W ∧ core.storage.LogGrows (core.insertBatch es).2.storage := by
  obtain ⟨hgood, hroot, hw, -⟩ := h.good.insertBatch content (r := (core.chain.insertBatch es core.storage).1) rfl
  have hgrows : core.storage.LogGrows (core.insertBatch es).2.storage := hw.logGrows
  refine ⟨⟨hgood, hroot.trans h.root, h.oldest.trans hroot.symm, ?_, h.allHeld.wroteAll h.good.coherent hw⟩, hgrows⟩
  obtain ⟨e, he⟩ := h.coherent.base_stored
  have htop := h.top
  rw [core.storage.parent_of_envelope he] at htop
  rw [MemStorage.parent_of_envelope _ (hgrows _ e he)]
  exact htop

theorem Core.Full.moves (h : core.Full W) {core' : Core} (move : core.Moves W.contents core') :
    core'.Full W ∧ core.storage.LogGrows core'.storage := by
  cases move with
  | insertBatch content => exact h.insertBatch content
  | «open» run =>
    rw [h.oldest, h.good.open] at run
    cases run
    exact ⟨h, fun _ _ he => he⟩
  | tick clock => exact ⟨⟨h.good.tick clock, h.root, h.oldest, h.top, h.allHeld⟩, fun _ _ he => he⟩

end Full

/-- Nodes grown from one `Init` are full over one world. -/
theorem Core.Grown.exists_world {contents : Set SignedPortion} (laws : DigestLaws contents) {start : Envelope}
    (content : start.toSignedPortion ∈ contents) {core : Core} (h : core.Grown contents start) :
    ∃ W : World, W.contents = contents ∧ ∀ core', Core.Grown contents start core' → core'.Full W := by
  obtain ⟨msg, d, hmsg, hcheck, hd⟩ : ∃ msg d, start.payload = .init msg ∧ validateCheckpoint msg.state = .ok () ∧
      start.digest = .ok d := by
    induction h with
    | init run =>
      obtain ⟨msg, status, d, hmsg, hcheck, hd, -⟩ := init_eq_ok run
      exact ⟨msg, d, hmsg, hcheck, hd⟩
    | moves _ _ ih => exact ih
  let W : World := ⟨contents, laws, d, msg.state.namespaces, validateCheckpoint_ruled hcheck, by
    intro e he hde msg' hmsg'
    rw [laws.collisionFree _ he _ content d hde hd, hmsg] at hmsg'
    cases hmsg'
    exact ⟨hcheck, rfl⟩⟩
  refine ⟨W, rfl, fun core' h' => ?_⟩
  induction h' with
  | @init clock chain storage run =>
    obtain ⟨msg', status, d', hmsg', -, hd', -, rfl, rfl⟩ := init_eq_ok run
    rw [hmsg] at hmsg'; cases hmsg'
    rw [hd] at hd'; cases hd'
    have hsettled := settled_single clock (e := start.setVerificationStatus status) hd content (@World.StateOf.genesis _ W)
    refine ⟨hsettled.good, rfl, rfl, ?_, hsettled.allHeld⟩
    rw [MemStorage.parent_of_envelope _ hsettled.root]
    change start.payload.prevDigest = none
    rw [hmsg]; rfl
  | moves _ move ih => exact (ih.moves move).1

/-! ## Ingesting -/

section Ingest

variable {W : World} {start tip : EnvelopeDigest} {es : List Envelope}

/-- The two readings of a linked run agree. -/
theorem linked_of_linked (h : Sync.Linked start es tip) : State.Linked es := by
  induction h with
  | nil => exact List.isChain_nil
  | @cons cursor next tip e es prev digest rest ih =>
    cases rest with
    | nil => exact List.isChain_singleton e
    | cons prev' digest' rest' => exact List.isChain_cons_cons.2 ⟨⟨next, digest, prev'⟩, ih⟩

/-- A linked run from a stored envelope, each of which has a state, goes in one by one. -/
theorem insertEach_of_linked (linked : Sync.Linked start es tip) : ∀ {chain : Chain} {s : MemStorage}, Good W chain s →
    AllHeld s → s.Stored start → (∀ e ∈ es, e.toSignedPortion ∈ W.contents ∧ ∃ d v, e.digest = .ok d ∧ W.StateOf d v) →
      ∃ ledger t, chain.insertEach es s = (.ok (), { chain with ledger }, t) ∧ t.Stored tip ∧
        ∀ x, t.Stored x ↔ s.Stored x ∨ ∃ e ∈ es, e.digest = .ok x := by
  induction linked with
  | nil =>
    intro chain s _ _ hstart _
    exact ⟨chain.ledger, s, rfl, hstart, by simp⟩
  | @cons start next tip e es prev digest rest ih =>
    intro chain s hgood hheld hstart hes
    obtain ⟨content, d, v', hd, hstate⟩ := hes e List.mem_cons_self
    rw [digest] at hd; cases hd
    obtain ⟨v, hv⟩ := hheld start hstart
    have hstartState := (hgood.coherent.versions start v hv).2
    have hprev : W.prev next = some start := (World.prev_eq content digest).trans prev
    have hne : next ≠ W.genesis := by
      rintro rfl
      exact World.acyclic.not_desc_parent hprev hstartState.desc
    obtain ⟨p, w, e', hw, content', hacc⟩ := hstate.exists_parent hne
    obtain rfl : p = start := by
      have := World.prev_of_accepts content' hacc
      rw [hprev] at this
      exact (Option.some.inj this).symm
    obtain rfl := hw.unique hstartState
    have hsame := W.laws.collisionFree _ content' _ content next hacc.digest digest
    obtain ⟨t, i, ledger, hins, hgood', hstored⟩ := insert_of_accepts hgood content hv hacc hsame
    have hwrote := (hgood.insert content).2.2
    rw [hins] at hwrote
    obtain ⟨ledger', u, heach, htip, hall⟩ := ih hgood' (hheld.wroteAll hgood.coherent hwrote) ((hstored next).2 (.inr rfl))
      fun x hx => hes x (List.mem_cons_of_mem _ hx)
    refine ⟨ledger', u, by rw [insertEach_cons hins]; exact heach, htip, fun x => ?_⟩
    rw [hall, hstored]
    have hcons : (∃ y ∈ e :: es, y.digest = .ok x) ↔ x = next ∨ ∃ y ∈ es, y.digest = .ok x := by
      simp only [List.mem_cons, exists_eq_or_imp, digest, Except.ok.injEq]
      rw [eq_comm]
    rw [hcons, or_assoc]

/-- And in one batch. -/
theorem Core.Full.ingest {core : Core} (h : core.Full W) (linked : Sync.Linked start es tip)
    (hstart : core.storage.Stored start)
    (hes : ∀ e ∈ es, e.toSignedPortion ∈ W.contents ∧ ∃ d v, e.digest = .ok d ∧ W.StateOf d v) :
    ∃ i, (core.insertBatch es).1 = .ok i ∧ (core.insertBatch es).2.storage.Stored tip ∧
      ∀ x, (core.insertBatch es).2.storage.Stored x ↔ core.storage.Stored x ∨ ∃ e ∈ es, e.digest = .ok x := by
  have content : ∀ e ∈ es, e.toSignedPortion ∈ W.contents := fun e he => (hes e he).1
  obtain ⟨ledger, t, heach, htip, hstored⟩ := insertEach_of_linked linked h.good h.allHeld hstart hes
  obtain ⟨ledger₁, t₁, -, hres⟩ := storeBatch_eq_insertEach h.good Chain.footed_start (fun _ _ => Chain.chains_start)
    (linked_of_linked linked) content
  obtain ⟨t₂, ledger₂, -, -, -, hrun⟩ := h.good.insertBatch_run content
  rcases hres with ⟨b, hb, heach'⟩ | ⟨err, pre, e, post, -, heach', -⟩
  · rw [heach] at heach'; cases heach'
    rcases hrun with ⟨b', i, hb', hins⟩ | ⟨err, herr, -⟩
    · rw [hb] at hb'; cases hb'
      refine ⟨i, ?_, ?_, ?_⟩
      · simp only [Core.insertBatch, hins]
      · simp only [Core.insertBatch, hins]; exact htip
      · simp only [Core.insertBatch, hins]; exact hstored
    · rw [hb] at herr; cases herr
  · rw [heach] at heach'; cases heach'

end Ingest

end IrohLotus.Lotusd
