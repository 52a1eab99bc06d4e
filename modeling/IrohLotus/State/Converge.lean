/-
Arrival order does not matter. Inserted parent-first, exactly the envelopes with a state end up in
the log, each with the status its parent's state gives it; nothing of that depends on the order, and
the head and the checkpoint are read off it.
-/
import IrohLotus.State.Batch
import IrohLotus.State.Replay

namespace IrohLotus.State

open Std Outcome Forest IrohLotus.Wire IrohLotus.Storage

variable [Externals]

/-- `insert` of each envelope in order, refusals ignored. -/
def Chain.insertAll : Chain → List Envelope → MemStorage → Chain × MemStorage
  | chain, [], s => (chain, s)
  | chain, e :: es, s => (chain.insert e s).2.1.insertAll es (chain.insert e s).2.2

/-- Every envelope comes after the one its `prev` names, if that is among them. -/
def ParentFirst (es : List Envelope) : Prop :=
  ∀ pre e post, es = pre ++ e :: post → ∀ p, e.prev = some p → (∃ x ∈ es, x.digest = .ok p) →
    ∃ x ∈ pre, x.digest = .ok p

/-- The contents of some envelopes. -/
def contentsOf (es : List Envelope) : Set SignedPortion := fun portion => ∃ e ∈ es, e.toSignedPortion = portion

/-! ## Parent-first runs name no content among its own ancestors -/

section Acyclic

variable {start : Envelope} {es : List Envelope} {msg : InitMsg}

/-- An envelope that names a parent is not the `Init`. -/
theorem exists_of_names (hmsg : start.payload = .init msg) {p c : EnvelopeDigest} (h : Names (contentsOf (start :: es)) p c) :
    ∃ e ∈ es, e.digest = .ok c ∧ e.prev = some p := by
  obtain ⟨_, ⟨e, he, rfl⟩, hc, hp⟩ := h
  rcases List.mem_cons.1 he with rfl | he
  · rw [hmsg] at hp; cases hp
  · exact ⟨e, he, hc, hp⟩

theorem acc_of_parentFirst (hmsg : start.payload = .init msg) (hcf : CollisionFree (contentsOf (start :: es)))
    (hes : ParentFirst es) (pre : List Envelope) : ∀ post, es = pre ++ post → ∀ x ∈ pre, ∀ c, x.digest = .ok c →
      Acc (Names (contentsOf (start :: es))) c := by
  induction pre using List.reverseRecOn with
  | nil => exact fun _ _ _ hx => absurd hx List.not_mem_nil
  | append_singleton pre e ih =>
    intro post hsplit x hx c hc
    rw [List.append_assoc, List.singleton_append] at hsplit
    rcases List.mem_append.1 hx with hx | hx
    · exact ih (e :: post) hsplit x hx c hc
    · obtain rfl := List.mem_singleton.1 hx
      refine ⟨_, fun p hp => ?_⟩
      obtain ⟨e', he', hc', hprev⟩ := exists_of_names hmsg hp
      have hxmem : x ∈ es := by rw [hsplit]; simp
      have hsame := hcf _ ⟨e', List.mem_cons_of_mem _ he', rfl⟩ _ ⟨x, List.mem_cons_of_mem _ hxmem, rfl⟩ c hc' hc
      have hxprev : x.prev = some p := by
        rw [← hprev]; simp only [Envelope.prev, hsame]
      by_cases hin : ∃ y ∈ es, y.digest = .ok p
      · obtain ⟨y, hy, hyp⟩ := hes pre x post hsplit p hxprev hin
        exact ih (x :: post) hsplit y hy p hyp
      · refine ⟨_, fun q hq => ?_⟩
        obtain ⟨y, hy, hyp, -⟩ := exists_of_names hmsg hq
        exact absurd ⟨y, hy, hyp⟩ hin

/-- The digests of a parent-first run need only be collision-free. -/
theorem digestLaws_of_parentFirst (hmsg : start.payload = .init msg) (hcf : CollisionFree (contentsOf (start :: es)))
    (hes : ParentFirst es) : DigestLaws (contentsOf (start :: es)) := by
  refine ⟨hcf, ⟨fun c => ?_⟩⟩
  by_cases hin : ∃ x ∈ es, x.digest = .ok c
  · obtain ⟨x, hx, hc⟩ := hin
    exact acc_of_parentFirst hmsg hcf hes es [] (List.append_nil es).symm x hx c hc
  · refine ⟨_, fun p hp => ?_⟩
    obtain ⟨x, hx, hc, -⟩ := exists_of_names hmsg hp
    exact absurd ⟨x, hx, hc⟩ hin

end Acyclic

/-! ## What a parent-first run stores -/

section Settled

variable {W : World} {chain : Chain} {s t : MemStorage} {e : Envelope} {d p : EnvelopeDigest}

/-- Every envelope in the log has its version, as long as nothing is compacted. -/
def AllHeld (s : MemStorage) : Prop := ∀ d, s.Stored d → s.Held d

theorem AllHeld.wroteAll {base : EnvelopeDigest} (hs : AllHeld s) (hco : Coherent W base s) (h : Chain.WroteAll W s t) :
    AllHeld t := by
  induction h with
  | refl => exact hs
  | @tail t u hst hw ih =>
    have hgrow := hw.grows (Chain.WroteAll.coherent hst hco)
    cases hw with
    | version stored fresh state => exact fun x hx => hgrow.held (ih x hx)
    | @envelope p d v v' e fresh parent content accepts =>
      intro x hx
      by_cases hxd : d = x
      · subst hxd
        exact ⟨v', by rw [MemStorage.versions_putEnvelope, MemStorage.versions_install, if_pos rfl]⟩
      · obtain ⟨e', he'⟩ := hx
        rw [MemStorage.envelope_putEnvelope, if_neg hxd] at he'
        exact hgrow.held (ih x ⟨e', he'⟩)

/-- An envelope that is accepted where its parent's version is held is not refused. -/
theorem insert_of_accepts {v v' : Version} {e' : Envelope} (h : Good W chain s) (content : e.toSignedPortion ∈ W.contents)
    (hv : s.versions[p]? = some v) (hacc : Accepts p v e' d v') (hsame : e'.toSignedPortion = e.toSignedPortion) :
    ∃ t i ledger, chain.insert e s = (.ok i, { chain with ledger }, t) ∧ Good W { chain with ledger } t ∧
      ∀ x, t.Stored x ↔ s.Stored x ∨ x = d := by
  have hp : e.prev = some p := by
    rw [← hacc.prev]; simp only [Envelope.prev, hsame]
  have hd : e.digest = .ok d := by
    rw [← hacc.digest]; simp only [Envelope.digest, hsame]
  rcases Chain.insert_cases h content with ⟨err, hone, -⟩ | ⟨b, d', t, i, ledger, -, hins, hgood, -, hd', -, hstored⟩
  · exfalso
    rw [Chain.storeOne_eq Chain.footed_start Chain.chains_start hp hd] at hone
    rcases Chain.judge_cases (p := p) h.coherent content hd with
      ⟨_, -, -, hno⟩ | ⟨_, hj, -⟩ | ⟨_, hj, -⟩ | ⟨_, _, _, hj, -⟩
    · exact hno v e'.verificationStatus v' hv (by rw [← Envelope.eq_setVerificationStatus hsame]; exact hacc)
    all_goals rw [Action.bind_ok hj] at hone; cases hone
  · rw [hd] at hd'; cases hd'
    exact ⟨t, i, ledger, hins, hgood, hstored⟩

theorem stored_of_accepts {v v' : Version} {e' : Envelope} (h : Good W chain s) (content : e.toSignedPortion ∈ W.contents)
    (hv : s.versions[p]? = some v) (hacc : Accepts p v e' d v') (hsame : e'.toSignedPortion = e.toSignedPortion) :
    (chain.insert e s).2.2.Stored d := by
  obtain ⟨t, i, ledger, hins, -, hstored⟩ := insert_of_accepts h content hv hacc hsame
  rw [hins]
  exact (hstored d).2 (.inr rfl)

/-- What a run on a chain that started from `start` has come to once `pre` went by: everything from
the root on that has a state and was among it is stored. -/
structure Settled (W : World) (start : Envelope) (pre : List Envelope) (chain : Chain) (s : MemStorage) : Prop where
  good : Good W chain s
  root : s.envelope chain.root = some start
  allHeld : AllHeld s
  among : ∀ d, s.Stored d → d = chain.root ∨ ∃ x ∈ pre, x.digest = .ok d
  stored : ∀ d v, W.StateOf d v → Desc W.prev chain.root d → (d = chain.root ∨ ∃ x ∈ pre, x.digest = .ok d) → s.Stored d

/-- One more envelope, whose parent already went by if it was to. -/
theorem Settled.insert {start : Envelope} {pre : List Envelope} (h : Settled W start pre chain s)
    (content : e.toSignedPortion ∈ W.contents)
    (hparent : ∀ p v, e.prev = some p → W.StateOf p v → Desc W.prev chain.root p →
      p = chain.root ∨ ∃ x ∈ pre, x.digest = .ok p) :
    Settled W start (pre ++ [e]) (chain.insert e s).2.1 (chain.insert e s).2.2 ∧
      (chain.insert e s).2.1.root = chain.root := by
  obtain ⟨hgood, hroot, hwrote⟩ := h.good.insert content
  have hmono : ∀ {x}, s.Stored x → (chain.insert e s).2.2.Stored x := fun hx => hwrote.logGrows.stored hx
  have hnext : ∀ d v, W.StateOf d v → Desc W.prev chain.root d →
      (d = chain.root ∨ ∃ x ∈ pre ++ [e], x.digest = .ok d) → (chain.insert e s).2.2.Stored d := by
    intro d v hv hdesc hd
    by_cases hg : d = chain.root
    · exact hmono (h.stored d v hv hdesc (.inl hg))
    · obtain ⟨x, hx, hxd⟩ := hd.resolve_left hg
      rcases List.mem_append.1 hx with hx | hx
      · exact hmono (h.stored d v hv hdesc (.inr ⟨x, hx, hxd⟩))
      · obtain rfl := List.mem_singleton.1 hx
        obtain ⟨p, w, e', hw, content', hacc⟩ := hv.exists_parent_of_desc (h.good.coherent.exists_state
          h.good.coherent.base_stored) hdesc hg
        have hsame := W.laws.collisionFree _ content' _ content d hacc.digest hxd
        have hp : x.prev = some p := by
          rw [← hacc.prev]; simp only [Envelope.prev, hsame]
        have hpdesc : Desc W.prev chain.root p := hdesc.of_parent hg (World.prev_of_accepts content' hacc)
        obtain ⟨w', hw'⟩ := h.allHeld p (h.stored p w hw hpdesc (hparent p w hp hw hpdesc))
        obtain rfl := hw.unique (h.good.coherent.versions p w' hw').2
        exact stored_of_accepts h.good content hw' hacc hsame
  refine ⟨⟨hgood, ?_, h.allHeld.wroteAll h.good.coherent hwrote, fun d hd => ?_, ?_⟩, hroot⟩
  · rw [hroot]; exact hwrote.logGrows _ _ h.root
  · rw [hroot]
    rcases Chain.insert_stored h.good content hd with hd | hd
    · rcases h.among d hd with hd | ⟨x, hx, hxd⟩
      · exact .inl hd
      · exact .inr ⟨x, List.mem_append_left _ hx, hxd⟩
    · exact .inr ⟨e, List.mem_append_right _ (List.mem_singleton.2 rfl), hd⟩
  · rw [hroot]; exact hnext

/-- A whole parent-first run. -/
theorem Settled.insertAll {start : Envelope} {es : List Envelope} {root : EnvelopeDigest} (hes : ParentFirst es)
    (content : ∀ e ∈ es, e.toSignedPortion ∈ W.contents)
    (hparent : ∀ e ∈ es, ∀ p v, e.prev = some p → W.StateOf p v → Desc W.prev root p →
      p = root ∨ ∃ x ∈ es, x.digest = .ok p) :
    ∀ (post : List Envelope) {pre : List Envelope} {chain : Chain} {s : MemStorage}, chain.root = root →
      es = pre ++ post → Settled W start pre chain s →
        Settled W start es (chain.insertAll post s).1 (chain.insertAll post s).2 ∧ (chain.insertAll post s).1.root = root
  | [], pre, chain, s, hroot, hsplit, h => by
    rw [List.append_nil] at hsplit; subst hsplit; exact ⟨h, hroot⟩
  | e :: post, pre, chain, s, hroot, hsplit, h => by
    subst hroot
    have hmem : e ∈ es := by rw [hsplit]; simp
    obtain ⟨hnext, hroot'⟩ := h.insert (content e hmem) fun p v hp hv hdesc =>
      (hparent e hmem p v hp hv hdesc).imp_right fun hin => hes pre e post hsplit p hp hin
    exact Settled.insertAll hes content hparent post hroot' (by simp [hsplit]) hnext

end Settled

/-! ## Two runs compared -/

/-- Over one world, what is stored decides how it is stored. -/
theorem Coherent.envelope_eq {W : World} {base : EnvelopeDigest} {s t : MemStorage} (hs : Coherent W base s)
    (ht : Coherent W base t) (hstored : ∀ d, s.Stored d ↔ t.Stored d) (hbase : s.envelope base = t.envelope base) :
    s.envelope = t.envelope := by
  funext d
  by_cases hd : d = base
  · subst hd; exact hbase
  · cases he : s.envelope d with
    | none =>
      cases he' : t.envelope d with
      | none => rfl
      | some e' =>
        obtain ⟨e, h⟩ := (hstored d).2 ⟨e', he'⟩
        rw [he] at h; cases h
    | some e =>
      obtain ⟨e', he'⟩ := (hstored d).1 ⟨e, he⟩
      rw [he', hs.envelope_unique ht he he' hd hd]

/-- Two runs from one root that everything went by in store the same envelopes the same way. -/
theorem Settled.envelope_eq {W : World} {start : Envelope} {es es' : List Envelope} {chain chain' : Chain}
    {s t : MemStorage} (h : Settled W start es chain s) (h' : Settled W start es' chain' t) (hroot : chain'.root = chain.root)
    (hes : ∀ d v, W.StateOf d v → d = chain.root ∨ ∃ x ∈ es, x.digest = .ok d)
    (hes' : ∀ d v, W.StateOf d v → d = chain.root ∨ ∃ x ∈ es', x.digest = .ok d) : s.envelope = t.envelope := by
  have hco := h.good.coherent
  have hco' := h'.good.coherent
  have hstored' := h'.stored
  have hstart := h'.root
  rw [hroot] at hco' hstored' hstart
  refine hco.envelope_eq hco' (fun d => ⟨fun hd => ?_, fun hd => ?_⟩) (h.root.trans hstart.symm)
  · obtain ⟨v, hv⟩ := hco.exists_state hd
    exact hstored' d v hv ((hco.desc hd).mono hco.extends) (hes' d v hv)
  · obtain ⟨v, hv⟩ := hco'.exists_state hd
    exact h.stored d v hv ((hco'.desc hd).mono hco'.extends) (hes d v hv)

/-- Chains over one world at one head have one state there. -/
theorem Good.same_checkpoint {W : World} {chain chain' : Chain} {s t : MemStorage} (h : Good W chain s) (h' : Good W chain' t)
    (hhead : chain.head = chain'.head) : ∃ state, chain.checkpoint s = .ok state ∧ chain'.checkpoint t = .ok state := by
  obtain ⟨v, hv⟩ := h.pathHeld _ h.tip.canonical
  obtain ⟨v', hv'⟩ := h'.pathHeld _ h'.tip.canonical
  have hstate := (h.coherent.versions _ _ hv).2
  rw [hhead] at hstate
  obtain rfl := hstate.unique (h'.coherent.versions _ _ hv').2
  exact ⟨⟨v⟩, Ledger.checkpoint_eq_ok hv, Ledger.checkpoint_eq_ok hv'⟩

/-- Chains over one world with one log from one root have one head and one state there. -/
theorem Good.same_head {W : World} {chain chain' : Chain} {s t : MemStorage} (h : Good W chain s) (h' : Good W chain' t)
    (hroot : chain.root = chain'.root) (henv : s.envelope = t.envelope) :
    chain.head = chain'.head ∧ ∃ state, chain.checkpoint s = .ok state ∧ chain'.checkpoint t = .ok state := by
  have hparent : s.parent = t.parent := by
    funext d; simp only [MemStorage.parent, henv]
  have hrank : s.rank = t.rank := by
    funext d; simp only [MemStorage.rank, MemStorage.weight, henv]
  have hhead : chain.head = chain'.head := by
    have htip := h'.tip
    rw [← hparent, ← hrank, ← hroot] at htip
    exact Tip.unique s.rank_injective h.tip htip
  exact ⟨hhead, h.same_checkpoint h' hhead⟩

/-- A chain of one envelope is settled with nothing gone by. -/
theorem settled_single {W : World} {e : Envelope} {d : EnvelopeDigest} {v : Version} (clock : StoredAt)
    (hd : e.digest = .ok d) (content : e.toSignedPortion ∈ W.contents) (hv : W.StateOf d v) :
    Settled W e [] ⟨d, ⟨d⟩⟩ (((MemStorage.empty clock).install d v).putEnvelope d e) := by
  have hgood : Good W ⟨d, ⟨d⟩⟩ (((MemStorage.empty clock).install d v).putEnvelope d e) := Good.single hd content hv
  have honly : ∀ x, (((MemStorage.empty clock).install d v).putEnvelope d e).Stored x → x = d := by
    rintro x ⟨e', he'⟩
    rw [MemStorage.envelope_putEnvelope] at he'
    split at he'
    · rename_i heq
      exact heq.symm
    · simp [MemStorage.empty, MemStorage.envelope, MemStorage.loggedEnvelope, MemStorage.install] at he'
  refine ⟨hgood, by rw [MemStorage.envelope_putEnvelope, if_pos rfl], fun x hx => ?_, fun x hx => .inl (honly x hx),
    fun x w _ _ hx => ?_⟩
  · rw [honly x hx]; exact hgood.coherent.base_held
  · rcases hx with rfl | ⟨y, hy, -⟩
    · exact hgood.coherent.base_stored
    · cases hy

/-- Any two parent-first orders of the same envelopes, each inserted one by one after the same
`Init`, end with the same log, head and checkpoint. -/
theorem converge {start : Envelope} {es es' : List Envelope} (collisionFree : CollisionFree (contentsOf (start :: es)))
    (perm : es.Perm es') (parentFirst : ParentFirst es) (parentFirst' : ParentFirst es') {clock : StoredAt} {chain : Chain}
    {s : MemStorage} (run : Chain.init start (MemStorage.empty clock) = (.ok chain, s)) (clock' : StoredAt) :
    ∃ s', Chain.init start (MemStorage.empty clock') = (.ok chain, s') ∧
      (chain.insertAll es s).2.envelope = (chain.insertAll es' s').2.envelope ∧
      (chain.insertAll es s).1.head = (chain.insertAll es' s').1.head ∧
      ∃ state, (chain.insertAll es s).1.checkpoint (chain.insertAll es s).2 = .ok state ∧
        (chain.insertAll es' s').1.checkpoint (chain.insertAll es' s').2 = .ok state := by
  obtain ⟨msg, status, d, hmsg, hcheck, hd, hver, rfl, rfl⟩ := init_eq_ok run
  have laws := digestLaws_of_parentFirst hmsg collisionFree parentFirst
  have hstart : start.toSignedPortion ∈ contentsOf (start :: es) := ⟨start, List.mem_cons_self, rfl⟩
  let W : World := ⟨contentsOf (start :: es), laws, d, msg.state.namespaces, validateCheckpoint_ruled hcheck, by
    intro e he hde msg' hmsg'
    rw [laws.collisionFree _ he _ hstart d hde hd, hmsg] at hmsg'
    cases hmsg'
    exact ⟨hcheck, rfl⟩⟩
  have content : ∀ e ∈ es, e.toSignedPortion ∈ W.contents := fun e he => ⟨e, List.mem_cons_of_mem _ he, rfl⟩
  have hstate : ∀ p v, W.StateOf p v → p = W.genesis ∨ ∃ x ∈ es, x.digest = .ok p := by
    intro p v hv
    by_cases hp : p = W.genesis
    · exact .inl hp
    · obtain ⟨q, w, e, -, content, hacc⟩ := hv.exists_parent hp
      obtain ⟨x, hx, hxp, -⟩ := exists_of_names hmsg ⟨_, content, hacc.digest, hacc.prev⟩
      exact .inr ⟨x, hx, hxp⟩
  have hstate' : ∀ p v, W.StateOf p v → p = W.genesis ∨ ∃ x ∈ es', x.digest = .ok p := fun p v hv =>
    (hstate p v hv).imp_right fun ⟨x, hx, hxp⟩ => ⟨x, perm.mem_iff.1 hx, hxp⟩
  obtain ⟨hs, hroot⟩ := Settled.insertAll (W := W) parentFirst content (fun _ _ p v _ hv _ => hstate p v hv) es rfl rfl
    (settled_single clock (e := start.setVerificationStatus status) hd hstart .genesis)
  obtain ⟨hs', hroot'⟩ := Settled.insertAll (W := W) parentFirst' (fun e he => content e (perm.mem_iff.2 he))
    (fun _ _ p v _ hv _ => hstate' p v hv) es' rfl rfl
    (settled_single clock' (e := start.setVerificationStatus status) hd hstart .genesis)
  have henv := hs.envelope_eq hs' (hroot'.trans hroot.symm) (hroot ▸ hstate) (hroot ▸ hstate')
  exact ⟨_, init_of_valid clock' hmsg hcheck hd hver, henv, hs.good.same_head hs'.good (hroot.trans hroot'.symm) henv⟩

end IrohLotus.State

/-! ## The samples -/

namespace IrohLotus.State

open Std Outcome Forest IrohLotus.Wire IrohLotus.Wire.Sample IrohLotus.Storage

theorem parentFirst_sample : ParentFirst [first, second, other] ∧ ParentFirst [other, first, second] := by
  -- what `first` and `other` name is not in the list, and `second` comes after `first`
  have hnone : ∀ x ∈ [first, second, other], x.digest ≠ .ok genesisDigest := by decide +kernel
  have hnone' : ∀ x ∈ [other, first, second], x.digest ≠ .ok genesisDigest := by decide +kernel
  have hfirst : first.digest = .ok firstDigest := by decide +kernel
  constructor
  · rintro pre e post hsplit p hp ⟨x, hx, hxp⟩
    match pre, hsplit with
    | [], hsplit => cases hsplit; cases hp; exact absurd hxp (hnone x hx)
    | [_], hsplit => cases hsplit; cases hp; exact ⟨first, by simp, hfirst⟩
    | [_, _], hsplit => cases hsplit; cases hp; exact absurd hxp (hnone x hx)
    | _ :: _ :: _ :: _, hsplit => simp at hsplit
  · rintro pre e post hsplit p hp ⟨x, hx, hxp⟩
    match pre, hsplit with
    | [], hsplit => cases hsplit; cases hp; exact absurd hxp (hnone' x hx)
    | [_], hsplit => cases hsplit; cases hp; exact absurd hxp (hnone' x hx)
    | [_, _], hsplit => cases hsplit; cases hp; exact ⟨first, by simp, hfirst⟩
    | _ :: _ :: _ :: _, hsplit => simp at hsplit

theorem converge_sample :
    [first, second, other].Perm [other, first, second] ∧
      ∃ s', Chain.init genesis (MemStorage.empty 1) = (.ok ⟨genesisDigest, ⟨genesisDigest⟩⟩, s') ∧
      ((Chain.mk genesisDigest ⟨genesisDigest⟩).insertAll [first, second, other] genesisStore).2.envelope =
        ((Chain.mk genesisDigest ⟨genesisDigest⟩).insertAll [other, first, second] s').2.envelope ∧
      ((Chain.mk genesisDigest ⟨genesisDigest⟩).insertAll [first, second, other] genesisStore).1.head =
        ((Chain.mk genesisDigest ⟨genesisDigest⟩).insertAll [other, first, second] s').1.head := by
  have hmem : ∀ e ∈ [genesis, first, second, other], e.toSignedPortion ∈ table.map Prod.fst := by decide +kernel
  have hcf : CollisionFree (contentsOf [genesis, first, second, other]) := by
    rintro _ ⟨a, ha, rfl⟩ _ ⟨b, hb, rfl⟩ d hda hdb
    exact sample_laws.collisionFree _ (hmem a ha) _ (hmem b hb) d hda hdb
  have hrun : Chain.init genesis (MemStorage.empty 0) = (.ok ⟨genesisDigest, ⟨genesisDigest⟩⟩, genesisStore) := by
    decide +kernel
  have hperm : [first, second, other].Perm [other, first, second] := by decide +kernel
  obtain ⟨s', hrun', henv, hhead, -⟩ := converge hcf hperm parentFirst_sample.1 parentFirst_sample.2 hrun 1
  exact ⟨hperm, s', hrun', henv, hhead⟩

end IrohLotus.State
