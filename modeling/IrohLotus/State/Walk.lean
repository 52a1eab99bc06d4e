/-
The walk of `canonicalize` is greedy fork choice over the log. Whatever the store, a walk that
succeeds ended at the tip; on a coherent store it succeeds, and where every envelope on the way is
held it writes nothing.
-/
import IrohLotus.State.Coherent

namespace IrohLotus.State

open Std Outcome Forest IrohLotus.Wire IrohLotus.Storage

/-! ## The winner of a fork -/

/-- What `max_by_key` compares. -/
def rankOf (c : UInt32 × EnvelopeDigest × Envelope) : ℕ ×ₗ ℕ := toLex (c.1.toNat, c.2.1.hash.toNat)

theorem rankLe_iff (a b : UInt32 × EnvelopeDigest × Envelope) :
    rankLe (a.1, a.2.1) (b.1, b.2.1) = true ↔ rankOf a ≤ rankOf b := by
  simp only [rankLe, rankOf, Prod.Lex.toLex_le_toLex, Bool.or_eq_true, Bool.and_eq_true, decide_eq_true_eq, beq_iff_eq,
    BitVec.le_def, UInt32.lt_iff_toNat_lt, UInt32.toNat_inj]

/-- The fold of `max_by_key` from a candidate keeps the greatest of it and the rest. -/
theorem maxByKey_foldl : ∀ (l : List (UInt32 × EnvelopeDigest × Envelope)) (b : UInt32 × EnvelopeDigest × Envelope),
    ∃ c, l.foldl (fun best c =>
        match best with
        | none => some c
        | some b => if rankLe (b.1, b.2.1) (c.1, c.2.1) then some c else some b) (some b) = some c ∧
      (c = b ∨ c ∈ l) ∧ rankOf b ≤ rankOf c ∧ ∀ x ∈ l, rankOf x ≤ rankOf c
  | [], b => ⟨b, rfl, .inl rfl, le_rfl, nofun⟩
  | x :: l, b => by
    rw [List.foldl_cons]
    by_cases hle : rankLe (b.1, b.2.1) (x.1, x.2.1) = true
    · obtain ⟨c, hc, hmem, hb, hall⟩ := maxByKey_foldl l x
      have hbx := (rankLe_iff b x).1 hle
      refine ⟨c, by simp only [hle, if_true]; exact hc, .inr ?_, hbx.trans hb, ?_⟩
      · rcases hmem with rfl | hm
        · exact List.mem_cons_self
        · exact List.mem_cons_of_mem _ hm
      · intro y hy
        rcases List.mem_cons.1 hy with rfl | hy
        · exact hb
        · exact hall y hy
    · obtain ⟨c, hc, hmem, hb, hall⟩ := maxByKey_foldl l b
      have hxb : rankOf x ≤ rankOf b := (le_total _ _).resolve_right fun h => hle ((rankLe_iff b x).2 h)
      refine ⟨c, by simp only [hle]; exact hc, ?_, hb, ?_⟩
      · exact hmem.imp_right (List.mem_cons_of_mem _)
      · intro y hy
        rcases List.mem_cons.1 hy with rfl | hy
        · exact hxb.trans hb
        · exact hall y hy

theorem maxByKey_cases (l : List (UInt32 × EnvelopeDigest × Envelope)) :
    (l = [] ∧ maxByKey l = none) ∨ ∃ c ∈ l, maxByKey l = some c ∧ ∀ x ∈ l, rankOf x ≤ rankOf c := by
  cases l with
  | nil => exact .inl ⟨rfl, rfl⟩
  | cons x l =>
    obtain ⟨c, hc, hmem, hx, hall⟩ := maxByKey_foldl l x
    refine .inr ⟨c, ?_, hc, ?_⟩
    · rcases hmem with rfl | hm
      · exact List.mem_cons_self
      · exact List.mem_cons_of_mem _ hm
    · intro y hy
      rcases List.mem_cons.1 hy with rfl | hy
      · exact hx
      · exact hall y hy

theorem mapM_eq_ok {α β E : Type} {f : α → Res E β} : ∀ (l : List α), (∀ a ∈ l, ∃ b, f a = .ok b) →
    ∃ bs, l.mapM f = .ok bs ∧ ∀ b, b ∈ bs ↔ ∃ a ∈ l, f a = .ok b
  | [], _ => ⟨[], rfl, by simp⟩
  | a :: l, h => by
    obtain ⟨b, hb⟩ := h a List.mem_cons_self
    obtain ⟨bs, hbs, hmem⟩ := mapM_eq_ok l fun a ha => h a (List.mem_cons_of_mem _ ha)
    refine ⟨b :: bs, ?_, fun b' => ?_⟩
    · simp only [List.mapM_cons, hb, hbs, Res.ok_bind]; rfl
    · rw [List.mem_cons, hmem]
      constructor
      · rintro (rfl | ⟨a', ha', hb'⟩)
        · exact ⟨a, List.mem_cons_self, hb⟩
        · exact ⟨a', List.mem_cons_of_mem _ ha', hb'⟩
      · rintro ⟨a', ha', hb'⟩
        rcases List.mem_cons.1 ha' with rfl | ha'
        · rw [hb] at hb'; cases hb'; exact .inl rfl
        · exact .inr ⟨a', ha', hb'⟩

namespace Chain

section Candidates

variable {s : MemStorage}

/-- The candidates are the stored children, each with the weight and the envelope it is stored with;
the index names nothing else, so the `expect` holds. -/
theorem candidates_eq_ok (hi : s.Indexed) (x : EnvelopeDigest) :
    ∃ cs, candidates s x = .ok cs ∧ ∀ c : UInt32 × EnvelopeDigest × Envelope,
      c ∈ cs ↔ s.parent c.2.1 = some x ∧ s.envelope c.2.1 = some c.2.2 ∧ c.1 = s.weight c.2.1 := by
  have hf : ∀ {d : EnvelopeDigest} {e : Envelope}, s.envelope d = some e → (do
      let envelope ← Res.expect (E := Error) (s.envelope d) "children indexes only stored envelopes"
      pure (envelope.verificationStatus.signatureWeight, d, envelope)) = .ok (s.weight d, d, e) := by
    intro d e he
    simp only [he, Res.expect_some, Res.ok_bind, MemStorage.weight, Option.elim_some]; rfl
  obtain ⟨cs, hcs, hmem⟩ := mapM_eq_ok (s.children x) fun d hd => by
    obtain ⟨e, he⟩ := s.stored_of_parent (hi.mem_children.1 hd)
    exact ⟨_, hf he⟩
  refine ⟨cs, hcs, fun c => ?_⟩
  rw [hmem]
  constructor
  · rintro ⟨d, hd, hc⟩
    have hp := hi.mem_children.1 hd
    obtain ⟨e, he⟩ := s.stored_of_parent hp
    rw [hf he] at hc
    cases hc
    exact ⟨hp, he, rfl⟩
  · rintro ⟨hp, he, hw⟩
    refine ⟨c.2.1, hi.mem_children.2 hp, ?_⟩
    rw [hf he, ← hw]

theorem ledger_open_eq_ok {head : EnvelopeDigest} (h : s.Held head) : Ledger.open s head = .ok ⟨head⟩ := by
  unfold Ledger.open; rw [if_pos (s.held_iff.2 h)]; rfl

end Candidates

/-! ## The walk -/

/-- What a walk from `x` to `h` leaves of `s`: its log, and the versions of the path beside those
there were. -/
structure Walked (s t : MemStorage) (x h : EnvelopeDigest) : Prop where
  sameLog : s.SameLog t
  grows : s.Grows t
  tip : Tip s.parent s.rank x h
  held : ∀ y, Canonical s.parent s.rank x y → t.Held y
  fresh : ∀ y, t.Held y → s.Held y ∨ Canonical s.parent s.rank x y

/-- The walk stops where it stands at a childless head. -/
theorem walked_here {s : MemStorage} {x : EnvelopeDigest} (hx : s.Held x) (hn : ∀ c, s.parent c ≠ some x) :
    Walked s s x x := by
  refine ⟨MemStorage.SameLog.refl, fun _ _ hv => hv, ⟨Canonical.refl, hn⟩, fun y hy => ?_, fun _ hy => .inl hy⟩
  rcases Relation.ReflTransGen.cases_head hy with rfl | ⟨c, hc, -⟩
  · exact hx
  · exact absurd hc.child (hn c)

/-- A step to the winner, and the walk from there. -/
theorem Walked.winner {s t u : MemStorage} {x c h : EnvelopeDigest} (hrest : Walked t u c h) (hx : s.Held x)
    (hw : Winner s.parent s.rank x c) (hlog : s.SameLog t) (hgrow : s.Grows t) (hnew : ∀ y, t.Held y → s.Held y ∨ y = c) :
    Walked s u x h := by
  have htip := hrest.tip
  have hheld := hrest.held
  have hfresh := hrest.fresh
  have hc := Canonical.refl.winner hw
  rw [hlog.parent, hlog.rank] at htip hheld hfresh
  refine ⟨hlog.trans hrest.sameLog, fun d v hv => hrest.grows d v (hgrow d v hv),
    ⟨hc.trans htip.canonical, htip.childless⟩, fun y hy => ?_, fun y hy => ?_⟩
  · rcases Relation.ReflTransGen.cases_head hy with rfl | ⟨c', hc', hy⟩
    · exact hrest.grows.held (hgrow.held hx)
    · obtain rfl := Winner.unique s.rank_injective hw hc'
      exact hheld y hy
  · rcases hfresh y hy with hy | hy
    · rcases hnew y hy with hy | rfl
      · exact .inl hy
      · exact .inr hc
    · exact .inr (hc.trans hy)

variable [Externals] {s t : MemStorage}

/-- What one step of the walk can do: stop at a childless head, open the winner's version, or apply
the winner where its version is not held. -/
theorem step_cases (hi : s.Indexed) (x : EnvelopeDigest) :
    ((∀ c, s.parent c ≠ some x) ∧ step ⟨x⟩ s = (.ok none, s)) ∨
    ∃ c e, Winner s.parent s.rank x c ∧ s.envelope c = some e ∧
      ((s.Held c ∧ step ⟨x⟩ s = (.ok (some ⟨c⟩), s)) ∨
       (¬ s.Held c ∧ (∀ l t, (Ledger.mk x).apply e s = (.ok l, t) → step ⟨x⟩ s = (.ok (some l), t)) ∧
        ∀ halt t, (Ledger.mk x).apply e s = (.error halt, t) →
          ∃ halt' t', step ⟨x⟩ s = (.error halt', t') ∧ (t' = t ∨ t' = t.removeEnvelope c))) := by
  obtain ⟨cs, hcs, hmem⟩ := candidates_eq_ok hi x
  have hread : Action.read (fun s => candidates s (Ledger.mk x).head) s = (.ok cs, s) := by
    rw [Action.read, hcs]
  unfold step
  rw [Action.bind_ok hread]
  rcases maxByKey_cases cs with ⟨rfl, hmax⟩ | ⟨⟨w, c, e⟩, hc, hmax, hbest⟩
  · refine .inl ⟨fun c hc => ?_, by rw [hmax]; rfl⟩
    obtain ⟨e, he⟩ := s.stored_of_parent hc
    exact absurd ((hmem (s.weight c, c, e)).2 ⟨hc, he, rfl⟩) List.not_mem_nil
  · obtain ⟨hp, he, hw⟩ := (hmem _).1 hc
    dsimp only at hp he hw
    subst hw
    have hwin : Winner s.parent s.rank x c := by
      refine ⟨hp, fun c' hc' => ?_⟩
      obtain ⟨e', he'⟩ := s.stored_of_parent hc'
      exact hbest _ ((hmem (s.weight c', c', e')).2 ⟨hc', he', rfl⟩)
    refine .inr ⟨c, e, hwin, he, ?_⟩
    rw [hmax]
    dsimp only
    have hver : Action.read (E := Error) (fun s => pure (s.containsVersion c)) s = (.ok (s.containsVersion c), s) := rfl
    rw [Action.bind_ok hver]
    by_cases hheld : s.Held c
    · refine .inl ⟨hheld, ?_⟩
      have hopen : Action.read (fun s => Ledger.open s c) s = (.ok ⟨c⟩, s) := by
        rw [Action.read, ledger_open_eq_ok hheld]
      rw [if_pos (s.held_iff.2 hheld), Action.bind_ok hopen]; rfl
    · refine .inr ⟨hheld, fun l t happ => ?_, fun halt t happ => ?_⟩
      · rw [if_neg (mt s.held_iff.1 hheld), Action.bind_ok (Action.attempt_ok happ)]; rfl
      · rw [if_neg (mt s.held_iff.1 hheld)]
        cases halt with
        | error e =>
          rw [Action.bind_ok (Action.attempt_error happ)]
          by_cases hst : e = .storage
          · subst hst; exact ⟨_, _, rfl, .inl rfl⟩
          · refine ⟨.error (.apply e), t.removeEnvelope c, ?_, .inr rfl⟩
            cases e <;> first | exact absurd rfl hst | rfl
        | panic message => exact ⟨_, _, Action.bind_error (Action.attempt_panic happ) _, .inl rfl⟩
        | hang => exact ⟨_, _, Action.bind_error (Action.attempt_hang happ) _, .inl rfl⟩

/-- A store whose log keys every envelope by its digest. -/
def Keyed (s : MemStorage) : Prop := ∀ d e, s.envelope d = some e → e.digest = .ok d

/-- A walk that succeeds ended at the tip. -/
theorem walk_eq_ok : ∀ {fuel : Nat} {x : EnvelopeDigest} {s u : MemStorage} {l : Ledger}, s.Indexed → Keyed s → s.Held x →
    walk fuel ⟨x⟩ s = (.ok l, u) → Walked s u x l.head
  | 0, _, _, _, _, _, _, _, h => by cases h
  | fuel + 1, x, s, u, l, hi, hk, hx, h => by
    rcases step_cases hi x with ⟨hn, hstep⟩ | ⟨c, e, hw, he, hcases⟩
    · rw [walk, Action.bind_ok hstep] at h
      cases h
      exact walked_here hx hn
    · rcases hcases with ⟨hheld, hstep⟩ | ⟨hheld, hok, herr⟩
      · rw [walk, Action.bind_ok hstep] at h
        exact (walk_eq_ok hi hk hheld h).winner hx hw MemStorage.SameLog.refl (fun _ _ hv => hv) fun _ hy => .inl hy
      · obtain ⟨v, hv⟩ := hx
        rcases apply_cases_at hv e with ⟨head, op, v', hc, -, happ⟩ | ⟨err, -, -, happ⟩
        · obtain rfl : c = head := by
            have := (Ledger.checked_eq_ok hc).2.1
            rw [hk c e he] at this; exact Except.ok.inj this
          rw [walk, Action.bind_ok (hok _ _ happ)] at h
          have hrest := walk_eq_ok (s := s.install c v') (hi.install c v') hk
            ⟨v', by rw [MemStorage.versions_install, if_pos rfl]⟩ h
          exact hrest.winner ⟨v, hv⟩ hw (s.sameLog_install c v') (s.grows_install hheld v') fun _ => MemStorage.held_install.1
        · obtain ⟨halt, t, hstep, -⟩ := herr _ _ happ
          rw [walk, Action.bind_error hstep] at h
          cases h

/-- Where every envelope on the way is held, the walk goes to the tip and writes nothing. Its start
need not be in the log. -/
theorem walk_held (hi : s.Indexed) (hac : Acyclic s.parent) : ∀ {fuel : Nat} {x : EnvelopeDigest},
    (∀ y, Canonical s.parent s.rank x y → s.Held y) → 0 < fuel →
    (∀ c, s.parent c = some x → (below s.parent s.digests c).card < fuel) →
      ∃ h, walk fuel ⟨x⟩ s = (.ok ⟨h⟩, s) ∧ Tip s.parent s.rank x h
  | 0, _, _, hpos, _ => by omega
  | fuel + 1, x, hheld, _, hfuel => by
    rcases step_cases hi x with ⟨hn, hstep⟩ | ⟨c, e, hw, he, hcases⟩
    · exact ⟨x, by rw [walk, Action.bind_ok hstep]; rfl, Canonical.refl, hn⟩
    · rcases hcases with ⟨-, hstep⟩ | ⟨hc, -⟩
      · have hcn : c ∈ s.digests := s.mem_digests.2 ⟨e, he⟩
        have hpos : 0 < (below s.parent s.digests c).card := card_below_pos hcn
        have hlt := hfuel c hw.child
        have hnext : ∀ c', s.parent c' = some c → (below s.parent s.digests c').card < fuel := by
          intro c' hc'
          have := below_lt hac hc' hcn
          omega
        obtain ⟨h, hrun, htip⟩ := walk_held hi hac (fun y hy => hheld y ((Canonical.refl.winner hw).trans hy))
          (by omega) hnext
        exact ⟨h, by rw [walk, Action.bind_ok hstep]; exact hrun,
          (Canonical.refl.winner hw).trans htip.canonical, htip.childless⟩
      · exact absurd (hheld c (Canonical.refl.winner hw)) hc

/-- On a coherent store the walk succeeds even where versions are missing: a winner without one was
accepted on its parent's state, so it applies again. -/
theorem walk_coherent {W : World} {base : EnvelopeDigest} : ∀ {fuel : Nat} {x : EnvelopeDigest} {s : MemStorage},
    Coherent W base s → s.Held x → (below s.parent s.digests x).card ≤ fuel →
      ∃ h t, walk fuel ⟨x⟩ s = (.ok ⟨h⟩, t) ∧ Coherent W base t ∧ Walked s t x h
  | 0, x, s, hco, hx, hfuel => by
    obtain ⟨v, hv⟩ := hx
    have hpos : 0 < (below s.parent s.digests x).card := card_below_pos (s.mem_digests.2 (hco.versions x v hv).1)
    omega
  | fuel + 1, x, s, hco, hx, hfuel => by
    obtain ⟨v, hv⟩ := hx
    have hxs := (hco.versions x v hv).1
    rcases step_cases hco.indexed x with ⟨hn, hstep⟩ | ⟨c, e, hw, he, hcases⟩
    · exact ⟨x, s, by rw [walk, Action.bind_ok hstep]; rfl, hco, walked_here ⟨v, hv⟩ hn⟩
    · have hlt := below_lt hco.acyclic hw.child (s.mem_digests.2 hxs)
      rcases hcases with ⟨hheld, hstep⟩ | ⟨hheld, hok, -⟩
      · have hle : (below s.parent s.digests c).card ≤ fuel := by omega
        obtain ⟨h, t, hrun, ht, hwalk⟩ := walk_coherent hco hheld hle
        exact ⟨h, t, by rw [walk, Action.bind_ok hstep]; exact hrun, ht,
          hwalk.winner ⟨v, hv⟩ hw MemStorage.SameLog.refl (fun _ _ hv => hv) fun _ hy => .inl hy⟩
      · have hne : c ≠ base := by
          rintro rfl; exact hco.not_desc_base hxs hw.child
        obtain ⟨v', hacc, hstate⟩ := hco.accepted_at he hne (by rw [← s.parent_of_envelope he]; exact hw.child) hv
        have hco' : Coherent W base (s.install c v') := hco.install ⟨e, he⟩ hstate
        have hle : (below (s.install c v').parent (s.install c v').digests c).card ≤ fuel :=
          Nat.le_of_lt_succ (hlt.trans_le hfuel)
        obtain ⟨h, t, hrun, ht, hwalk⟩ := walk_coherent hco' ⟨v', by rw [MemStorage.versions_install, if_pos rfl]⟩ hle
        exact ⟨h, t, by rw [walk, Action.bind_ok (hok _ _ (hacc.apply hv))]; exact hrun, ht,
          hwalk.winner ⟨v, hv⟩ hw (s.sameLog_install c v') (s.grows_install hheld v') fun _ => MemStorage.held_install.1⟩

/-- What the walk relies on: it never meets an envelope without a version. -/
def PathHeld (base : EnvelopeDigest) (s : MemStorage) : Prop := ∀ y, Canonical s.parent s.rank base y → s.Held y

theorem canonicalize_eq {chain : Chain} (hroot : s.Held chain.root) :
    chain.canonicalize s = walk (s.envelopes.size + 1) ⟨chain.root⟩ s := by
  have hopen : Action.read (fun s => Ledger.open s chain.root) s = (.ok ⟨chain.root⟩, s) := by
    rw [Action.read, ledger_open_eq_ok hroot]
  have hfuel : Action.read (E := Error) (fun s => pure (s.envelopes.size + 1)) s = (.ok (s.envelopes.size + 1), s) := rfl
  unfold canonicalize
  rw [Action.bind_ok hopen, Action.bind_ok hfuel]

/-- `canonicalize` on a coherent store. -/
theorem canonicalize_coherent {W : World} {chain : Chain} (hco : Coherent W chain.root s) :
    ∃ h t, chain.canonicalize s = (.ok ⟨h⟩, t) ∧ Coherent W chain.root t ∧ Walked s t chain.root h := by
  rw [canonicalize_eq hco.base_held]
  exact walk_coherent hco hco.base_held ((card_below_le.trans s.card_digests_le).trans (Nat.le_succ _))

/-- `canonicalize` where the path is held. -/
theorem canonicalize_held {chain : Chain} (hi : s.Indexed) (hac : Acyclic s.parent) (hpath : PathHeld chain.root s) :
    ∃ h, chain.canonicalize s = (.ok ⟨h⟩, s) ∧ Tip s.parent s.rank chain.root h := by
  rw [canonicalize_eq (hpath _ Canonical.refl)]
  refine walk_held hi hac hpath (Nat.succ_pos _) fun c _ => ?_
  have hcard : (below s.parent s.digests c).card ≤ s.envelopes.size := card_below_le.trans s.card_digests_le
  omega

/-- Opening where the root is stored and the path held. -/
theorem open_held {root : EnvelopeDigest} (hi : s.Indexed) (hac : Acyclic s.parent) (hroot : s.Stored root)
    (hpath : PathHeld root s) : ∃ h, Chain.open root s = (.ok ⟨root, ⟨h⟩⟩, s) ∧ Tip s.parent s.rank root h := by
  obtain ⟨e, he⟩ := hroot
  have henv : Action.read (fun s => Res.okOr (s.envelope root) (Error.unknownHead root)) s = (.ok e, s) := by
    rw [Action.read, he]; rfl
  have hopen : Action.read (fun s => Ledger.open s root) s = (.ok ⟨root⟩, s) := by
    rw [Action.read, ledger_open_eq_ok (hpath _ Canonical.refl)]
  obtain ⟨h, hrun, htip⟩ := @canonicalize_held _ s ⟨root, ⟨root⟩⟩ hi hac hpath
  refine ⟨h, ?_, htip⟩
  unfold Chain.open
  rw [Action.bind_ok henv, Action.bind_ok hopen, Action.bind_ok hrun]; rfl

end Chain

end IrohLotus.State
