/-
What `ChangeDiffer::diff` walks. Both sides go down the log from their head in step; where they have
an ancestor in common they meet at the last one, and what each walked above it is the path from
there to its head.
-/
import IrohLotus.State.Change
import IrohLotus.State.Coherent

namespace IrohLotus.State

open Std Outcome Forest IrohLotus.Wire IrohLotus.Storage

/-! ## Trails down the log -/

/-- The envelopes read on the way from `x` down its parents, and the digest named next, if any. -/
inductive Trail (s : MemStorage) (x : EnvelopeDigest) : List (EnvelopeDigest × Envelope) → Option EnvelopeDigest → Prop
  | start : Trail s x [] (some x)
  | step {l : List (EnvelopeDigest × Envelope)} {y : EnvelopeDigest} {e : Envelope} (trail : Trail s x l (some y))
    (stored : s.envelope y = some e) : Trail s x (l ++ [(y, e)]) e.prev

/-- The trail came by `d`, or names it next. -/
def Reached (l : List (EnvelopeDigest × Envelope)) (next : Option EnvelopeDigest) (d : EnvelopeDigest) : Prop :=
  d ∈ l.map Prod.fst ∨ next = some d

namespace Trail

variable {s : MemStorage} {x d m : EnvelopeDigest} {l : List (EnvelopeDigest × Envelope)} {next : Option EnvelopeDigest}

theorem stored (h : Trail s x l next) : ∀ p ∈ l, s.envelope p.1 = some p.2 := by
  induction h with
  | start => exact nofun
  | @step l y e _ stored ih =>
    intro p hp
    rcases List.mem_append.1 hp with hp | hp
    · exact ih p hp
    · rw [List.mem_singleton.1 hp]; exact stored

theorem desc_next (h : Trail s x l next) : ∀ y, next = some y → Desc s.parent y x := by
  induction h with
  | start => intro y hy; cases hy; exact Desc.refl
  | @step l y e _ stored ih =>
    intro z hz
    exact (Desc.of_child (by rw [s.parent_of_envelope stored]; exact hz)).trans (ih y rfl)

/-- What a trail reached are the ancestors of its start, down to the one it names next. -/
theorem reached_iff (hac : Acyclic s.parent) (h : Trail s x l next) :
    Reached l next d ↔ Desc s.parent d x ∧ ∀ y, next = some y → Desc s.parent y d := by
  induction h with
  | start =>
    constructor
    · rintro (hd | hd)
      · cases hd
      · cases hd
        refine ⟨Desc.refl, fun y hy => ?_⟩
        cases hy; exact Desc.refl
    · rintro ⟨hdx, hnext⟩
      exact .inr (congrArg some (hac.antisymm (hnext x rfl) hdx))
  | @step l y e trail stored ih =>
    have hy : Desc s.parent y x := trail.desc_next y rfl
    have hparent : ∀ z, e.prev = some z → s.parent y = some z := fun z hz => by
      rw [s.parent_of_envelope stored]; exact hz
    constructor
    · rintro (hd | hd)
      · rw [List.map_append, List.mem_append] at hd
        have hdy : Desc s.parent d x ∧ Desc s.parent y d := by
          rcases hd with hd | hd
          · have := ih.1 (.inl hd)
            exact ⟨this.1, this.2 y rfl⟩
          · rw [List.mem_singleton.1 hd]; exact ⟨hy, Desc.refl⟩
        exact ⟨hdy.1, fun z hz => (Desc.of_child (hparent z hz)).trans hdy.2⟩
      · refine ⟨(Desc.of_child (hparent d hd)).trans hy, fun z hz => ?_⟩
        rw [hd] at hz; cases hz; exact Desc.refl
    · rintro ⟨hdx, hnext⟩
      unfold Reached
      rw [List.map_append, List.mem_append]
      by_cases hdy : d = y
      · subst hdy; exact .inl (.inr List.mem_cons_self)
      · rcases hdx.total hy with h | h
        · -- strictly below `y`: only the digest it names next is left
          obtain ⟨z, hz, hdz⟩ := h.exists_parent (Ne.symm hdy)
          have hprev : e.prev = some z := by rw [← s.parent_of_envelope stored]; exact hz
          exact .inr (by rw [hprev, hac.antisymm (hnext z hprev) hdz])
        · rcases ih.2 ⟨hdx, fun z hz => by cases hz; exact h⟩ with hd | hd
          · exact .inl (.inl hd)
          · cases hd; exact absurd rfl hdy

/-- The part of a trail above a digest it reached is the trail from its start down to there. -/
theorem above (h : Trail s x l next) (hm : Reached l next m) :
    Trail s x (l.takeWhile fun p => p.1 ≠ m) (some m) := by
  induction h with
  | start =>
    rcases hm with hm | hm
    · cases hm
    · cases hm; exact .start
  | @step l y e trail stored ih =>
    by_cases hml : m ∈ l.map Prod.fst
    · obtain ⟨p, hp, rfl⟩ := List.mem_map.1 hml
      rw [List.takeWhile_append, if_neg]
      · exact ih (.inl hml)
      · intro hlen
        have hall := List.takeWhile_eq_self_iff.1 (List.IsPrefix.eq_of_length (List.takeWhile_prefix _) hlen)
        simpa using hall p hp
    · have hall : l.takeWhile (fun p => decide (p.1 ≠ m)) = l := by
        refine List.takeWhile_eq_self_iff.2 fun p hp => ?_
        simp only [decide_eq_true_eq]
        rintro rfl
        exact hml (List.mem_map_of_mem hp)
      rw [List.takeWhile_append, if_pos (by rw [hall]), List.takeWhile_cons]
      by_cases hym : y = m
      · subst hym
        simpa using trail
      · simp only [ne_eq, hym, not_false_eq_true, decide_true, if_true, List.takeWhile_nil]
        rcases hm with hm | hm
        · rw [List.map_append, List.mem_append] at hm
          rcases hm with hm | hm
          · exact absurd hm hml
          · exact absurd (List.mem_singleton.1 hm).symm hym
        · rw [← hm]; exact .step trail stored

theorem mem_above (hac : Acyclic s.parent) (h : Trail s x l next) (hm : Reached l next m) :
    d ∈ (l.takeWhile fun p => p.1 ≠ m).map Prod.fst ↔ Desc s.parent d x ∧ Desc s.parent m d ∧ d ≠ m := by
  have hiff : Reached (l.takeWhile fun p => p.1 ≠ m) (some m) d ↔ _ := (h.above hm).reached_iff hac
  constructor
  · intro hd
    have hne : d ≠ m := by
      obtain ⟨p, hp, rfl⟩ := List.mem_map.1 hd
      simpa using List.mem_takeWhile_imp hp
    have := hiff.1 (.inl hd)
    exact ⟨this.1, this.2 m rfl, hne⟩
  · rintro ⟨hdx, hmd, hne⟩
    rcases hiff.2 ⟨hdx, fun y hy => by cases hy; exact hmd⟩ with hd | hd
    · exact hd
    · cases hd; exact absurd rfl hne

end Trail

/-! ## Branches -/

namespace Branch

/-- The digest a branch's walk stands at. -/
def position (b : Branch) : Option EnvelopeDigest :=
  match b.cursor with
  | .at digest => some digest
  | .stopped digest => digest

theorem mem_reached {b : Branch} {d : EnvelopeDigest} : d ∈ b.reached ↔ Reached b.walked b.position d := by
  rcases b with ⟨walked, _ | _ | _, set⟩ <;> simp [reached, Reached, position, eq_comm]

/-- A branch that walked down the log from `x`. -/
structure From (s : MemStorage) (x : EnvelopeDigest) (b : Branch) : Prop where
  trail : Trail s x b.walked b.position
  set : ∀ d, d ∈ b.reachedSet ↔ d ∈ b.reached

variable {s : MemStorage} {x base d m : EnvelopeDigest} {b b' : Branch}

theorem from_opened : From s x (opened x) := by
  refine ⟨.start, fun d => ?_⟩
  simp only [opened, reached, ExtTreeSet.mem_ofList, List.map_nil, List.nil_append]
  simp

theorem From.step (h : From s x b) : From s x (b.step s).2 := by
  obtain ⟨walked, cursor, set⟩ := b
  cases cursor with
  | stopped o => exact h
  | «at» y =>
    cases he : s.envelope y with
    | none =>
      simp only [Branch.step, he]
      exact ⟨h.trail, h.set⟩
    | some e =>
      have htrail : Trail s x (walked ++ [(y, e)]) e.prev := .step h.trail he
      have hset : ∀ d, d ∈ set ↔ d ∈ walked.map Prod.fst ++ [y] := h.set
      cases hp : e.prev with
      | none =>
        rw [hp] at htrail
        simp only [Branch.step, he, hp]
        refine ⟨htrail, fun d => ?_⟩
        simp [reached, hset d]
      | some p =>
        rw [hp] at htrail
        simp only [Branch.step, he, hp]
        refine ⟨htrail, fun d => ?_⟩
        simp only [reached, ExtTreeSet.mem_insert, Std.compare_eq_iff_eq, hset d, List.mem_append, List.map_append,
          List.map_cons, List.map_nil, List.mem_singleton]
        tauto

theorem reached_step (h : d ∈ b.reached) : d ∈ (b.step s).2.reached := by
  obtain ⟨walked, cursor, set⟩ := b
  cases cursor with
  | stopped o => exact h
  | «at» y =>
    cases he : s.envelope y with
    | none =>
      simp only [Branch.step, he]
      exact h
    | some e =>
      cases hp : e.prev with
      | none =>
        simp only [Branch.step, he, hp]
        simpa [reached] using h
      | some p =>
        simp only [Branch.step, he, hp]
        have hd : d ∈ walked.map Prod.fst ++ [y] := h
        simp only [reached, List.map_append]
        exact List.mem_append_left _ hd

/-- A branch has come by `base`, or has fewer than `fuel` envelopes to go until it does. -/
def Near (s : MemStorage) (base : EnvelopeDigest) (fuel : Nat) (b : Branch) : Prop :=
  base ∈ b.reached ∨ ∃ y, b.cursor = .at y ∧ Desc s.parent base y ∧ (Forest.above s.parent s.digests y).card < fuel

theorem near_opened (h : Desc s.parent base x) : Near s base (s.envelopes.size + 1) (opened x) := by
  refine .inr ⟨x, rfl, h, ?_⟩
  have hle : (Forest.above s.parent s.digests x).card ≤ s.digests.card := card_above_le
  have hsize := s.card_digests_le
  omega

theorem Near.step {fuel : Nat} (hac : Acyclic s.parent) (h : Near s base (fuel + 1) b) :
    Near s base fuel (b.step s).2 ∧ (base ∉ b.reached → (b.step s).1 = true) := by
  rcases h with h | ⟨y, hy, hdesc, hcard⟩
  · exact ⟨.inl (reached_step h), fun hn => absurd h hn⟩
  · obtain ⟨walked, cursor, set⟩ := b
    obtain rfl : cursor = .at y := hy
    by_cases hne : y = base
    · subst hne
      have hreached : y ∈ (Branch.mk walked (.at y) set).reached := by simp [reached]
      exact ⟨.inl (reached_step hreached), fun hn => absurd hreached hn⟩
    · obtain ⟨p, hp, hdp⟩ := hdesc.exists_parent hne
      obtain ⟨e, he, hprev⟩ := s.parent_eq_some.1 hp
      have hlt := above_lt hac hp (s.mem_digests.2 ⟨e, he⟩)
      simp only [Branch.step, he, hprev]
      exact ⟨.inr ⟨p, rfl, hdp, by omega⟩, fun _ => trivial⟩

/-- A branch that can still go on has fewer than `fuel` envelopes to read. -/
def Left (s : MemStorage) (fuel : Nat) (b : Branch) : Prop :=
  ∀ y, b.cursor = .at y → (Forest.above s.parent s.digests y).card < fuel

theorem left_opened : Left s (s.envelopes.size + 1) (opened x) := by
  intro y _
  have hle : (Forest.above s.parent s.digests y).card ≤ s.digests.card := card_above_le
  have hsize := s.card_digests_le
  omega

theorem Left.step {fuel : Nat} (hac : Acyclic s.parent) (h : Left s (fuel + 1) b) :
    Left s fuel (b.step s).2 := by
  obtain ⟨walked, cursor, set⟩ := b
  cases cursor with
  | stopped o => exact fun y hy => by cases hy
  | «at» y =>
    cases he : s.envelope y with
    | none =>
      simp only [Branch.step, he]
      exact fun z hz => by cases hz
    | some e =>
      cases hp : e.prev with
      | none =>
        simp only [Branch.step, he, hp]
        exact fun z hz => by cases hz
      | some p =>
        have hparent : s.parent y = some p := s.parent_eq_some.2 ⟨e, he, hp⟩
        have hlt := above_lt hac hparent (s.mem_digests.2 ⟨e, he⟩)
        have hy : (Forest.above s.parent s.digests y).card < fuel + 1 := h y rfl
        simp only [Branch.step, he, hp]
        intro z hz
        cases hz
        omega

/-- Branches that both came by `base` have met. -/
theorem meet_isSome (h' : ∀ d, d ∈ b'.reachedSet ↔ d ∈ b'.reached) (hb : base ∈ b.reached) (hb' : base ∈ b'.reached) :
    ∃ m, b.meet b' = some m := by
  refine Option.isSome_iff_exists.1 ?_
  unfold Branch.meet
  rw [List.find?_isSome]
  exact ⟨base, hb, ExtTreeSet.mem_iff_contains.1 ((h' base).2 hb')⟩

theorem meet_reached (h' : ∀ d, d ∈ b'.reachedSet ↔ d ∈ b'.reached) (hm : b.meet b' = some m) :
    m ∈ b.reached ∧ m ∈ b'.reached :=
  ⟨List.mem_of_find?_eq_some hm, (h' m).1 (ExtTreeSet.mem_iff_contains.2 (List.find?_some hm))⟩

theorem not_mem_of_find? {p : EnvelopeDigest → Bool} {tail : List EnvelopeDigest} :
    ∀ {l : List (EnvelopeDigest × Envelope)}, (l.map Prod.fst ++ tail).find? p = some m →
      ∀ q ∈ l.takeWhile (fun q => q.1 ≠ m), p q.1 = false
  | [], _, _, hq => nomatch hq
  | a :: l, hfind, q, hq => by
    rw [List.takeWhile_cons] at hq
    by_cases ham : a.1 = m
    · simp [ham] at hq
    · simp only [ne_eq, ham, not_false_eq_true, decide_true, if_true, List.mem_cons] at hq
      cases hp : p a.1 with
      | true =>
        rw [List.map_cons, List.cons_append, List.find?_cons_of_pos hp] at hfind
        exact absurd (Option.some.inj hfind) ham
      | false =>
        rcases hq with rfl | hq
        · exact hp
        · rw [List.map_cons, List.cons_append, List.find?_cons_of_neg (by simp [hp])] at hfind
          exact not_mem_of_find? hfind q hq

/-- The meeting point is the last common ancestor: nothing above it on one side is on the other. -/
theorem meet_above {x' : EnvelopeDigest} (hac : Acyclic s.parent) (h : From s x b) (h' : From s x' b')
    (hm : b.meet b' = some m) :
    d ∈ (b.above m).map Prod.fst ↔ Desc s.parent d x ∧ ¬ Desc s.parent d x' := by
  obtain ⟨hmb, hmb'⟩ := meet_reached h'.set hm
  have habove := h.trail.mem_above (d := d) hac (mem_reached.1 hmb)
  have hmx' := (h'.trail.reached_iff hac).1 (mem_reached.1 hmb')
  constructor
  · intro hd
    obtain ⟨hdx, hmd, hne⟩ := habove.1 hd
    refine ⟨hdx, fun hdx' => ?_⟩
    -- the other side has been by everything from its head down to the meeting point
    have hreached : d ∈ b'.reached :=
      mem_reached.2 ((h'.trail.reached_iff hac).2 ⟨hdx', fun y hy => (hmx'.2 y hy).trans hmd⟩)
    obtain ⟨q, hq, rfl⟩ := List.mem_map.1 hd
    have := not_mem_of_find? hm q hq
    rw [ExtTreeSet.mem_iff_contains.1 ((h'.set q.1).2 hreached)] at this
    cases this
  · rintro ⟨hdx, hdx'⟩
    have hmx := ((h.trail.reached_iff hac).1 (mem_reached.1 hmb)).1
    rcases hdx.total hmx with hle | hle
    · exact absurd (hle.trans hmx'.1) hdx'
    · refine habove.2 ⟨hdx, hle, ?_⟩
      rintro rfl
      exact hdx' hmx'.1

end Branch

/-! ## The differ -/

namespace ChangeDiffer

variable {s : MemStorage} {x x' base d : EnvelopeDigest}

/-- Two sides that come down to a common ancestor meet before the walk runs out. -/
theorem meetLoop_eq_ok (hac : Acyclic s.parent) :
    ∀ {fuel : Nat} {b b' : Branch}, b.From s x → b'.From s x' → b.Near s base fuel → b'.Near s base fuel →
      ∃ m undone made, meetLoop s x x' (fuel + 1) b b' = .ok (m, undone, made) ∧ undone.From s x ∧ made.From s x' ∧
        undone.meet made = some m := by
  intro fuel
  induction fuel with
  | zero =>
    intro b b' h h' hn hn'
    have hb : ∀ {b : Branch}, b.Near s base 0 → base ∈ b.reached := fun hn =>
      hn.resolve_right fun ⟨_, _, _, hlt⟩ => absurd hlt (Nat.not_lt_zero _)
    obtain ⟨m, hm⟩ := Branch.meet_isSome h'.set (hb hn) (hb hn')
    exact ⟨m, b, b', by simp only [meetLoop, hm]; rfl, h, h', hm⟩
  | succ fuel ih =>
    intro b b' h h' hn hn'
    cases hm : b.meet b' with
    | some m => exact ⟨m, b, b', by rw [meetLoop, hm]; rfl, h, h', hm⟩
    | none =>
      obtain ⟨hnear, hmoved⟩ := hn.step hac
      obtain ⟨hnear', hmoved'⟩ := hn'.step hac
      obtain ⟨m, undone, made, hloop, hrest⟩ := ih h.step h'.step hnear hnear'
      refine ⟨m, undone, made, ?_, hrest⟩
      rw [meetLoop, hm]
      -- one of the sides has not come by the ancestor yet, so it can go on
      have hsome : (b.step s).1 = true ∨ (b'.step s).1 = true := by
        by_cases hb : base ∈ b.reached
        · refine .inr (hmoved' fun hb' => ?_)
          obtain ⟨m, hm'⟩ := Branch.meet_isSome h'.set hb hb'
          rw [hm] at hm'; cases hm'
        · exact .inl (hmoved hb)
      simp only
      rw [if_neg (by rcases hsome with h | h <;> simp [h])]
      exact hloop

/-- Two sides that share no ancestor walk to the end of the log and say so. -/
theorem meetLoop_diverged (hac : Acyclic s.parent) (hno : ∀ d, Desc s.parent d x → ¬ Desc s.parent d x') :
    ∀ {fuel : Nat} {b b' : Branch}, b.From s x → b'.From s x' → b.Left s fuel → b'.Left s fuel →
      meetLoop s x x' (fuel + 1) b b' = Res.fail (.diverged x x') := by
  have hmeet : ∀ {b b' : Branch}, b.From s x → b'.From s x' → b.meet b' = none := by
    intro b b' h h'
    by_contra hsome
    obtain ⟨m, hm⟩ := Option.ne_none_iff_exists'.1 hsome
    obtain ⟨hmb, hmb'⟩ := Branch.meet_reached h'.set hm
    exact hno m ((h.trail.reached_iff hac).1 (Branch.mem_reached.1 hmb)).1
      ((h'.trail.reached_iff hac).1 (Branch.mem_reached.1 hmb')).1
  intro fuel
  induction fuel with
  | zero =>
    intro b b' h h' hl hl'
    have hstuck : ∀ {b : Branch}, b.Left s 0 → (b.step s).1 = false := by
      rintro ⟨walked, cursor, set⟩ hl
      cases cursor with
      | stopped o => rfl
      | «at» y => exact absurd (hl y rfl) (Nat.not_lt_zero _)
    rw [meetLoop, hmeet h h']
    simp only
    rw [hstuck hl, hstuck hl']
    rfl
  | succ fuel ih =>
    intro b b' h h' hl hl'
    rw [meetLoop, hmeet h h']
    simp only
    split
    · rfl
    · exact ih h.step h'.step (hl.step hac) (hl'.step hac)

theorem orphaned_movement {m : EnvelopeDigest} {undone made : Branch} :
    d ∈ (movement m undone made).orphaned ↔ d ∈ (undone.above m).map Prod.fst := by
  have hmade : ∀ (l : List (EnvelopeDigest × Envelope)) (v : Movement),
      (l.foldl (fun v p => { v with changes := v.changes.record p.2.payload }) v).orphaned = v.orphaned := by
    intro l
    induction l with
    | nil => exact fun _ => rfl
    | cons p l ih => exact fun v => ih _
  have hundone : ∀ (l : List (EnvelopeDigest × Envelope)) (v : Movement),
      d ∈ (l.foldl (fun v p => Movement.mk (v.orphaned.insert p.1) (v.changes.record p.2.payload)) v).orphaned ↔
        d ∈ l.map Prod.fst ∨ d ∈ v.orphaned := by
    intro l
    induction l with
    | nil => simp
    | cons p l ih =>
      intro v
      rw [List.foldl_cons, ih]
      simp only [ExtTreeSet.mem_insert, Std.compare_eq_iff_eq, List.map_cons, List.mem_cons]
      constructor
      · rintro (h | h | h)
        · exact .inl (.inr h)
        · exact .inl (.inl h.symm)
        · exact .inr h
      · rintro ((h | h) | h)
        · exact .inr (.inl h.symm)
        · exact .inl h
        · exact .inr (.inr h)
  have := hundone (undone.above m) Movement.empty
  simp only [movement]
  rw [hmade, this]
  simp [Movement.empty]

/-- Between two heads that share an ancestor the differ returns, and the two paths it walked part at
their last common ancestor. -/
theorem diff_eq_ok (hac : Acyclic s.parent) (h : Desc s.parent base x) (h' : Desc s.parent base x') :
    ∃ m undone made, (openedAt x).diff s x' = .ok (movement m undone made) ∧
      Trail s x (undone.above m) (some m) ∧ Trail s x' (made.above m) (some m) ∧
      (∀ d, Desc s.parent d m ↔ Desc s.parent d x ∧ Desc s.parent d x') ∧
      (∀ d, d ∈ (undone.above m).map Prod.fst ↔ Desc s.parent d x ∧ ¬ Desc s.parent d x') ∧
      ∀ d, d ∈ (made.above m).map Prod.fst ↔ Desc s.parent d x' ∧ ¬ Desc s.parent d x := by
  obtain ⟨m, undone, made, hloop, hundone, hmade, hm⟩ :=
    meetLoop_eq_ok hac Branch.from_opened Branch.from_opened (Branch.near_opened h) (Branch.near_opened h')
  obtain ⟨hmb, hmb'⟩ := Branch.meet_reached hmade.set hm
  have htrail := hundone.trail.above (Branch.mem_reached.1 hmb)
  have htrail' := hmade.trail.above (Branch.mem_reached.1 hmb')
  have hmx := htrail.desc_next m rfl
  have hmx' := htrail'.desc_next m rfl
  have hlast : ∀ d, Desc s.parent d m ↔ Desc s.parent d x ∧ Desc s.parent d x' := by
    intro d
    refine ⟨fun hd => ⟨hd.trans hmx, hd.trans hmx'⟩, ?_⟩
    rintro ⟨hdx, hdx'⟩
    rcases hdx.total hmx with hle | hle
    · exact hle
    · by_contra hno
      have hne : d ≠ m := by rintro rfl; exact hno Desc.refl
      have habove := (hundone.trail.mem_above hac (Branch.mem_reached.1 hmb)).2 ⟨hdx, hle, hne⟩
      exact ((Branch.meet_above hac hundone hmade hm).1 habove).2 hdx'
  refine ⟨m, undone, made, ?_, htrail, htrail', hlast, fun d => Branch.meet_above hac hundone hmade hm, fun d => ?_⟩
  · show meetLoop s x x' (s.envelopes.size + 1 + 1) (Branch.opened x) (Branch.opened x') >>= _ = _
    rw [hloop]; rfl
  · refine (hmade.trail.mem_above hac (Branch.mem_reached.1 hmb')).trans ?_
    constructor
    · rintro ⟨hdx', hmd, hne⟩
      exact ⟨hdx', fun hdx => hne (hac.antisymm ((hlast d).2 ⟨hdx, hdx'⟩) hmd)⟩
    · rintro ⟨hdx', hdx⟩
      rcases hdx'.total hmx' with hle | hle
      · exact absurd (hle.trans hmx) hdx
      · refine ⟨hdx', hle, ?_⟩
        rintro rfl
        exact hdx hmx

/-- Between two heads that share none it fails. -/
theorem diff_diverged (hac : Acyclic s.parent) (hno : ∀ d, Desc s.parent d x → ¬ Desc s.parent d x') :
    (openedAt x).diff s x' = Res.fail (.diverged x x') := by
  show meetLoop s x x' (s.envelopes.size + 1 + 1) (Branch.opened x) (Branch.opened x') >>= _ = _
  rw [meetLoop_diverged hac hno Branch.from_opened Branch.from_opened Branch.left_opened Branch.left_opened]
  rfl

end ChangeDiffer

theorem Movement.mem_orphaned_merge {a b : Movement} {d : EnvelopeDigest} :
    d ∈ (a.merge b).orphaned ↔ d ∈ a.orphaned ∨ d ∈ b.orphaned := by
  have hfold : ∀ (l : List EnvelopeDigest) (set : ExtTreeSet EnvelopeDigest),
      d ∈ l.foldl (fun orphaned digest => orphaned.insert digest) set ↔ d ∈ set ∨ d ∈ l := by
    intro l
    induction l with
    | nil => simp
    | cons x l ih =>
      intro set
      rw [List.foldl_cons, ih, ExtTreeSet.mem_insert, Std.compare_eq_iff_eq, List.mem_cons, eq_comm, or_assoc,
        or_left_comm]
  show d ∈ b.orphaned.toList.foldl _ a.orphaned ↔ _
  rw [hfold, ExtTreeSet.mem_toList]

end IrohLotus.State
