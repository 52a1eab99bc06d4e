/-
What `compact` does to a log from which everything doomed can still be reached from the cut, and
what it leaves wherever it is stopped: such a log again, with what descends from the cut untouched.
-/
import IrohLotus.State.Prune

namespace IrohLotus.State

open Std Outcome Forest IrohLotus.Wire IrohLotus.Storage

/-! ## Stopped stores -/

/-- The log of `t` is a part of the log of `s` that has everything from the cut on. -/
structure Keeps (s : MemStorage) (cut : EnvelopeDigest) (t : MemStorage) : Prop where
  subset : ∀ d, t.loggedEnvelope d = s.loggedEnvelope d ∨ t.loggedEnvelope d = none
  kept : ∀ d, Desc s.parent cut d → t.loggedEnvelope d = s.loggedEnvelope d

namespace Keeps

variable {s t : MemStorage} {cut d : EnvelopeDigest} (h : Keeps s cut t)

include h

theorem «extends» : Extends t.parent s.parent := by
  intro c p hc
  simp only [MemStorage.parent, MemStorage.envelope] at hc ⊢
  rcases h.subset c with heq | heq
  · rw [← heq]; exact hc
  · rw [heq] at hc; cases hc

theorem stored (hd : t.Stored d) : s.Stored d := by
  rw [MemStorage.stored_iff_logged] at hd ⊢
  rcases h.subset d with heq | heq
  · rw [← heq]; exact hd
  · exact absurd heq hd

theorem envelope_eq (hd : t.Stored d) : t.envelope d = s.envelope d := by
  rw [MemStorage.stored_iff_logged] at hd
  rcases h.subset d with heq | heq
  · simp only [MemStorage.envelope, heq]
  · exact absurd heq hd

theorem envelope_kept (hd : Desc s.parent cut d) : t.envelope d = s.envelope d := by
  simp only [MemStorage.envelope, h.kept d hd]

theorem parent_kept (hd : Desc s.parent cut d) : t.parent d = s.parent d := by
  simp only [MemStorage.parent, h.envelope_kept hd]

theorem rank_eq (hd : t.Stored d) : t.rank d = s.rank d := by
  simp only [MemStorage.rank, MemStorage.weight, h.envelope_eq hd]

/-- From the cut on, ancestry is what it was. -/
theorem desc_iff {x : EnvelopeDigest} (hx : Desc s.parent cut x) : Desc t.parent x d ↔ Desc s.parent x d := by
  refine ⟨fun hd => hd.mono h.extends, fun hd => ?_⟩
  refine Desc.restrict (Desc s.parent x) (fun c p hc _ hp => ?_) (fun c p hc hne hp => hc.of_parent hne hp) hd hd
  rw [h.parent_kept (hx.trans hc)]; exact hp

/-- And the walk sees the same log. -/
theorem agree : Agree s.parent t.parent s.rank t.rank cut := by
  intro x hx c
  by_cases hc : Desc s.parent cut c
  · refine ⟨by rw [h.parent_kept hc], fun _ => ?_⟩
    simp only [MemStorage.rank, MemStorage.weight, h.envelope_kept hc]
  · have hno : s.parent c ≠ some x := fun hp => hc (hx.desc.child hp)
    exact ⟨⟨fun hp => absurd hp hno, fun hp => absurd (h.extends c x hp) hno⟩, fun hp => absurd hp hno⟩

end Keeps

/-- A store `compact` at `cut` left of `s`: nothing below the cut is gone, and everything in its log
hangs off `a`, a digest parent hops from the cut still name. -/
structure HalfwayAt (s : MemStorage) (cut a : EnvelopeDigest) (t : MemStorage) : Prop extends Keeps s cut t where
  versions : t.versions = s.versions
  indexed : t.Indexed
  named : Desc t.parent a cut
  reach : ∀ d, t.Stored d → Desc t.parent a d

/-- A store `compact` at `cut` can be stopped in. -/
def Halfway (s : MemStorage) (cut : EnvelopeDigest) (t : MemStorage) : Prop := ∃ a, HalfwayAt s cut a t

/-- The same of a log that may hold strays no hop from the cut leads to; it holds none where it was
`full`. -/
structure TrimmedAt (full : Prop) (s : MemStorage) (cut a : EnvelopeDigest) (t : MemStorage) : Prop extends Keeps s cut t where
  versions : t.versions = s.versions
  indexed : t.Indexed
  named : Desc t.parent a cut
  reach : full → ∀ d, t.Stored d → Desc t.parent a d

/-- A store `compact` at `cut` can be stopped in, strays and all. -/
def Trimmed (full : Prop) (s : MemStorage) (cut : EnvelopeDigest) (t : MemStorage) : Prop := ∃ a, TrimmedAt full s cut a t

theorem TrimmedAt.halfwayAt {s t : MemStorage} {cut a : EnvelopeDigest} (h : TrimmedAt True s cut a t) : HalfwayAt s cut a t :=
  { h with reach := h.reach trivial }

theorem Trimmed.halfway {s t : MemStorage} {cut : EnvelopeDigest} (h : Trimmed True s cut t) : Halfway s cut t := by
  obtain ⟨a, h⟩ := h
  exact ⟨a, h.halfwayAt⟩

namespace TrimmedAt

variable {full : Prop} {s t u : MemStorage} {cut a n : EnvelopeDigest} (h : TrimmedAt full s cut a t)

include h

/-- The next ancestor on the way from `a` to the cut. -/
theorem exists_next (hne : a ≠ cut) : ∃ n, t.parent n = some a ∧ Desc t.parent n cut := h.named.exists_child (Ne.symm hne)

/-- Taking out a part of the branches off `a` that do not lead to the cut. -/
theorem without (hac : Acyclic s.parent) (hne : a ≠ cut) {X : Set EnvelopeDigest} (hw : t.Without X u) (hcl : t.Closed X)
    (hX : ∀ x ∈ X, ∃ c, t.parent c = some a ∧ ¬ Desc s.parent c cut ∧ Desc t.parent c x) : TrimmedAt full s cut a u := by
  have hcut : ∀ d, Desc s.parent cut d → d ∉ X := by
    intro d hd hdX
    obtain ⟨c, hc, hnc, hcd⟩ := hX d hdX
    rcases (hcd.mono h.extends).total hd with hcc | hcc
    · exact hnc hcc
    · -- a branch inside the cut's subtree would put `a` there too
      have hccut : c ≠ cut := by rintro rfl; exact hnc Desc.refl
      have hacut := hcc.of_parent hccut (h.extends c a hc)
      exact hne (hac.antisymm (h.named.mono h.extends) hacut)
  refine ⟨⟨fun d => ?_, fun d hd => ?_⟩, hw.versions.trans h.versions, hw.indexed, ?_, fun hfull d hd => ?_⟩
  · by_cases hd : d ∈ X
    · exact .inr (hw.absent d hd)
    · rw [hw.kept d hd]; exact h.subset d
  · rw [hw.kept d (hcut d hd)]; exact h.kept d hd
  · exact (hw.desc_iff hcl (hcut cut Desc.refl)).2 h.named
  · obtain ⟨hdt, hdX⟩ := hw.stored_iff.1 hd
    exact (hw.desc_iff hcl hdX).2 (h.reach hfull d hdt)

/-- Moving on to the next ancestor, once everything else in the log hangs off it. -/
theorem next (hac : Acyclic s.parent) (hne : a ≠ cut) (hn : t.parent n = some a) (hncut : Desc t.parent n cut)
    (hall : full → ∀ d, t.Stored d → d ≠ a → Desc t.parent n d) : TrimmedAt full s cut n (t.removeEnvelope a) := by
  have hact := hac.mono h.extends
  have hw := MemStorage.Without.one h.indexed a
  have hna : ∀ d, Desc t.parent n d → d ∉ ({a} : Set EnvelopeDigest) := by
    rintro d hd rfl
    exact hact.not_desc_parent hn hd
  have hdesc : ∀ d, Desc t.parent n d → Desc (t.removeEnvelope a).parent n d := by
    intro d hd
    refine Desc.restrict (Desc t.parent n) (fun c p hc _ hp => ?_) (fun c p hc hcn hp => hc.of_parent hcn hp) hd hd
    rw [hw.parent_kept (hna c hc)]; exact hp
  refine ⟨⟨fun d => ?_, fun d hd => ?_⟩, h.versions, hw.indexed, hdesc cut hncut, fun hfull d hd => ?_⟩
  · by_cases hd : d ∈ ({a} : Set EnvelopeDigest)
    · exact .inr (hw.absent d hd)
    · rw [hw.kept d hd]; exact h.subset d
  · have hda : d ∉ ({a} : Set EnvelopeDigest) := by
      rintro rfl
      exact hne (hac.antisymm (h.named.mono h.extends) hd)
    rw [hw.kept d hda]; exact h.kept d hd
  · obtain ⟨hdt, hda⟩ := hw.stored_iff.1 hd
    exact hdesc d (hall hfull d hdt hda)

/-- Moving on past an ancestor the log does not hold. -/
theorem skip (hncut : Desc t.parent n cut) (hall : full → ∀ d, t.Stored d → Desc t.parent n d) : TrimmedAt full s cut n t :=
  { h with named := hncut, reach := hall }

end TrimmedAt

namespace Chain

/-! ## The walks of `compact` -/

section Walks

variable {C : MemStorage → Prop} {s : MemStorage} {cut : EnvelopeDigest}

/-- From a descendant of the cut, `keep` is the path between them. -/
theorem keepPath_leads (hs : C s) (hac : Acyclic s.parent) (head : EnvelopeDigest) : ∀ {fuel : Nat} {x : EnvelopeDigest},
    (above s.parent s.digests x).card + 1 ≤ fuel → Desc s.parent cut x →
      ∃ keep, (∀ y, y ∈ keep ↔ Desc s.parent cut y ∧ Desc s.parent y x) ∧
        Prog.Leads C (keepPath head cut fuel x) s (pure keep) s
  | 0, x, hfuel, _ => by omega
  | fuel + 1, x, hfuel, hx => by
    unfold keepPath
    by_cases hxc : x = cut
    · subst hxc
      refine ⟨[x], fun y => ?_, by rw [if_pos rfl]; exact Prog.Leads.refl⟩
      rw [List.mem_singleton]
      constructor
      · rintro rfl; exact ⟨Desc.refl, Desc.refl⟩
      · rintro ⟨h1, h2⟩; exact hac.antisymm h2 h1
    · rw [if_neg hxc]
      obtain ⟨p, hp, hcp⟩ := hx.exists_parent hxc
      have hlt := above_lt hac hp (s.mem_digests.2 (s.stored_of_parent hp))
      have hle : (above s.parent s.digests p).card + 1 ≤ fuel := by omega
      obtain ⟨keep, hkeep, hlead⟩ := keepPath_leads hs hac head hle hcp
      refine ⟨x :: keep, fun y => ?_, ?_⟩
      · rw [List.mem_cons, hkeep]
        constructor
        · rintro (rfl | ⟨h1, h2⟩)
          · exact ⟨hx, Desc.refl⟩
          · exact ⟨h1, h2.child hp⟩
        · rintro ⟨h1, h2⟩
          by_cases hyx : x = y
          · exact .inl hyx.symm
          · exact .inr ⟨h1, h2.of_parent hyx hp⟩
      · refine (Prog.Leads.read_bind hs).trans ?_
        rw [hp]
        exact Prog.Leads.bind hlead

/-- From anything else the walk runs off the log, and `compact` is refused. -/
theorem keepPath_diverged (hac : Acyclic s.parent) (head : EnvelopeDigest) : ∀ {fuel : Nat} {x : EnvelopeDigest},
    (above s.parent s.digests x).card + 1 ≤ fuel → ¬ Desc s.parent cut x →
      (keepPath head cut fuel x).run s = (.error (.error (.diverged head cut)), s)
  | 0, x, hfuel, _ => by omega
  | fuel + 1, x, hfuel, hx => by
    have hxc : x ≠ cut := by rintro rfl; exact hx Desc.refl
    have hread : (Prog.read (fun s => s.parent x) : Prog MemStorage Error _).run s = (.ok (s.parent x), s) := rfl
    unfold keepPath
    rw [if_neg hxc]
    cases hp : s.parent x with
    | none =>
      rw [Prog.run_bind, hread]
      dsimp only
      rw [hp]; rfl
    | some p =>
      have hlt := above_lt hac hp (s.mem_digests.2 (s.stored_of_parent hp))
      have hle : (above s.parent s.digests p).card + 1 ≤ fuel := by omega
      have ih := keepPath_diverged hac head hle fun h => hx (h.child hp)
      rw [Prog.run_bind, hread]
      simp only [hp]
      rw [Prog.run_bind, ih]

/-- The parent hops from `x`, nearest first, to the end of the log. -/
def Hops (s : MemStorage) : EnvelopeDigest → List EnvelopeDigest → Prop
  | x, [] => s.parent x = none
  | x, p :: l => s.parent x = some p ∧ Hops s p l

theorem ancestorsOf_leads (hs : C s) (hac : Acyclic s.parent) : ∀ {fuel : Nat} {x : EnvelopeDigest},
    (above s.parent s.digests x).card + 1 ≤ fuel →
      ∃ l, Hops s x l ∧ Prog.Leads C (ancestorsOf fuel x) s (pure l) s
  | 0, x, hfuel => by omega
  | fuel + 1, x, hfuel => by
    unfold ancestorsOf
    cases hp : s.parent x with
    | none =>
      refine ⟨[], hp, (Prog.Leads.read_bind hs).trans ?_⟩
      rw [hp]; exact Prog.Leads.refl
    | some p =>
      have hlt := above_lt hac hp (s.mem_digests.2 (s.stored_of_parent hp))
      have hle : (above s.parent s.digests p).card + 1 ≤ fuel := by omega
      obtain ⟨l, hl, hlead⟩ := ancestorsOf_leads hs hac hle
      refine ⟨p :: l, ⟨hp, hl⟩, (Prog.Leads.read_bind hs).trans ?_⟩
      rw [hp]
      exact Prog.Leads.bind hlead

theorem Hops.mem : ∀ {l : List EnvelopeDigest} {x : EnvelopeDigest}, Hops s x l → ∀ y,
    (y ∈ l ++ [x] ↔ Desc s.parent y x)
  | [], x, h, y => by
    simp only [List.nil_append, List.mem_singleton]
    constructor
    · rintro rfl; exact Desc.refl
    · intro hd
      by_contra hne
      obtain ⟨p, hp, -⟩ := hd.exists_parent (Ne.symm hne)
      rw [show s.parent x = none from h] at hp; cases hp
  | p :: l, x, h, y => by
    have ih := Hops.mem h.2 y
    simp only [List.mem_append, List.mem_cons, List.not_mem_nil, or_false] at ih ⊢
    constructor
    · rintro ((rfl | hy) | rfl)
      · exact Desc.of_child h.1
      · exact (ih.1 (.inl hy)).child h.1
      · exact Desc.refl
    · intro hd
      by_cases hyx : x = y
      · exact .inr hyx.symm
      · rcases ih.2 (hd.of_parent hyx h.1) with hy | rfl
        · exact .inl (.inr hy)
        · exact .inl (.inl rfl)

theorem Hops.unique : ∀ {l l' : List EnvelopeDigest} {x : EnvelopeDigest}, Hops s x l → Hops s x l' → l = l'
  | [], [], _, _, _ => rfl
  | [], p :: l', x, h, h' => by
    have hp := h'.1
    rw [show s.parent x = none from h] at hp
    cases hp
  | p :: l, [], x, h, h' => by
    have hp := h.1
    rw [show s.parent x = none from h'] at hp
    cases hp
  | p :: l, p' :: l', x, h, h' => by
    have hp := h.1
    rw [h'.1] at hp
    obtain rfl := Option.some.inj hp
    rw [Hops.unique h.2 h'.2]

/-- The last hop ends where the log has no parent to name. -/
theorem Hops.oldest : ∀ {l : List EnvelopeDigest} {x : EnvelopeDigest}, Hops s x l →
    s.parent (l.reverse.headD x) = none ∧ Desc s.parent (l.reverse.headD x) x
  | [], x, h => ⟨h, Desc.refl⟩
  | p :: l, x, h => by
    obtain ⟨h1, h2⟩ := Hops.oldest h.2
    have heq : (p :: l).reverse.headD x = l.reverse.headD p := by
      rw [List.reverse_cons]
      cases l.reverse <;> rfl
    rw [heq]
    exact ⟨h1, h2.child h.1⟩

/-- A list of ancestors of `x`, oldest first, each the parent of the one after it. -/
def Climb (s : MemStorage) (x : EnvelopeDigest) : List EnvelopeDigest → Prop
  | [] => True
  | a :: l => s.parent (l.headD x) = some a ∧ Climb s x l

theorem Climb.snoc {p x : EnvelopeDigest} (hp : s.parent x = some p) : ∀ {l : List EnvelopeDigest}, Climb s p l →
    Climb s x (l ++ [p])
  | [], _ => ⟨hp, trivial⟩
  | [_], h => ⟨h.1, hp, trivial⟩
  | _ :: _ :: _, h => ⟨h.1, Climb.snoc hp h.2⟩

theorem Climb.desc {x : EnvelopeDigest} : ∀ {l : List EnvelopeDigest}, Climb s x l → Desc s.parent (l.headD x) x
  | [], _ => Desc.refl
  | _ :: _, h => (Desc.of_child h.1).trans (Climb.desc h.2)

theorem Hops.climb : ∀ {l : List EnvelopeDigest} {x : EnvelopeDigest}, Hops s x l → Climb s x l.reverse
  | [], _, _ => trivial
  | p :: l, x, h => by
    rw [List.reverse_cons]
    exact Climb.snoc h.1 (Hops.climb h.2)

end Walks

/-! ## Taking out what is older than the cut -/

section Removal

variable {full : Prop} {s t : MemStorage} {cut a : EnvelopeDigest}

/-- One dead branch. -/
theorem removeSubtree_leads {fuel : Nat} {c : EnvelopeDigest} (hi : t.Indexed) (hac : Acyclic t.parent) (hc : t.Stored c)
    (hfuel : 2 * t.digests.card + 1 ≤ fuel) :
    ∃ u m, t.Without {x | Desc t.parent c x} u ∧ u.digests.card + m = t.digests.card ∧
      Prog.Leads (Pruning t {x | Desc t.parent c x}) (removeSubtree fuel c) t (pure m) u := by
  obtain ⟨u, m, hw, hm, hlead⟩ := removeLoop_subtree _ hi hac hc le_rfl
  refine ⟨u, m, hw, hm, ?_⟩
  obtain ⟨k, hk⟩ : ∃ k, fuel = 2 * m + (k + 1) := ⟨fuel - 2 * m - 1, by omega⟩
  have h := hlead (k + 1) [] 0
  rw [Nat.zero_add] at h
  unfold removeSubtree
  rw [hk]
  exact h

/-- The dead branches among the children of one ancestor. -/
theorem removeBranches_leads {fuel : Nat} (onPath : List EnvelopeDigest) : ∀ (l : List EnvelopeDigest) {t : MemStorage},
    t.Indexed → Acyclic t.parent → l.Nodup → (∀ c ∈ l, t.parent c = some a) → 2 * t.digests.card + 1 ≤ fuel →
      ∃ u m, t.Without {x | ∃ c ∈ l, c ∉ onPath ∧ Desc t.parent c x} u ∧ u.digests.card + m = t.digests.card ∧ ∀ pruned,
        Prog.Leads (Pruning t {x | ∃ c ∈ l, c ∉ onPath ∧ Desc t.parent c x}) (removeBranches fuel onPath l pruned) t
          (pure (pruned + m)) u
  | [], t, hi, _, _, _, _ => by
    refine ⟨t, 0, (MemStorage.Without.refl hi).congr ?_, rfl, fun pruned => Prog.Leads.refl⟩
    ext x; simp
  | c :: l, t, hi, hac, hnd, hl, hfuel => by
    obtain ⟨hcl, hnd⟩ := List.nodup_cons.1 hnd
    by_cases hon : c ∈ onPath
    · obtain ⟨u, m, hw, hm, hlead⟩ :=
        removeBranches_leads onPath l hi hac hnd (fun c' hc' => hl c' (List.mem_cons_of_mem _ hc')) hfuel
      have hset : {x | ∃ c' ∈ l, c' ∉ onPath ∧ Desc t.parent c' x} =
          {x | ∃ c' ∈ c :: l, c' ∉ onPath ∧ Desc t.parent c' x} := by
        ext x
        constructor
        · rintro ⟨c', hc', hx⟩; exact ⟨c', List.mem_cons_of_mem _ hc', hx⟩
        · rintro ⟨c', hc', hno, hx⟩
          rcases List.mem_cons.1 hc' with rfl | hc'
          · exact absurd hon hno
          · exact ⟨c', hc', hno, hx⟩
      refine ⟨u, m, hw.congr hset, hm, fun pruned => ?_⟩
      rw [removeBranches, if_pos (List.contains_iff_mem.2 hon), ← hset]
      exact hlead pruned
    · have hc := hl c List.mem_cons_self
      obtain ⟨u, m, hw, hm, hlead⟩ := removeSubtree_leads hi hac (t.stored_of_parent hc) hfuel
      have hclosed : t.Closed {x | Desc t.parent c x} := MemStorage.closed_desc
      have hsib : ∀ c' ∈ l, u.parent c' = some a := by
        intro c' hc'
        have hp := hl c' (List.mem_cons_of_mem _ hc')
        rw [hw.parent_kept fun hd => ?_]
        · exact hp
        · obtain rfl := hac.eq_of_sibling hc hp hd Desc.refl
          exact hcl hc'
      have hfuel' : 2 * u.digests.card + 1 ≤ fuel := by omega
      obtain ⟨v, k, hw', hk, hlead'⟩ := removeBranches_leads onPath l hw.indexed (hac.mono hw.extends) hnd hsib hfuel'
      have hD : {x | Desc t.parent c x} ⊆ {x | ∃ c' ∈ c :: l, c' ∉ onPath ∧ Desc t.parent c' x} :=
        fun x hx => ⟨c, List.mem_cons_self, hon, hx⟩
      have hD' : {x | ∃ c' ∈ l, c' ∉ onPath ∧ Desc u.parent c' x} ⊆
          {x | ∃ c' ∈ c :: l, c' ∉ onPath ∧ Desc t.parent c' x} := by
        rintro x ⟨c', hc', hno, hx⟩
        exact ⟨c', List.mem_cons_of_mem _ hc', hno, hx.mono hw.extends⟩
      refine ⟨v, m + k, (hw.trans hw').congr ?_, by omega, fun pruned => ?_⟩
      · refine Set.Subset.antisymm (Set.union_subset hD hD') ?_
        rintro x ⟨c', hc', hno, hx⟩
        by_cases hxc : Desc t.parent c x
        · exact .inl hxc
        · rcases List.mem_cons.1 hc' with rfl | hc'
          · exact absurd hx hxc
          · exact .inr ⟨c', hc', hno, (hw.desc_iff hclosed hxc).2 hx⟩
      · rw [removeBranches, if_neg (by rw [List.contains_iff_mem]; exact hon), ← Nat.add_assoc]
        have h1 := Prog.Leads.bind (f := fun removed => removeBranches fuel onPath l (pruned + removed))
          (hlead.weaken fun _ h => Pruning.mono h hD)
        exact h1.trans ((hlead' (pruned + m)).weaken fun _ h => Pruning.after hw hclosed hD h hD')

/-- The dead branches of the oldest ancestor left, after which everything but it hangs off the next. -/
theorem deadBranches_leads {fuel : Nat} {onPath : List EnvelopeDigest} {n : EnvelopeDigest} (hac : Acyclic s.parent)
    (hon : ∀ y, y ∈ onPath ↔ Desc s.parent y cut) (hn : s.parent n = some a) (hncut : Desc s.parent n cut)
    (hh : TrimmedAt full s cut a t) (hfuel : 2 * t.digests.card + 1 ≤ fuel) :
    ∃ u m, TrimmedAt full s cut a u ∧ u.digests.card + m = t.digests.card ∧ u.parent n = some a ∧ Desc u.parent n cut ∧
      (full → ∀ d, u.Stored d → d ≠ a → Desc u.parent n d) ∧ (t.Stored a → u.Stored a) ∧ ∀ pruned,
        Prog.Leads (Trimmed full s cut) (removeBranches fuel onPath (t.children a) pruned) t (pure (pruned + m)) u := by
  have hne : a ≠ cut := by rintro rfl; exact hac.not_desc_parent hn hncut
  have hact := hac.mono hh.extends
  have hkids : ∀ c ∈ t.children a, t.parent c = some a := fun c hc => hh.indexed.mem_children.1 hc
  obtain ⟨u, m, hw, hm, hlead⟩ :=
    removeBranches_leads onPath (t.children a) hh.indexed hact (t.nodup_children a) hkids hfuel
  have hdead : ∀ X, X ⊆ {x | ∃ c ∈ t.children a, c ∉ onPath ∧ Desc t.parent c x} →
      ∀ x ∈ X, ∃ c, t.parent c = some a ∧ ¬ Desc s.parent c cut ∧ Desc t.parent c x := by
    intro X hX x hx
    obtain ⟨c, hc, hno, hcx⟩ := hX hx
    exact ⟨c, hkids c hc, fun h => hno ((hon c).2 h), hcx⟩
  have hclosed : t.Closed {x | ∃ c ∈ t.children a, c ∉ onPath ∧ Desc t.parent c x} := by
    rintro c p hc ⟨c', hc', hno, hp⟩
    exact ⟨c', hc', hno, hp.child hc⟩
  have hu : TrimmedAt full s cut a u := hh.without hac hne hw hclosed (hdead _ (Set.Subset.refl _))
  have hnext : ∀ c, u.parent c = some a → c ∉ onPath → False := by
    intro c hc hno
    have hct := hw.extends c a hc
    rw [hw.parent_gone ⟨c, hh.indexed.mem_children.2 hct, hno, Desc.refl⟩] at hc
    cases hc
  have heq : ∀ c, u.parent c = some a → c = n := by
    intro c hc
    by_contra hcn
    refine hnext c hc fun hcon => hcn ?_
    exact hac.eq_of_sibling (hu.extends c a hc) hn ((hon c).1 hcon) hncut
  obtain ⟨n', hn', hncut'⟩ := hu.exists_next hne
  obtain rfl := heq n' hn'
  refine ⟨u, m, hu, hm, hn', hncut', fun hfull d hd hda => ?_, fun ha => ?_, fun pruned => ?_⟩
  · obtain ⟨c, hc, hcd⟩ := (hu.reach hfull d hd).exists_child hda
    obtain rfl := heq c hc
    exact hcd
  · refine hw.stored_iff.2 ⟨ha, ?_⟩
    rintro ⟨c, hc, -, hca⟩
    exact hact.not_desc_parent (hkids c hc) hca
  · refine (hlead pruned).weaken fun v hv => ?_
    obtain ⟨X, hcl, hX, hwX⟩ := hv
    exact ⟨a, hh.without hac hne hwX hcl (hdead X hX)⟩

/-- The ancestors of the cut go oldest first, each after its dead branches. -/
theorem removeAncestors_leads {fuel : Nat} {onPath : List EnvelopeDigest} (hac : Acyclic s.parent)
    (hon : ∀ y, y ∈ onPath ↔ Desc s.parent y cut) : ∀ (l : List EnvelopeDigest) {deepest : Bool} {t : MemStorage},
    Climb s cut l → TrimmedAt full s cut (l.headD cut) t → (deepest = false → ∀ a ∈ l.head?, t.Stored a) →
      2 * t.digests.card + 1 ≤ fuel →
      ∃ u m, TrimmedAt full s cut cut u ∧ u.digests.card + m = t.digests.card ∧ ∀ pruned,
        Prog.Leads (Trimmed full s cut) (removeAncestors fuel onPath deepest l pruned) t (pure (pruned + m)) u
  | [], deepest, t, _, hh, _, _ => ⟨t, 0, hh, rfl, fun _ => by unfold removeAncestors; exact Prog.Leads.refl⟩
  | a :: l, deepest, t, hcl, hh, hst, hfuel => by
    have hncut := hcl.2.desc
    have hne : a ≠ cut := by rintro rfl; exact hac.not_desc_parent hcl.1 hncut
    obtain ⟨u, m, hu, hm, hn, hnc, hall, hua, hlead⟩ := deadBranches_leads hac hon hcl.1 hncut hh hfuel
    have hstart : ∀ pruned, Prog.Leads (Trimmed full s cut) (removeAncestors fuel onPath deepest (a :: l) pruned) t (do
        let stored ← if deepest then Prog.read fun s => (s.envelope a).isSome else pure true
        if stored then do
          Prog.write fun s => s.removeEnvelope a
          removeAncestors fuel onPath false l (pruned + m + 1)
        else
          removeAncestors fuel onPath false l (pruned + m)) u := by
      intro pruned
      exact (Prog.Leads.read_bind ⟨a, hh⟩).trans (Prog.Leads.bind (hlead pruned))
    by_cases hsa : u.Stored a
    · have hw := MemStorage.Without.one hu.indexed a
      have hcard := MemStorage.digests_removeEnvelope hsa
      have hnst : (u.removeEnvelope a).Stored (l.headD cut) := by
        refine hw.stored_iff.2 ⟨u.stored_of_parent hn, ?_⟩
        exact (hac.mono hu.extends).ne_parent hn
      have hfuel' : 2 * (u.removeEnvelope a).digests.card + 1 ≤ fuel := by omega
      obtain ⟨v, k, hv, hk, hlead'⟩ := removeAncestors_leads hac hon l hcl.2 (hu.next hac hne hn hnc hall)
        (fun _ b hb => by
          cases l with
          | nil => cases hb
          | cons b' l => cases hb; exact hnst) hfuel'
      refine ⟨v, m + 1 + k, hv, by omega, fun pruned => (hstart pruned).trans ?_⟩
      have hwrite : Prog.Leads (Trimmed full s cut) (do
          Prog.write fun s => s.removeEnvelope a
          removeAncestors fuel onPath false l (pruned + m + 1)) u
          (removeAncestors fuel onPath false l (pruned + m + 1)) (u.removeEnvelope a) := Prog.Leads.write_bind ⟨a, hu⟩
      rw [show pruned + (m + 1 + k) = pruned + m + 1 + k by omega]
      refine Prog.Leads.trans ?_ (hwrite.trans (hlead' _))
      cases deepest with
      | true =>
        have hread : (u.envelope a).isSome = true := Option.isSome_iff_exists.2 hsa
        refine (Prog.Leads.read_bind ⟨a, hu⟩).trans ?_
        rw [hread]; exact Prog.Leads.refl
      | false => exact Prog.Leads.refl
    · obtain rfl : deepest = true := by
        by_contra hd
        exact hsa (hua (hst (Bool.eq_false_iff.2 hd) a rfl))
      have hskip : TrimmedAt full s cut (l.headD cut) u := hu.skip hnc fun hfull d hd => hall hfull d hd fun hda => hsa (hda ▸ hd)
      have hfuel' : 2 * u.digests.card + 1 ≤ fuel := by omega
      obtain ⟨v, k, hv, hk, hlead'⟩ := removeAncestors_leads hac hon l hcl.2 hskip
        (fun _ b hb => by
          cases l with
          | nil => cases hb
          | cons b' l => cases hb; exact u.stored_of_parent hn) hfuel'
      refine ⟨v, m + k, hv, by omega, fun pruned => (hstart pruned).trans ?_⟩
      have hread : (u.envelope a).isSome = false := by
        rw [Bool.eq_false_iff, ne_eq, Option.isSome_iff_exists]; exact hsa
      refine (Prog.Leads.read_bind ⟨a, hu⟩).trans ?_
      rw [hread, ← Nat.add_assoc]
      exact hlead' _

end Removal

/-! ## The whole of `compact` -/

section Program

variable {s : MemStorage} {cut head : EnvelopeDigest}

/-- What `compact` leaves: the log from the cut on, and the versions between the cut and the head. -/
structure CompactedTo (s : MemStorage) (cut head : EnvelopeDigest) (t : MemStorage) : Prop where
  indexed : t.Indexed
  log_kept : ∀ d, Desc s.parent cut d → t.loggedEnvelope d = s.loggedEnvelope d
  log_gone : ∀ d, ¬ Desc s.parent cut d → t.loggedEnvelope d = none
  versions_kept : ∀ d : EnvelopeDigest, Desc s.parent cut d → Desc s.parent d head → t.versions[d]? = s.versions[d]?
  versions_gone : ∀ d : EnvelopeDigest, ¬ (Desc s.parent cut d ∧ Desc s.parent d head) → t.versions[d]? = none

theorem CompactedTo.keeps {t : MemStorage} (h : CompactedTo s cut head t) : Keeps s cut t := by
  refine ⟨fun d => ?_, h.log_kept⟩
  by_cases hd : Desc s.parent cut d
  · exact .inl (h.log_kept d hd)
  · exact .inr (h.log_gone d hd)

theorem CompactedTo.stored_iff {t : MemStorage} (h : CompactedTo s cut head t) {d : EnvelopeDigest} :
    t.Stored d ↔ s.Stored d ∧ Desc s.parent cut d := by
  rw [MemStorage.stored_iff_logged, MemStorage.stored_iff_logged]
  by_cases hd : Desc s.parent cut d
  · simp [h.log_kept d hd, hd]
  · simp [h.log_gone d hd, hd]

theorem CompactedTo.versions_of {t : MemStorage} (h : CompactedTo s cut head t) {d : EnvelopeDigest} {v : Version}
    (hv : t.versions[d]? = some v) : s.versions[d]? = some v ∧ Desc s.parent cut d ∧ Desc s.parent d head := by
  by_cases hd : Desc s.parent cut d ∧ Desc s.parent d head
  · rw [h.versions_kept d hd.1 hd.2] at hv
    exact ⟨hv, hd⟩
  · rw [h.versions_gone d hd] at hv; cases hv

/-- Everything in the log can be reached again from the cut: by parent hops to some digest, then by
children. -/
def Recoverable (s : MemStorage) (cut : EnvelopeDigest) : Prop :=
  ∃ a, Desc s.parent a cut ∧ ∀ d, s.Stored d → Desc s.parent a d

theorem Recoverable.halfway (h : Recoverable s cut) (hi : s.Indexed) : Halfway s cut s := by
  obtain ⟨a, hcut, hall⟩ := h
  exact ⟨a, ⟨fun _ => .inl rfl, fun _ _ => rfl⟩, rfl, hi, hcut, hall⟩

theorem Recoverable.of_halfway {t : MemStorage} (h : Halfway s cut t) : Recoverable t cut := by
  obtain ⟨a, h⟩ := h
  exact ⟨a, h.named, h.reach⟩

/-- Pruning at a cut the head descends from comes to its end, whatever strays the log holds. -/
theorem pruneProg_trims {full : Prop} (hi : s.Indexed) (hac : Acyclic s.parent) (hr : full → Recoverable s cut)
    (hhead : Desc s.parent cut head) :
    ∃ u keep n, TrimmedAt full s cut cut u ∧ (∀ y, y ∈ keep ↔ Desc s.parent cut y ∧ Desc s.parent y head) ∧
      u.digests.card + n = s.digests.card ∧
      Prog.Leads (Trimmed full s cut) (pruneProg head cut (compactFuel s)) s (pure (keep, n)) u := by
  have hsize := s.card_digests_le
  have hfuel : ∀ x, (above s.parent s.digests x).card + 1 ≤ compactFuel s := by
    intro x
    have : (above s.parent s.digests x).card ≤ s.digests.card := card_above_le
    unfold compactFuel; omega
  obtain ⟨anc, hanc, -⟩ := @ancestorsOf_leads (fun _ => True) s trivial hac _ cut (hfuel cut)
  obtain ⟨hnone, hold⟩ := hanc.oldest
  -- the last hop is as far down as anything a full log hangs off
  have hstart : TrimmedAt full s cut (anc.reverse.headD cut) s := by
    refine ⟨⟨fun _ => .inl rfl, fun _ _ => rfl⟩, rfl, hi, hold, fun hfull d hd => ?_⟩
    obtain ⟨a, hacut, hall⟩ := hr hfull
    have : Desc s.parent (anc.reverse.headD cut) a := by
      rcases hold.total hacut with h | h
      · exact h
      · by_contra hn
        have hne : anc.reverse.headD cut ≠ a := by rintro heq; exact hn (heq ▸ Desc.refl)
        obtain ⟨p, hp, -⟩ := h.exists_parent hne
        rw [hnone] at hp; cases hp
    exact this.trans (hall d hd)
  have hs : Trimmed full s cut s := ⟨_, hstart⟩
  obtain ⟨keep, hkeep, hleadk⟩ := keepPath_leads hs hac head (hfuel head) hhead
  obtain ⟨anc', hanc', hleada⟩ := ancestorsOf_leads hs hac (hfuel cut)
  obtain rfl := hanc.unique hanc'
  have hdeepest : true = false → ∀ a ∈ anc.reverse.head?, s.Stored a := nofun
  have hfuel' : 2 * s.digests.card + 1 ≤ compactFuel s := by unfold compactFuel; omega
  obtain ⟨u, n, hu, hn, hleadr⟩ := removeAncestors_leads hac hanc.mem anc.reverse hanc.climb hstart hdeepest hfuel'
  have h0 := hleadr 0
  rw [Nat.zero_add] at h0
  exact ⟨u, keep, n, hu, hkeep, hn,
    (Prog.Leads.bind hleadk).trans ((Prog.Leads.bind hleada).trans (Prog.Leads.bind h0))⟩

/-- Pruning at a cut the head descends from comes to its end. -/
theorem pruneProg_leads (hi : s.Indexed) (hac : Acyclic s.parent) (hr : Recoverable s cut)
    (hhead : Desc s.parent cut head) :
    ∃ u keep n, HalfwayAt s cut cut u ∧ (∀ y, y ∈ keep ↔ Desc s.parent cut y ∧ Desc s.parent y head) ∧
      u.digests.card + n = s.digests.card ∧
      Prog.Leads (Halfway s cut) (pruneProg head cut (compactFuel s)) s (pure (keep, n)) u := by
  obtain ⟨u, keep, n, hu, hkeep, hn, hlead⟩ := pruneProg_trims hi hac (fun _ : True => hr) hhead
  exact ⟨u, keep, n, hu.halfwayAt, hkeep, hn, hlead.weaken fun _ h => h.halfway⟩

/-- What `compact` leaves of a log with strays: what descends from the cut as it was, and the versions
between the cut and the head. -/
structure TrimmedTo (s : MemStorage) (cut head : EnvelopeDigest) (t : MemStorage) : Prop extends Keeps s cut t where
  indexed : t.Indexed
  versions_kept : ∀ d : EnvelopeDigest, Desc s.parent cut d → Desc s.parent d head → t.versions[d]? = s.versions[d]?
  versions_gone : ∀ d : EnvelopeDigest, ¬ (Desc s.parent cut d ∧ Desc s.parent d head) → t.versions[d]? = none

/-- `compact` at a cut the head descends from comes to its end, whatever strays the log holds. -/
theorem compactProg_trims {full : Prop} (hi : s.Indexed) (hac : Acyclic s.parent) (hr : full → Recoverable s cut)
    (hhead : Desc s.parent cut head) :
    ∃ t n, TrimmedTo s cut head t ∧ (full → ∀ d, ¬ Desc s.parent cut d → t.loggedEnvelope d = none) ∧
      t.digests.card + n = s.digests.card ∧
      Prog.Leads (Trimmed full s cut) (compactProg head cut (compactFuel s)) s (pure n) t := by
  obtain ⟨u, keep, n, hu, hkeep, hn, hlead⟩ := pruneProg_trims hi hac hr hhead
  refine ⟨u.retain keep, n, ⟨⟨hu.subset, hu.kept⟩, hu.indexed.retain keep, fun d h1 h2 => ?_, fun d hd => ?_⟩,
    fun hfull d hd => ?_, hn, ?_⟩
  · rw [MemStorage.versions_retain, if_pos ((hkeep d).2 ⟨h1, h2⟩), hu.versions]
  · rw [MemStorage.versions_retain, if_neg (mt (hkeep d).1 hd)]
  · by_contra hne
    exact hd ((hu.reach hfull d (MemStorage.stored_iff_logged.2 hne)).mono hu.extends)
  · exact (Prog.Leads.bind hlead).trans (Prog.Leads.write_bind ⟨cut, hu⟩)

/-- `compact` at a cut the head descends from comes to its end. -/
theorem compactProg_leads (hi : s.Indexed) (hac : Acyclic s.parent) (hr : Recoverable s cut)
    (hhead : Desc s.parent cut head) :
    ∃ t n, CompactedTo s cut head t ∧ t.digests.card + n = s.digests.card ∧
      Prog.Leads (Halfway s cut) (compactProg head cut (compactFuel s)) s (pure n) t := by
  obtain ⟨t, n, ht, hgone, hn, hlead⟩ := compactProg_trims hi hac (fun _ : True => hr) hhead
  exact ⟨t, n, ⟨ht.indexed, ht.kept, hgone trivial, ht.versions_kept, ht.versions_gone⟩, hn,
    hlead.weaken fun _ h => h.halfway⟩

/-- `compact` on a log it can be resumed on: refused where the cut is not on the path of the head. -/
theorem compact_cases {chain : Chain} (hi : s.Indexed) (hac : Acyclic s.parent)
    (hr : Desc s.parent cut chain.head → Recoverable s cut) :
    (¬ Desc s.parent cut chain.head ∧ chain.compact cut s = (.error (.error (.diverged chain.head cut)), chain, s)) ∨
    (Desc s.parent cut chain.head ∧ ∃ n t, CompactedTo s cut chain.head t ∧ t.digests.card + n = s.digests.card ∧
      chain.compact cut s = (.ok n, { chain with root := cut }, t)) := by
  by_cases hhead : Desc s.parent cut chain.head
  · obtain ⟨t, n, hct, hcard, hlead⟩ := compactProg_leads hi hac (hr hhead) hhead
    refine .inr ⟨hhead, n, t, hct, hcard, ?_⟩
    unfold compact
    rw [hlead.done.1]; rfl
  · refine .inl ⟨hhead, ?_⟩
    have hfuel : (above s.parent s.digests chain.head).card + 1 ≤ compactFuel s := by
      have := (card_above_le (x := chain.head) : (above s.parent s.digests chain.head).card ≤ _)
      have := s.card_digests_le
      unfold compactFuel; omega
    unfold compact compactProg pruneProg
    rw [Prog.run_bind, Prog.run_bind, keepPath_diverged hac chain.head hfuel hhead]; rfl

end Program

end Chain

end IrohLotus.State
