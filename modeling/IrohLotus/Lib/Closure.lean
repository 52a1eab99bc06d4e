/-
What a recursive query yields: everything reached from a list of starting points by following
`next`. It is computed off a queue, each point expanded the first time it is taken off and dropped
every time after, as `WITH RECURSIVE ... UNION` does; fuel enough for every edge gives the closure.
-/
import Mathlib

namespace Closure

variable {α : Type} [DecidableEq α] (next : α → List α)

/-- Takes points off the queue until it is empty: `seen` is what has been expanded. -/
def visit : Nat → List α → List α → List α
  | _, [], seen => seen
  | 0, _ :: _, seen => seen
  | fuel + 1, x :: queue, seen =>
    if x ∈ seen then visit fuel queue seen else visit fuel (queue ++ next x) (x :: seen)

/-- `b` is reached from `a`. -/
def Reach : α → α → Prop := Relation.ReflTransGen fun a b => b ∈ next a

variable {next}

/-- Nothing is visited that was not seen, queued or reached from the queue. -/
theorem reach_of_mem_visit {x : α} : ∀ {fuel : Nat} {queue seen : List α}, x ∈ visit next fuel queue seen →
    x ∈ seen ∨ ∃ q ∈ queue, Reach next q x
  | fuel, [], seen, h => by
    unfold visit at h
    exact .inl h
  | 0, q :: queue, seen, h => .inl h
  | fuel + 1, q :: queue, seen, h => by
    unfold visit at h
    split at h
    · rcases reach_of_mem_visit h with h | ⟨y, hy, h⟩
      · exact .inl h
      · exact .inr ⟨y, List.mem_cons_of_mem q hy, h⟩
    · rcases reach_of_mem_visit h with h | ⟨y, hy, h⟩
      · rcases List.mem_cons.1 h with rfl | h
        · exact .inr ⟨x, List.mem_cons_self, .refl⟩
        · exact .inl h
      · rcases List.mem_append.1 hy with hy | hy
        · exact .inr ⟨y, List.mem_cons_of_mem q hy, h⟩
        · exact .inr ⟨q, List.mem_cons_self, .head hy h⟩

/-- How many steps are left: the queue, and the edges of the points not expanded yet. -/
def work (next : α → List α) (support : Finset α) (queue seen : List α) : Nat :=
  queue.length + ∑ x ∈ support.filter (· ∉ seen), (next x).length

/-- Expanding a point trades its edges for as many places in the queue. -/
theorem work_expand {support : Finset α} (hsupport : ∀ x, x ∉ support → next x = []) {x : α} {seen : List α}
    (hx : x ∉ seen) (queue : List α) : work next support (queue ++ next x) (x :: seen) < work next support (x :: queue) seen := by
  have hfilter : support.filter (· ∉ x :: seen) = (support.filter (· ∉ seen)).erase x := by
    ext y
    simp only [Finset.mem_filter, List.mem_cons, not_or, Finset.mem_erase]
    tauto
  unfold work
  rw [hfilter, List.length_append, List.length_cons]
  by_cases hs : x ∈ support
  · have hsum := Finset.add_sum_erase (support.filter (· ∉ seen)) (fun x => (next x).length)
      (Finset.mem_filter.2 ⟨hs, hx⟩)
    omega
  · rw [hsupport x hs, Finset.erase_eq_of_notMem fun h => hs (Finset.mem_filter.1 h).1]
    simp

theorem work_skip (next : α → List α) (support : Finset α) (x : α) (queue seen : List α) :
    work next support queue seen < work next support (x :: queue) seen := by
  unfold work
  rw [List.length_cons]
  omega

/-- With fuel for the work left, the visit ends with everything queued seen, and whatever is seen expanded. -/
theorem visit_complete {support : Finset α} (hsupport : ∀ x, x ∉ support → next x = []) :
    ∀ (fuel : Nat) (queue seen : List α), work next support queue seen ≤ fuel →
      (∀ x ∈ seen, ∀ y ∈ next x, y ∈ seen ∨ y ∈ queue) →
      (∀ x, x ∈ seen ∨ x ∈ queue → x ∈ visit next fuel queue seen) ∧
        ∀ x ∈ visit next fuel queue seen, ∀ y ∈ next x, y ∈ visit next fuel queue seen
  | fuel, [], seen, _, hseen => by
    unfold visit
    simpa using hseen
  | 0, q :: queue, seen, hfuel, _ => by
    unfold work at hfuel
    simp at hfuel
  | fuel + 1, q :: queue, seen, hfuel, hseen => by
    unfold visit
    split
    · rename_i hq
      have hlt := work_skip next support q queue seen
      obtain ⟨hin, hclosed⟩ := visit_complete hsupport fuel queue seen (by omega) (by
        intro x hx y hy
        rcases hseen x hx y hy with h | h
        · exact .inl h
        · rcases List.mem_cons.1 h with rfl | h
          · exact .inl hq
          · exact .inr h)
      refine ⟨fun x hx => hin x ?_, hclosed⟩
      rcases hx with hx | hx
      · exact .inl hx
      · rcases List.mem_cons.1 hx with rfl | hx
        · exact .inl hq
        · exact .inr hx
    · rename_i hq
      have hlt := work_expand hsupport hq queue
      obtain ⟨hin, hclosed⟩ := visit_complete hsupport fuel (queue ++ next q) (q :: seen)
        (by omega) (by
          intro x hx y hy
          rcases List.mem_cons.1 hx with rfl | hx
          · exact .inr (List.mem_append_right _ hy)
          · rcases hseen x hx y hy with h | h
            · exact .inl (List.mem_cons_of_mem q h)
            · rcases List.mem_cons.1 h with rfl | h
              · exact .inl List.mem_cons_self
              · exact .inr (List.mem_append_left _ h))
      refine ⟨fun x hx => hin x ?_, hclosed⟩
      rcases hx with hx | hx
      · exact .inl (List.mem_cons_of_mem q hx)
      · rcases List.mem_cons.1 hx with rfl | hx
        · exact .inl List.mem_cons_self
        · exact .inr (List.mem_append_left _ hx)

/-- With fuel for every edge, the visit yields exactly what is reached from the start. -/
theorem mem_visit {support : Finset α} (hsupport : ∀ x, x ∉ support → next x = []) {fuel : Nat} {start : List α}
    (hfuel : start.length + ∑ x ∈ support, (next x).length ≤ fuel) {x : α} :
    x ∈ visit next fuel start [] ↔ ∃ q ∈ start, Reach next q x := by
  constructor
  · intro h
    rcases reach_of_mem_visit h with h | h
    · cases h
    · exact h
  · rintro ⟨q, hq, hx⟩
    obtain ⟨hin, hclosed⟩ := visit_complete hsupport fuel start []
      (by simpa [work] using hfuel) (by simp)
    induction hx with
    | refl => exact hin q (.inr hq)
    | tail _ hy ih => exact hclosed _ ih _ hy

end Closure
