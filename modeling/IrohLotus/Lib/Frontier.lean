/-
The frontier of a set under a partial order: its elements that lie above no other. It can be kept as the
elements come one at a time, and what is kept depends on the set alone, not on the order they came in.
-/
import Mathlib

namespace Frontier

variable {α : Type*} (r : α → α → Prop)

/-- The elements of a set that lie above no other of it. -/
def frontier (s : Set α) : Set α := {x | x ∈ s ∧ ∀ y ∈ s, r y x → y = x}

/-- Every element lies above one of the frontier. -/
def Grounded (s : Set α) : Prop := ∀ x ∈ s, ∃ y ∈ frontier r s, r y x

/-- What is kept once `a` comes: it adds nothing if it lies above something kept, and drops what lies above
it if not. -/
def absorb (kept : Set α) (a : α) : Set α :=
  {x | x ∈ kept ∧ ((∃ y ∈ kept, r y a) ∨ ¬ r a x) ∨ x = a ∧ ∀ y ∈ kept, ¬ r y a}

variable {r} {s t : Set α} {a : α}

theorem absorb_of_above (h : ∃ y ∈ s, r y a) : absorb r s a = s := by
  ext x
  constructor
  · rintro (⟨hx, -⟩ | ⟨-, hno⟩)
    · exact hx
    · obtain ⟨y, hy, hya⟩ := h
      exact absurd hya (hno y hy)
  · intro hx
    exact .inl ⟨hx, .inl h⟩

theorem mem_absorb_of_not_above (h : ∀ y ∈ s, ¬ r y a) {x : α} : x ∈ absorb r s a ↔ x ∈ s ∧ ¬ r a x ∨ x = a := by
  constructor
  · rintro (⟨hx, ⟨y, hy, hya⟩ | hax⟩ | ⟨rfl, -⟩)
    · exact absurd hya (h y hy)
    · exact .inl ⟨hx, hax⟩
    · exact .inr rfl
  · rintro (⟨hx, hax⟩ | rfl)
    · exact .inl ⟨hx, .inr hax⟩
    · exact .inr ⟨rfl, h⟩

@[simp] theorem frontier_empty : frontier r (∅ : Set α) = ∅ := by
  ext x
  constructor
  · intro hx
    exact hx.1
  · intro hx
    cases hx

variable [IsPartialOrder α r]

/-- Keeping one more element keeps the frontier. -/
theorem frontier_insert (hs : Grounded r s) (a : α) : frontier r (insert a s) = absorb r (frontier r s) a := by
  by_cases habove : ∃ y ∈ frontier r s, r y a
  · rw [absorb_of_above habove]
    obtain ⟨y, hy, hya⟩ := habove
    ext x
    constructor
    · rintro ⟨hx, hmin⟩
      rcases Set.mem_insert_iff.1 hx with rfl | hx
      · rw [← hmin y (Set.mem_insert_of_mem _ hy.1) hya]
        exact hy
      · exact ⟨hx, fun z hz => hmin z (Set.mem_insert_of_mem _ hz)⟩
    · rintro ⟨hx, hmin⟩
      refine ⟨Set.mem_insert_of_mem _ hx, fun z hz hzx => ?_⟩
      rcases Set.mem_insert_iff.1 hz with rfl | hz
      · obtain rfl := hmin y hy.1 (IsTrans.trans _ _ _ hya hzx)
        exact antisymm hzx hya
      · exact hmin z hz hzx
  · have hno : ∀ y ∈ s, ¬ r y a := by
      intro y hy hya
      obtain ⟨z, hz, hzy⟩ := hs y hy
      exact habove ⟨z, hz, IsTrans.trans _ _ _ hzy hya⟩
    ext x
    rw [mem_absorb_of_not_above fun y hy hya => habove ⟨y, hy, hya⟩]
    constructor
    · rintro ⟨hx, hmin⟩
      rcases Set.mem_insert_iff.1 hx with rfl | hx
      · exact .inr rfl
      · refine .inl ⟨⟨hx, fun z hz => hmin z (Set.mem_insert_of_mem _ hz)⟩, fun hax => ?_⟩
        obtain rfl := hmin a (Set.mem_insert _ _) hax
        exact hno a hx (refl a)
    · rintro (⟨⟨hx, hmin⟩, hax⟩ | rfl)
      · refine ⟨Set.mem_insert_of_mem _ hx, fun z hz hzx => ?_⟩
        rcases Set.mem_insert_iff.1 hz with rfl | hz
        · exact absurd hzx hax
        · exact hmin z hz hzx
      · refine ⟨Set.mem_insert _ _, fun z hz hzx => ?_⟩
        rcases Set.mem_insert_iff.1 hz with rfl | hz
        · rfl
        · exact absurd hzx (hno z hz)

/-- A set may be joined through its frontier. -/
theorem frontier_union_frontier (ht : Grounded r t) : frontier r (s ∪ frontier r t) = frontier r (s ∪ t) := by
  ext x
  constructor
  · rintro ⟨hx, hmin⟩
    refine ⟨hx.imp_right fun h => h.1, fun y hy hyx => ?_⟩
    rcases hy with hy | hy
    · exact hmin y (.inl hy) hyx
    · obtain ⟨z, hz, hzy⟩ := ht y hy
      obtain rfl := hmin z (.inr hz) (IsTrans.trans _ _ _ hzy hyx)
      exact antisymm hyx hzy
  · rintro ⟨hx, hmin⟩
    refine ⟨hx.imp_right fun h => ⟨h, fun y hy => hmin y (.inr hy)⟩, fun y hy => hmin y (hy.imp_right fun h => h.1)⟩

/-- Where the order has a measure, every set is grounded. -/
theorem grounded_of_measure (measure : α → Nat) (hlt : ∀ x y, r x y → x ≠ y → measure x < measure y) (s : Set α) :
    Grounded r s := by
  intro x hx
  induction hn : measure x using Nat.strong_induction_on generalizing x with
  | _ n ih =>
    by_cases hmin : ∀ y ∈ s, r y x → y = x
    · exact ⟨x, ⟨hx, hmin⟩, refl x⟩
    · push Not at hmin
      obtain ⟨y, hy, hyx, hne⟩ := hmin
      obtain ⟨z, hz, hzy⟩ := ih (measure y) (hn ▸ hlt y x hyx hne) y hy rfl
      exact ⟨z, hz, IsTrans.trans _ _ _ hzy hyx⟩

end Frontier

/-- Any set of lists is grounded under the order of prefixes. -/
theorem List.grounded_prefix {α : Type*} (s : Set (List α)) : Frontier.Grounded (· <+: ·) s :=
  Frontier.grounded_of_measure List.length (fun _ _ h hne => lt_of_le_of_ne h.length_le fun heq => hne (h.eq_of_length heq)) s
