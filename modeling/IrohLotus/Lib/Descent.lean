/-
Steps that go down. Where some invariant is kept and what is left to do gets less with every step, no run
goes on for ever, and every state comes to one no step leads on from.
-/
import Mathlib.Logic.Relation
import Mathlib.Order.WellFounded

namespace Descent

variable {α β : Type*} {step : α → α → Prop} {kept : α → Prop} {left : α → β} {a : α}

/-- No run from `a` goes on for ever. -/
theorem acc [Preorder β] [WellFoundedLT β] (keep : ∀ a b, kept a → step a b → kept b)
    (less : ∀ a b, kept a → step a b → left b < left a) (h : kept a) : Acc (fun b a => step a b) a := by
  induction hl : left a using WellFoundedLT.induction generalizing a with
  | ind l ih =>
    refine ⟨a, fun b hb => ?_⟩
    exact ih (left b) (hl ▸ less a b h hb) (keep a b h hb) rfl

theorem exists_end (h : Acc (fun b a => step a b) a) : ∃ b, Relation.ReflTransGen step a b ∧ ∀ c, ¬ step b c := by
  induction h with
  | intro a _ ih =>
    by_cases hstep : ∃ b, step a b
    · obtain ⟨b, hb⟩ := hstep
      obtain ⟨c, hbc, hend⟩ := ih b hb
      exact ⟨c, hbc.head hb, hend⟩
    · exact ⟨a, .refl, fun b hb => hstep ⟨b, hb⟩⟩

theorem not_forever (h : Acc (fun b a => step a b) a) : ∀ run : ℕ → α, run 0 = a → ∃ n, ¬ step (run n) (run (n + 1)) := by
  induction h with
  | intro a _ ih =>
    intro run hrun
    by_cases hfirst : step (run 0) (run 1)
    · obtain ⟨n, hn⟩ := ih (run 1) (hrun ▸ hfirst) (fun n => run (n + 1)) rfl
      exact ⟨n + 1, hn⟩
    · exact ⟨0, hfirst⟩

end Descent
