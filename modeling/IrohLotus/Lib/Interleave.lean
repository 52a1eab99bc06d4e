/-
Steps of one party interleaved with steps of others over a shared state: what the others may read is
lost to nobody but them exactly when no step of the party takes away what can be read before it.
-/
import Mathlib.Data.List.Basic

namespace Interleave

variable {S E V : Type} (step : S → E → S) (foreign : E → Prop) (reads : S → V → Prop)

/-- Along these steps no foreign one takes away what can be read. -/
def Undisturbed (x : V) : S → List E → Prop
  | _, [] => True
  | s, e :: es => (foreign e → reads s x → reads (step s e) x) ∧ Undisturbed x (step s e) es

/-- Whatever can be read at some moment can be read later, until a foreign step takes it away. -/
def LosesNothing (s : S) (events : List E) : Prop :=
  ∀ before after beyond x, events = before ++ after ++ beyond → reads (before.foldl step s) x →
    Undisturbed step foreign reads x (before.foldl step s) after → reads ((before ++ after).foldl step s) x

/-- What can be read before the step can be read after it. -/
def Keeps (s : S) (e : E) : Prop := ∀ x, reads s x → reads (step s e) x

variable {step foreign reads}

/-- Steps that keep what can be read keep it through a run no foreign step disturbs. -/
theorem reads_of_undisturbed {x : V} : ∀ {after : List E} {s : S},
    (∀ pre e post, after = pre ++ e :: post → ¬ foreign e → Keeps step reads (pre.foldl step s) e) →
    reads s x → Undisturbed step foreign reads x s after → reads (after.foldl step s) x
  | [], _, _, hx, _ => hx
  | e :: after, s, hkeeps, hx, hundisturbed => by
    obtain ⟨hforeign, hrest⟩ := hundisturbed
    have hnext : reads (step s e) x := by
      by_cases he : foreign e
      · exact hforeign he hx
      · exact hkeeps [] e after rfl he x hx
    have hrun : reads (after.foldl step (step s e)) x := by
      refine reads_of_undisturbed (fun pre e' post hsplit he' => ?_) hnext hrest
      exact hkeeps (e :: pre) e' post (by rw [hsplit, List.cons_append]) he'
    exact hrun

/-- A party loses nothing exactly when each of its steps keeps what can be read before it. -/
theorem losesNothing_iff {s : S} {events : List E} : LosesNothing step foreign reads s events ↔
    ∀ before e after, events = before ++ e :: after → ¬ foreign e → Keeps step reads (before.foldl step s) e := by
  constructor
  · intro h before e after hsplit he x hx
    -- the one step is a run of its own
    have hone : Undisturbed step foreign reads x (before.foldl step s) [e] := ⟨fun hforeign => absurd hforeign he, trivial⟩
    have hread := h before [e] after x (by rw [hsplit, List.append_assoc, List.singleton_append]) hx hone
    rwa [List.foldl_append] at hread
  · intro h before after beyond x hsplit hx hundisturbed
    rw [List.foldl_append]
    refine reads_of_undisturbed (fun pre e post hafter he => ?_) hx hundisturbed
    rw [← List.foldl_append]
    exact h (before ++ pre) e (post ++ beyond) (by rw [hsplit, hafter]; simp) he

end Interleave
