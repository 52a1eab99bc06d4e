/-
Work asked for again and again and done one piece at a time: a request that finds a piece under way is
remembered, all such requests as one, and one more piece is started when that piece ends. So of the pieces
started the last is always younger than every request, or another one is owed.
-/
import Mathlib.Data.List.Basic

namespace Coalesce

/-- Whether a piece is under way, and whether another is owed once it ends. -/
inductive Phase where
  | idle
  | running
  | again
deriving DecidableEq

/-- What happens to the work, in the order it happens. -/
inductive Mark where
  | wanted
  | started
  | ended
deriving DecidableEq

/-- A request starts a piece, or is remembered. -/
def Phase.request : Phase → Phase × List Mark
  | .idle => (.running, [.wanted, .started])
  | .running | .again => (.again, [.wanted])

/-- A piece ends, and one that is owed starts. -/
def Phase.land : Phase → Phase × List Mark
  | .again => (.running, [.ended, .started])
  | .idle | .running => (.idle, [.ended])

/-- Where requests and ends come to, and the record of them. -/
inductive Runs : Phase → List Mark → Prop
  | start : Runs .idle []
  | request {phase : Phase} {marks : List Mark} (h : Runs phase marks) : Runs phase.request.1 (marks ++ phase.request.2)
  | land {phase : Phase} {marks : List Mark} (h : Runs phase marks) (underway : phase ≠ .idle) :
    Runs phase.land.1 (marks ++ phase.land.2)

/-- After every request a piece was started. -/
def Served (marks : List Mark) : Prop := ∀ before after, marks = before ++ .wanted :: after → .started ∈ after

theorem served_nil : Served [] := by
  intro before after h
  exact absurd h.symm (List.append_ne_nil_of_right_ne_nil _ (List.cons_ne_nil _ _))

/-- A start serves whatever was asked for before it, and a request nothing has served yet. -/
theorem served_append {marks : List Mark} {mark : Mark} :
    Served (marks ++ [mark]) ↔ mark = .started ∨ mark = .ended ∧ Served marks := by
  constructor
  · intro h
    cases mark with
    | wanted => exact absurd (h marks [] rfl) List.not_mem_nil
    | started => exact .inl rfl
    | ended =>
      refine .inr ⟨rfl, fun before after hsplit => ?_⟩
      have hmem := h before (after ++ [.ended]) (by rw [hsplit, List.append_assoc, List.cons_append])
      rcases List.mem_append.1 hmem with hmem | hmem
      · exact hmem
      · cases List.mem_singleton.1 hmem
  · intro h before after hsplit
    rcases List.eq_nil_or_concat' after with rfl | ⟨after, last, rfl⟩
    · obtain ⟨-, hlast⟩ := List.append_inj' hsplit rfl
      cases hlast
      rcases h with h | ⟨h, -⟩ <;> cases h
    · rw [← List.cons_append, ← List.append_assoc] at hsplit
      obtain ⟨hmarks, hlast⟩ := List.append_inj' hsplit rfl
      cases hlast
      rcases h with rfl | ⟨rfl, hserved⟩
      · exact List.mem_append_right _ List.mem_cons_self
      · exact List.mem_append_left _ (hserved before after hmarks)

/-- One piece at a time, none that was not asked for, and a request without a piece after it only while the
piece before it is under way. -/
structure Kept (phase : Phase) (marks : List Mark) : Prop where
  served : phase ≠ .again → Served marks
  asked : marks.count .started + (if phase = .again then 1 else 0) ≤ marks.count .wanted
  single : marks.count .started = marks.count .ended + if phase = .idle then 0 else 1

theorem Kept.request {phase : Phase} {marks : List Mark} (h : Kept phase marks) :
    Kept phase.request.1 (marks ++ phase.request.2) := by
  obtain ⟨-, hasked, hsingle⟩ := h
  cases phase with
  | idle =>
    refine ⟨fun _ => ?_, ?_, ?_⟩
    · rw [Phase.request, ← List.singleton_append, ← List.append_assoc]
      exact served_append.2 (.inl rfl)
    · simp [Phase.request, List.count_append] at hasked ⊢
      omega
    · simp [Phase.request, List.count_append] at hsingle ⊢
      omega
  | running =>
    refine ⟨fun h => absurd rfl h, ?_, ?_⟩
    · simp [Phase.request, List.count_append] at hasked ⊢
      omega
    · simpa [Phase.request, List.count_append] using hsingle
  | again =>
    refine ⟨fun h => absurd rfl h, ?_, ?_⟩
    · simp [Phase.request, List.count_append] at hasked ⊢
      omega
    · simpa [Phase.request, List.count_append] using hsingle

theorem Kept.land {phase : Phase} {marks : List Mark} (h : Kept phase marks) (underway : phase ≠ .idle) :
    Kept phase.land.1 (marks ++ phase.land.2) := by
  obtain ⟨hserved, hasked, hsingle⟩ := h
  cases phase with
  | idle => exact absurd rfl underway
  | running =>
    refine ⟨fun _ => served_append.2 (.inr ⟨rfl, hserved (by decide)⟩), ?_, ?_⟩
    · simpa [Phase.land, List.count_append] using hasked
    · simpa [Phase.land, List.count_append] using hsingle
  | again =>
    refine ⟨fun _ => ?_, ?_, ?_⟩
    · rw [Phase.land, ← List.singleton_append, ← List.append_assoc]
      exact served_append.2 (.inl rfl)
    · simpa [Phase.land, List.count_append, List.count_cons] using hasked
    · simp [Phase.land, List.count_append] at hsingle ⊢
      omega

theorem Runs.kept {phase : Phase} {marks : List Mark} (h : Runs phase marks) : Kept phase marks := by
  induction h with
  | start => exact ⟨fun _ => served_nil, Nat.le_refl _, rfl⟩
  | request _ ih => exact ih.request
  | land _ underway ih => exact ih.land underway

end Coalesce
