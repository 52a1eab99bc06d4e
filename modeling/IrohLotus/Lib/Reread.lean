/-
A reader that is told that what it follows moved, not how: told once for several moves, it goes and reads
the whole again, one trip at a time, and what it is told of on the way has it go once more. Whatever the
order of moves, wakes, reads and landings, once it rests it holds what is there.
-/
import IrohLotus.Lib.Coalesce

namespace Reread

open Coalesce

/-- A trip that has still to read, or is on its way back with what it found. -/
inductive Trip (α : Type*) where
  | out
  | back (found : α)

/-- A reader: whether it has been told of a move, its trips, and what it read last. -/
structure Reader (α : Type*) where
  told : Prop
  phase : Phase
  trips : List (Trip α)
  last : Option α

variable {α : Type*}

/-- The trips marks stand for. -/
def departures (marks : List Mark) : List (Trip α) := if .started ∈ marks then [.out] else []

/-- One step, of what there is to read or of the reader; what it brings back may be old news where it was
told of more. -/
inductive Step : α → Reader α → α → Reader α → Prop
  | moves {truth truth' : α} {r : Reader α} {told : Prop} (news : truth' ≠ truth → told) (still : r.told → told) :
    Step truth r truth' { r with told }
  | wakes {truth : α} {r : Reader α} (told : r.told) :
    Step truth r truth { r with
      told := False, phase := r.phase.request.1, trips := r.trips ++ departures r.phase.request.2 }
  | reads {truth found : α} {r : Reader α} {before after : List (Trip α)} (right : r.told ∨ found = truth)
    (split : r.trips = before ++ .out :: after) : Step truth r truth { r with trips := before ++ .back found :: after }
  | lands {truth found : α} {r : Reader α} {before after : List (Trip α)} (split : r.trips = before ++ .back found :: after) :
    Step truth r truth { r with
      phase := r.phase.land.1, trips := before ++ after ++ departures r.phase.land.2, last := some found }

/-- What says that the reader will come to hold `truth`, or holds it. -/
inductive Fresh (truth : α) (r : Reader α) : Prop
  | told (told : r.told)
  | again (owed : r.phase = .again)
  | out (underway : r.trips = [.out])
  | back (underway : r.trips = [.back truth])
  | known (last : r.last = some truth) (home : r.trips = [])

/-- What is kept of a reader. -/
structure Kept (truth : α) (r : Reader α) : Prop where
  single : r.trips.length = if r.phase = .idle then 0 else 1
  fresh : Fresh truth r

/-- A reader starts by going to read. -/
theorem kept_started {truth : α} {told : Prop} : Kept truth ⟨told, .running, [.out], none⟩ := ⟨rfl, .out rfl⟩

/-- Where the one trip there is splits the trips, it is all of them. -/
theorem Kept.eq_singleton {truth : α} {r : Reader α} (h : Kept truth r) {before after : List (Trip α)} {trip : Trip α}
    (split : r.trips = before ++ trip :: after) : before = [] ∧ after = [] ∧ r.phase ≠ .idle := by
  have hlen := h.single
  rw [split, List.length_append, List.length_cons] at hlen
  split at hlen
  · omega
  · rename_i hphase
    exact ⟨List.length_eq_zero_iff.1 (by omega), List.length_eq_zero_iff.1 (by omega), hphase⟩

theorem Kept.step {truth truth' : α} {r r' : Reader α} (h : Kept truth r) (step : Step truth r truth' r') : Kept truth' r' := by
  cases step with
  | moves news still =>
    refine ⟨h.single, ?_⟩
    by_cases hsame : truth' = truth
    · subst hsame
      cases h.fresh with
      | told told => exact .told (still told)
      | again owed => exact .again owed
      | out underway => exact .out underway
      | back underway => exact .back underway
      | known last home => exact .known last home
    · exact .told (news hsame)
  | wakes told =>
    have hsingle := h.single
    obtain ⟨told, phase, trips, last⟩ := r
    cases phase with
    | idle =>
      obtain rfl := List.length_eq_zero_iff.1 hsingle
      exact ⟨rfl, .out rfl⟩
    | running => exact ⟨by simpa [Phase.request, departures] using hsingle, .again rfl⟩
    | again => exact ⟨by simpa [Phase.request, departures] using hsingle, .again rfl⟩
  | reads right split =>
    obtain ⟨rfl, rfl, hphase⟩ := h.eq_singleton split
    refine ⟨?_, ?_⟩
    · rw [if_neg hphase]
      rfl
    · rcases right with told | rfl
      · exact .told told
      · exact .back rfl
  | lands split =>
    obtain ⟨rfl, rfl, hphase⟩ := h.eq_singleton split
    have hfresh := h.fresh
    obtain ⟨told, phase, trips, last⟩ := r
    dsimp only at split
    subst split
    cases phase with
    | idle => exact absurd rfl hphase
    | running =>
      refine ⟨rfl, ?_⟩
      cases hfresh with
      | told told => exact .told told
      | again owed => cases owed
      | out underway => cases underway
      | back underway =>
        cases underway
        exact .known rfl rfl
      | known last home => cases home
    | again => exact ⟨rfl, .out rfl⟩

/-- At rest, with nothing left to hear of, what the reader holds is what there is. -/
theorem Kept.rest {truth : α} {r : Reader α} (h : Kept truth r) (untold : ¬ r.told) (idle : r.phase = .idle) :
    r.last = some truth := by
  have hhome : r.trips = [] := List.length_eq_zero_iff.1 (by simpa [idle] using h.single)
  cases h.fresh with
  | told told => exact absurd told untold
  | again owed => rw [owed] at idle; cases idle
  | out underway => rw [hhome] at underway; cases underway
  | back underway => rw [hhome] at underway; cases underway
  | known last home => exact last

end Reread
