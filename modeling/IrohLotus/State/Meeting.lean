/-
The meeting point of two walks down the log: the lowest digest they have in common. The differ finds
it whenever there is one, and what it reports is the part of either walk above it.
-/
import IrohLotus.State.Cover

namespace IrohLotus.State

open Std Outcome Forest IrohLotus.Wire IrohLotus.Storage

variable {s : MemStorage} {x x' m d : EnvelopeDigest}

/-- `m` is the lowest of the digests on both walks. -/
structure Meeting (s : MemStorage) (x x' m : EnvelopeDigest) : Prop where
  left : Desc s.parent m x
  right : Desc s.parent m x'
  lowest : ∀ d, Desc s.parent d x → Desc s.parent d x' → Desc s.parent d m

/-- What a movement from `x` to `x'` comes to, where the walks meet at `m`: the orphans are the
envelopes of the one walk above `m`, and the changes what the messages of both recorded. -/
structure Parts (s : MemStorage) (x x' m : EnvelopeDigest) (move : Movement)
    (left right : List (EnvelopeDigest × Envelope)) : Prop where
  trail_left : Trail s x left (some m)
  trail_right : Trail s x' right (some m)
  mem_left : ∀ d, d ∈ left.map Prod.fst ↔ Desc s.parent d x ∧ Desc s.parent m d ∧ d ≠ m
  mem_right : ∀ d, d ∈ right.map Prod.fst ↔ Desc s.parent d x' ∧ Desc s.parent m d ∧ d ≠ m
  orphaned : ∀ d, d ∈ move.orphaned ↔ d ∈ left.map Prod.fst
  changes : move.changes = (left ++ right).foldl (fun set p => set.record p.2.payload) ChangeSet.empty
  touches : ∀ k q, move.changes.touches k q = true ↔
    ∃ p ∈ left ++ right, (ChangeSet.empty.record p.2.payload).touches k q = true

theorem Meeting.unique (hac : Acyclic s.parent) {m' : EnvelopeDigest} (h : Meeting s x x' m) (h' : Meeting s x x' m') :
    m = m' :=
  hac.antisymm (h'.lowest m h.left h.right) (h.lowest m' h'.left h'.right)

theorem Meeting.symm (h : Meeting s x x' m) : Meeting s x' x m :=
  ⟨h.right, h.left, fun d hd hd' => h.lowest d hd' hd⟩

/-- What of the one walk is not on the other lies strictly above the meeting point. -/
theorem Meeting.above_iff (hac : Acyclic s.parent) (h : Meeting s x x' m) :
    Desc s.parent d x ∧ ¬ Desc s.parent d x' ↔ Desc s.parent d x ∧ Desc s.parent m d ∧ d ≠ m := by
  constructor
  · rintro ⟨hd, hno⟩
    rcases hd.total h.left with hle | hle
    · exact absurd (hle.trans h.right) hno
    · refine ⟨hd, hle, ?_⟩
      rintro rfl
      exact hno h.right
  · rintro ⟨hd, hle, hne⟩
    exact ⟨hd, fun hd' => hne (hac.antisymm (h.lowest d hd hd') hle)⟩

/-- Walks with a digest in common have a lowest one, and the differ meets there. -/
theorem diff_of_common (hac : Acyclic s.parent) {base : EnvelopeDigest} (h : Desc s.parent base x)
    (h' : Desc s.parent base x') :
    ∃ m move left right, Meeting s x x' m ∧ (ChangeDiffer.openedAt x).diff s x' = .ok move ∧
      Parts s x x' m move left right := by
  obtain ⟨m, undone, made, hdiff, hleft, hright, hlast, hundone, hmade⟩ := ChangeDiffer.diff_eq_ok hac h h'
  have hmeet : Meeting s x x' m :=
    ⟨hleft.desc_next m rfl, hright.desc_next m rfl, fun d hd hd' => (hlast d).2 ⟨hd, hd'⟩⟩
  refine ⟨m, _, undone.above m, made.above m, hmeet, hdiff, ?_⟩
  constructor
  case trail_left => exact hleft
  case trail_right => exact hright
  case mem_left => exact fun d => (hundone d).trans (hmeet.above_iff hac)
  case mem_right => exact fun d => (hmade d).trans (hmeet.symm.above_iff hac)
  case orphaned => exact fun d => ChangeDiffer.orphaned_movement
  case changes => exact changes_movement
  case touches =>
    intro k q
    rw [touches_movement]
    simp only [touches_record, touches_empty]
    simp

/-- The differ finds the meeting point: between two heads whose walks down the log have a digest in
common it returns the part of either walk above the lowest one, and it fails exactly where they have
none. -/
theorem diff_exact (hac : Acyclic s.parent) (x x' : EnvelopeDigest) :
    (∀ m, Meeting s x x' m → ∃ move left right, (ChangeDiffer.openedAt x).diff s x' = .ok move ∧
      Parts s x x' m move left right) ∧
    ((∃ d, Desc s.parent d x ∧ Desc s.parent d x') → ∃ m, Meeting s x x' m) ∧
    ((ChangeDiffer.openedAt x).diff s x' = Res.fail (.diverged x x') ↔
      ¬ ∃ d, Desc s.parent d x ∧ Desc s.parent d x') := by
  refine ⟨fun m hm => ?_, ?_, ?_⟩
  · obtain ⟨m', move, left, right, hm', hrest⟩ := diff_of_common hac hm.left hm.right
    obtain rfl := hm.unique hac hm'
    exact ⟨move, left, right, hrest⟩
  · rintro ⟨d, hd, hd'⟩
    obtain ⟨m, _, _, _, hm, -⟩ := diff_of_common hac hd hd'
    exact ⟨m, hm⟩
  · constructor
    · rintro hdiff ⟨d, hd, hd'⟩
      obtain ⟨m, move, _, _, -, hok, -⟩ := diff_of_common hac hd hd'
      rw [hdiff] at hok; cases hok
    · intro hno
      exact ChangeDiffer.diff_diverged hac fun d hd hd' => hno ⟨d, hd, hd'⟩

end IrohLotus.State

/-! ## The samples -/

namespace IrohLotus.State

open Std Outcome Forest IrohLotus.Wire IrohLotus.Wire.Sample IrohLotus.Storage

/-- A fork of two envelopes against one, and the walk of a compacted chain down to the digest its
root names. -/
theorem diff_exact_samples :
    (∃ m move left right, Meeting forkedStore secondDigest otherDigest m ∧
      (ChangeDiffer.openedAt secondDigest).diff forkedStore otherDigest = .ok move ∧
      Parts forkedStore secondDigest otherDigest m move left right) ∧
    ∃ m move left right, Meeting compactedStore secondDigest genesisDigest m ∧
      (ChangeDiffer.openedAt secondDigest).diff compactedStore genesisDigest = .ok move ∧
      Parts compactedStore secondDigest genesisDigest m move left right := by
  obtain ⟨_, -, hforked⟩ := reachable_forkedStore.good sample_laws
  obtain ⟨_, -, hcompacted⟩ := reachable_compactedStore.good sample_laws
  have hchildren : forkedStore.parent firstDigest = some genesisDigest ∧ forkedStore.parent secondDigest = some firstDigest ∧
      forkedStore.parent otherDigest = some genesisDigest ∧ compactedStore.parent firstDigest = some genesisDigest ∧
      compactedStore.parent secondDigest = some firstDigest := by
    decide +kernel
  obtain ⟨hfirst, hsecond, hother, hfirst', hsecond'⟩ := hchildren
  constructor
  · obtain ⟨hmeets, hmeeting, -⟩ := diff_exact hforked.acyclic secondDigest otherDigest
    obtain ⟨m, hm⟩ := hmeeting ⟨genesisDigest, (Desc.of_child hfirst).trans (Desc.of_child hsecond), Desc.of_child hother⟩
    obtain ⟨move, left, right, hmove⟩ := hmeets m hm
    exact ⟨m, move, left, right, hm, hmove⟩
  · obtain ⟨hmeets, hmeeting, -⟩ := diff_exact hcompacted.acyclic secondDigest genesisDigest
    obtain ⟨m, hm⟩ := hmeeting ⟨genesisDigest, (Desc.of_child hfirst').trans (Desc.of_child hsecond'), Desc.refl⟩
    obtain ⟨move, left, right, hmove⟩ := hmeets m hm
    exact ⟨m, move, left, right, hm, hmove⟩

end IrohLotus.State
