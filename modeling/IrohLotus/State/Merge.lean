/-
Change sets and movements folded into one another (`ChangeSet::merge`, `Movement::merge`): what the
merged one touches and orphans is what either of the two did.
-/
import IrohLotus.State.Cover

namespace IrohLotus.State

open Std Outcome IrohLotus.Wire IrohLotus.Storage

namespace ChangeSet

variable {set other : ChangeSet} {key k : NamespaceKey} {q : Option SubkeyPath}

/-- No namespace is recorded with an empty set of paths. -/
def Formed (set : ChangeSet) : Prop :=
  ∀ (key : NamespaceKey) (paths : ExtTreeSet SubkeyPath), set.changes[key]? = some (.paths paths) → ∃ path, path ∈ paths

/-- What a namespace's change reaches. -/
def Reaches (change : Change) (q : Option SubkeyPath) : Prop :=
  match change with
  | .whole => True
  | .paths paths => ∃ path ∈ paths, Meets (some path) q

theorem touches_iff (h : set.Formed) : set.touches k q = true ↔ ∃ change, set.changes[k]? = some change ∧ Reaches change q := by
  cases hget : set.changes[k]? with
  | none => simp [touches, hget]
  | some change =>
    cases change with
    | whole => simp [touches, hget, Reaches]
    | paths paths =>
      rw [touches_paths hget]
      obtain ⟨path, hpath⟩ := h k paths hget
      simp only [Option.some.injEq, exists_eq_left', Reaches]
      cases q with
      | none =>
        constructor
        · intro _
          exact ⟨path, hpath, trivial⟩
        · intro _ a ha
          cases ha
      | some b => simp [Meets, overlaps_iff]

theorem touches_mergeChange (change : Change) :
    (set.mergeChange (key, change)).touches k q = true ↔ set.touches k q = true ∨ key = k ∧ Reaches change q := by
  have hfold : ∀ (l : List SubkeyPath) (set : ChangeSet),
      (l.foldl (fun set path => set.touch key (some path)) set).touches k q = true ↔
        set.touches k q = true ∨ key = k ∧ ∃ path ∈ l, Meets (some path) q := by
    intro l
    induction l with
    | nil => simp
    | cons path l ih =>
      intro set
      rw [List.foldl_cons, ih, touches_touch]
      simp only [List.mem_cons, exists_eq_or_imp, and_or_left, or_assoc]
  cases change with
  | whole =>
    show (set.touch key none).touches k q = true ↔ _
    rw [touches_touch]
    simp [Meets, Reaches]
  | paths paths =>
    show (paths.toList.foldl _ set).touches k q = true ↔ _
    rw [hfold]
    simp [Reaches]

/-- A merged set touches what either of the two did. -/
theorem touches_merge (h : other.Formed) :
    (set.merge other).touches k q = true ↔ set.touches k q = true ∨ other.touches k q = true := by
  have hfold : ∀ (l : List (NamespaceKey × Change)) (set : ChangeSet),
      (l.foldl mergeChange set).touches k q = true ↔
        set.touches k q = true ∨ ∃ change, (k, change) ∈ l ∧ Reaches change q := by
    intro l
    induction l with
    | nil => simp
    | cons entry l ih =>
      intro set
      obtain ⟨key, change⟩ := entry
      rw [List.foldl_cons, ih, touches_mergeChange, or_assoc]
      refine or_congr_right ⟨?_, ?_⟩
      · rintro (⟨rfl, hr⟩ | ⟨c, hc, hr⟩)
        · exact ⟨change, List.mem_cons_self, hr⟩
        · exact ⟨c, List.mem_cons_of_mem _ hc, hr⟩
      · rintro ⟨c, hc, hr⟩
        rcases List.mem_cons.1 hc with hc | hc
        · cases hc; exact .inl ⟨rfl, hr⟩
        · exact .inr ⟨c, hc, hr⟩
  show (other.changes.toList.foldl mergeChange set).touches k q = true ↔ _
  rw [hfold, touches_iff h]
  simp only [ExtTreeMap.mem_toList_iff_getElem?_eq_some]

theorem Formed.insert (h : set.Formed) {change : Change} (hc : ∀ paths, change = .paths paths → ∃ path, path ∈ paths) :
    Formed ⟨set.changes.insert key change⟩ := by
  intro k paths hget
  rw [ExtTreeMap.getElem?_insert] at hget
  split at hget
  · exact hc paths (Option.some.inj hget)
  · exact h k paths hget

theorem Formed.touch (h : set.Formed) (key : NamespaceKey) (path : Option SubkeyPath) : (set.touch key path).Formed := by
  cases path with
  | none => exact h.insert nofun
  | some path =>
    unfold ChangeSet.touch
    dsimp only
    split
    · refine h.insert fun paths hp => ⟨path, ?_⟩
      cases hp; simp
    · exact h
    · split
      · exact h
      · refine h.insert fun paths hp => ⟨path, ?_⟩
        cases hp; simp

theorem Formed.foldl {α : Type} {f : ChangeSet → α → ChangeSet} (hf : ∀ set a, set.Formed → (f set a).Formed) :
    ∀ (l : List α) {set : ChangeSet}, set.Formed → (l.foldl f set).Formed
  | [], _, h => h
  | a :: l, set, h => Formed.foldl hf l (hf set a h)

theorem Formed.record (h : set.Formed) (msg : Msg) : (set.record msg).Formed := by
  cases msg with
  | init msg => exact Formed.foldl (fun set key hs => hs.touch key none) _ h
  | setNamespace msg => exact h.touch msg.key _
  | deleteNamespace msg => exact h.touch msg.key _
  | setNamespaceKey msg => exact h.touch msg.key _
  | amendNamespaceKey msg => exact h.touch msg.key _

theorem Formed.merge (h : set.Formed) (other : ChangeSet) : (set.merge other).Formed := by
  refine Formed.foldl (fun set entry hs => ?_) _ h
  obtain ⟨key, change⟩ := entry
  cases change with
  | whole => exact hs.touch key none
  | paths paths => exact Formed.foldl (fun set path hs => hs.touch key (some path)) _ hs

end ChangeSet

/-! ## One movement within another -/

namespace Movement

/-- Everything `b` touched and orphaned, `a` did too. -/
structure Includes (a b : Movement) : Prop where
  changes : ∀ key path, b.changes.touches key path = true → a.changes.touches key path = true
  orphaned : ∀ digest, digest ∈ b.orphaned → digest ∈ a.orphaned

theorem Includes.refl (a : Movement) : Includes a a := ⟨fun _ _ h => h, fun _ h => h⟩

theorem Includes.trans {a b c : Movement} (h : Includes a b) (h' : Includes b c) : Includes a c :=
  ⟨fun key path hc => h.changes key path (h'.changes key path hc), fun d hd => h.orphaned d (h'.orphaned d hd)⟩

theorem includes_merge_left {a b : Movement} (hb : b.changes.Formed) : Includes (a.merge b) a :=
  ⟨fun _ _ h => (ChangeSet.touches_merge hb).2 (.inl h), fun _ h => mem_orphaned_merge.2 (.inl h)⟩

theorem includes_merge_right {a b : Movement} (hb : b.changes.Formed) : Includes (a.merge b) b :=
  ⟨fun _ _ h => (ChangeSet.touches_merge hb).2 (.inr h), fun _ h => mem_orphaned_merge.2 (.inr h)⟩

theorem foldl_formed {α : Type} {f : Movement → α → Movement} (hf : ∀ v a, v.changes.Formed → (f v a).changes.Formed) :
    ∀ (l : List α) {v : Movement}, v.changes.Formed → (l.foldl f v).changes.Formed
  | [], _, h => h
  | a :: l, v, h => foldl_formed hf l (hf v a h)

end Movement

/-- What the differ reports is well formed. -/
theorem ChangeDiffer.diff_formed {differ : ChangeDiffer} {s : MemStorage} {target : EnvelopeDigest} {movement : Movement}
    (h : differ.diff s target = .ok movement) : movement.changes.Formed := by
  obtain ⟨⟨m, undone, made⟩, -, hm⟩ := Res.bind_eq_ok h
  cases hm
  refine Movement.foldl_formed (fun v p hv => hv.record _) _ (Movement.foldl_formed (fun v p hv => hv.record _) _ ?_)
  intro key paths hget
  simp [Movement.empty, ChangeSet.empty] at hget

end IrohLotus.State
