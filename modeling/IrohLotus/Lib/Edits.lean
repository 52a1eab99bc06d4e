/-
Editing a list in place until it holds what is wanted. What the list keeps is the first occurrence of
each wanted entry; every other index is spare, to be written over with an entry the list lacks or
dropped. Run gains first and drops from the highest index down, every edit finds its index and the
list never loses an entry it was to keep.
-/
import Mathlib

namespace Edits

variable {α : Type*}

/-- One edit, by index into the list as it stands. -/
inductive Edit (α : Type*) where
  | append (a : α)
  | replace (i : Nat) (a : α)
  | drop (i : Nat)
deriving DecidableEq

/-- The index an edit is for. -/
def Edit.index : Edit α → Option Nat
  | .append _ => none
  | .replace i _ => some i
  | .drop i => some i

/-- The list after an edit, if the index is one of it. -/
def Edit.apply (l : List α) : Edit α → Option (List α)
  | .append a => some (l ++ [a])
  | .replace i a => if i < l.length then some (l.set i a) else none
  | .drop i => if i < l.length then some (l.eraseIdx i) else none

/-- The states a run of steps goes through, the first one included, if every step can be taken. -/
inductive Run {σ ε : Type*} (apply : σ → ε → Option σ) : σ → List ε → List σ → σ → Prop
  | nil (s : σ) : Run apply s [] [s] s
  | cons {s s' last : σ} {e : ε} {es : List ε} {through : List σ} (step : apply s e = some s')
    (rest : Run apply s' es through last) : Run apply s (e :: es) (s :: through) last

section Run

variable {σ ε ε' : Type*} {apply : σ → ε → Option σ}

theorem Run.append {s m last : σ} {es fs : List ε} {ls ms : List σ} (h : Run apply s es ls m)
    (h' : Run apply m fs ms last) : ∃ through, Run apply s (es ++ fs) through last ∧ ∀ x ∈ through, x ∈ ls ∨ x ∈ ms := by
  induction h with
  | nil => exact ⟨ms, h', fun _ => .inr⟩
  | cons step _ ih =>
    obtain ⟨through, hrun, hmem⟩ := ih h'
    refine ⟨_, .cons step hrun, fun x hx => ?_⟩
    rcases List.mem_cons.1 hx with rfl | hx
    · exact .inl List.mem_cons_self
    · exact (hmem x hx).imp_left (List.mem_cons_of_mem _)

/-- Steps that another kind of step follows take it through the same states. -/
theorem Run.map {apply' : σ → ε' → Option σ} {f : ε → ε'} {s last : σ} {es : List ε} {through : List σ}
    (h : Run apply s es through last) (follows : ∀ e ∈ es, ∀ s s', apply s e = some s' → apply' s (f e) = some s') :
    Run apply' s (es.map f) through last := by
  induction h with
  | nil => exact .nil _
  | cons step _ ih =>
    exact .cons (follows _ List.mem_cons_self _ _ step) (ih fun e he => follows e (List.mem_cons_of_mem _ he))

/-- Where a run ends is settled by its steps. -/
theorem Run.unique {s last last' : σ} {es : List ε} {through through' : List σ} (h : Run apply s es through last)
    (h' : Run apply s es through' last') : last = last' ∧ through = through' := by
  induction h generalizing through' with
  | nil => cases h'; exact ⟨rfl, rfl⟩
  | cons step _ ih =>
    cases h' with
    | cons step' rest' =>
      rw [step] at step'
      cases step'
      obtain ⟨hlast, hthrough⟩ := ih rest'
      exact ⟨hlast, congrArg _ hthrough⟩

end Run

/-! ## What the list keeps -/

section Spare

variable [DecidableEq α]

/-- The spare indices of the list from `i` on, where `kept` is what was kept before. -/
def spareFrom (wanted : List α) : Nat → List α → List α → List Nat
  | _, _, [] => []
  | i, kept, a :: l =>
    if a ∈ wanted ∧ a ∉ kept then spareFrom wanted (i + 1) (a :: kept) l else i :: spareFrom wanted (i + 1) kept l

/-- The entries kept. -/
def keptFrom (wanted : List α) : List α → List α → List α
  | _, [] => []
  | kept, a :: l => if a ∈ wanted ∧ a ∉ kept then a :: keptFrom wanted (a :: kept) l else keptFrom wanted kept l

variable {wanted : List α}

theorem spareFrom_bounds : ∀ {l : List α} {i : Nat} {kept : List α}, ∀ j ∈ spareFrom wanted i kept l, i ≤ j ∧ j < i + l.length
  | [], _, _, _, h => by cases h
  | a :: l, i, kept, j, h => by
    unfold spareFrom at h
    rw [List.length_cons]
    split at h
    · have := spareFrom_bounds j h
      omega
    · rcases List.mem_cons.1 h with rfl | h
      · omega
      · have := spareFrom_bounds j h
        omega

theorem spareFrom_pairwise : ∀ {l : List α} {i : Nat} {kept : List α}, (spareFrom wanted i kept l).Pairwise (· < ·)
  | [], _, _ => List.Pairwise.nil
  | a :: l, i, kept => by
    unfold spareFrom
    split
    · exact spareFrom_pairwise
    · refine List.pairwise_cons.2 ⟨fun j hj => ?_, spareFrom_pairwise⟩
      have := spareFrom_bounds j hj
      omega

/-- What stands at the spare indices, and what is kept, are the list. -/
theorem perm_spareFrom : ∀ (l pre kept : List α), l.Perm
    ((spareFrom wanted pre.length kept l).filterMap (fun j => (pre ++ l)[j]?) ++ keptFrom wanted kept l)
  | [], _, _ => List.Perm.nil
  | a :: l, pre, kept => by
    have hsplit : pre ++ a :: l = pre ++ [a] ++ l := by simp
    have hlen : pre.length + 1 = (pre ++ [a]).length := by simp
    unfold spareFrom keptFrom
    split
    · rw [hsplit, hlen]
      exact ((perm_spareFrom l (pre ++ [a]) (a :: kept)).cons a).trans List.perm_middle.symm
    · have hhere : (pre ++ a :: l)[pre.length]? = some a := by simp
      rw [List.filterMap_cons, hhere, hsplit, hlen]
      exact (perm_spareFrom l (pre ++ [a]) kept).cons a

theorem mem_keptFrom : ∀ {l kept : List α} {a : α}, a ∈ keptFrom wanted kept l ↔ a ∈ l ∧ a ∈ wanted ∧ a ∉ kept
  | [], kept, a => by simp [keptFrom]
  | b :: l, kept, a => by
    unfold keptFrom
    split
    · rename_i h
      rw [List.mem_cons, mem_keptFrom, List.mem_cons, List.mem_cons]
      constructor
      · rintro (rfl | ⟨hl, hw, hk⟩)
        · exact ⟨.inl rfl, h⟩
        · exact ⟨.inr hl, hw, fun hmem => hk (.inr hmem)⟩
      · rintro ⟨rfl | hl, hw, hk⟩
        · exact .inl rfl
        · by_cases hab : a = b
          · exact .inl hab
          · exact .inr ⟨hl, hw, fun hmem => hmem.elim hab hk⟩
    · rename_i h
      rw [mem_keptFrom, List.mem_cons]
      constructor
      · rintro ⟨hl, hrest⟩
        exact ⟨.inr hl, hrest⟩
      · rintro ⟨rfl | hl, hrest⟩
        · exact absurd hrest h
        · exact ⟨hl, hrest⟩

theorem nodup_keptFrom : ∀ {l kept : List α}, (keptFrom wanted kept l).Nodup
  | [], _ => List.nodup_nil
  | a :: l, kept => by
    unfold keptFrom
    split
    · refine List.nodup_cons.2 ⟨fun h => ?_, nodup_keptFrom⟩
      exact (mem_keptFrom.1 h).2.2 List.mem_cons_self
    · exact nodup_keptFrom

end Spare

/-! ## The three phases -/

/-- The list still holds at the spare indices left what was listed there, and beside that `good`. -/
structure Slots (listed l : List α) (spare : List Nat) (good : List α) : Prop where
  perm : l.Perm (spare.filterMap (fun j => listed[j]?) ++ good)
  still : ∀ j ∈ spare, ∃ a, listed[j]? = some a ∧ l[j]? = some a

section Phases

variable {listed l good : List α} {spare : List Nat}

theorem Slots.subset (h : Slots listed l spare good) : ∀ a ∈ good, a ∈ l :=
  fun _ ha => h.perm.mem_iff.2 (List.mem_append_right _ ha)

theorem Slots.lt (h : Slots listed l spare good) {j : Nat} (hj : j ∈ spare) : j < l.length := by
  obtain ⟨a, -, ha⟩ := h.still j hj
  exact (List.getElem?_eq_some_iff.1 ha).1

/-- What stands at a spare index, and the rest of the list. -/
theorem Slots.eraseIdx (h : Slots listed l (j :: spare) good) :
    (l.eraseIdx j).Perm (spare.filterMap (fun j => listed[j]?) ++ good) := by
  obtain ⟨a, hlisted, hl⟩ := h.still j List.mem_cons_self
  obtain ⟨hlt, hget⟩ := List.getElem?_eq_some_iff.1 hl
  have hperm := (List.getElem_cons_eraseIdx_perm hlt).trans h.perm
  rw [hget, List.filterMap_cons, hlisted] at hperm
  exact (List.perm_cons a).1 hperm

theorem Slots.append (h : Slots listed l spare good) (a : α) : Slots listed (l ++ [a]) spare (good ++ [a]) := by
  refine ⟨?_, fun j hj => ?_⟩
  · rw [← List.append_assoc]
    exact h.perm.append_right [a]
  · obtain ⟨b, hlisted, hl⟩ := h.still j hj
    exact ⟨b, hlisted, by rw [List.getElem?_append_left (List.getElem?_eq_some_iff.1 hl).1]; exact hl⟩

theorem Slots.replace {j : Nat} (h : Slots listed l (j :: spare) good) (hj : j ∉ spare) (a : α) :
    Slots listed (l.set j a) spare (good ++ [a]) := by
  have hlt := h.lt List.mem_cons_self
  refine ⟨?_, fun i hi => ?_⟩
  · have hset : (l.set j a).Perm (a :: l.eraseIdx j) := by
      have hlt' : j < (l.set j a).length := by rw [List.length_set]; exact hlt
      have hperm := (List.getElem_cons_eraseIdx_perm hlt').symm
      rw [List.getElem_set_self, List.eraseIdx_set_eq] at hperm
      exact hperm
    rw [← List.append_assoc]
    exact hset.trans ((h.eraseIdx.cons a).trans (List.perm_append_singleton _ _).symm)
  · obtain ⟨b, hlisted, hl⟩ := h.still i (List.mem_cons_of_mem _ hi)
    refine ⟨b, hlisted, ?_⟩
    rw [List.getElem?_set_ne]
    · exact hl
    · rintro rfl
      exact hj hi

theorem Slots.drop {j : Nat} (h : Slots listed l (j :: spare) good) (hj : ∀ i ∈ spare, i < j) :
    Slots listed (l.eraseIdx j) spare good := by
  refine ⟨h.eraseIdx, fun i hi => ?_⟩
  obtain ⟨b, hlisted, hl⟩ := h.still i (List.mem_cons_of_mem _ hi)
  exact ⟨b, hlisted, by rw [List.getElem?_eraseIdx_of_lt (hj i hi)]; exact hl⟩

theorem Slots.run_append : ∀ (added : List α) {l good : List α}, Slots listed l spare good → ∃ through last,
    Run Edit.apply l (added.map .append) through last ∧ (∀ x ∈ through, ∀ a ∈ good, a ∈ x) ∧ Slots listed last spare (good ++ added)
  | [], l, good, h => ⟨[l], l, .nil l, fun x hx => by rw [List.mem_singleton.1 hx]; exact h.subset, by simpa using h⟩
  | b :: added, l, good, h => by
    obtain ⟨through, last, hrun, hgood, hlast⟩ := Slots.run_append added (h.append b)
    refine ⟨l :: through, last, .cons rfl hrun, fun x hx a ha => ?_, by simpa using hlast⟩
    rcases List.mem_cons.1 hx with rfl | hx
    · exact h.subset a ha
    · exact hgood x hx a (List.mem_append_left _ ha)

theorem Slots.run_replace : ∀ (pairs : List (Nat × α)) {l good : List α},
    Slots listed l (pairs.map Prod.fst ++ spare) good → (pairs.map Prod.fst ++ spare).Nodup → ∃ through last,
      Run Edit.apply l (pairs.map fun p => .replace p.1 p.2) through last ∧ (∀ x ∈ through, ∀ a ∈ good, a ∈ x) ∧
        Slots listed last spare (good ++ pairs.map Prod.snd)
  | [], l, good, h, _ => ⟨[l], l, .nil l, fun x hx => by rw [List.mem_singleton.1 hx]; exact h.subset, by simpa using h⟩
  | (j, b) :: pairs, l, good, h, hnodup => by
    obtain ⟨hj, hrest⟩ := List.nodup_cons.1 hnodup
    have hlt := h.lt List.mem_cons_self
    obtain ⟨through, last, hrun, hgood, hlast⟩ := Slots.run_replace pairs (Slots.replace h hj b) hrest
    refine ⟨l :: through, last, .cons (if_pos hlt) hrun, fun x hx a ha => ?_, by simpa using hlast⟩
    rcases List.mem_cons.1 hx with rfl | hx
    · exact h.subset a ha
    · exact hgood x hx a (List.mem_append_left _ ha)

theorem Slots.run_drop : ∀ {dropped : List Nat} {l : List α}, Slots listed l dropped good → dropped.Pairwise (· > ·) →
    ∃ through last, Run Edit.apply l (dropped.map .drop) through last ∧ (∀ x ∈ through, ∀ a ∈ good, a ∈ x) ∧ Slots listed last [] good
  | [], l, h, _ => ⟨[l], l, .nil l, fun x hx => by rw [List.mem_singleton.1 hx]; exact h.subset, h⟩
  | j :: dropped, l, h, hsorted => by
    obtain ⟨hj, hrest⟩ := List.pairwise_cons.1 hsorted
    have hlt := h.lt List.mem_cons_self
    obtain ⟨through, last, hrun, hgood, hlast⟩ := (h.drop hj).run_drop hrest
    refine ⟨l :: through, last, .cons (if_pos hlt) hrun, fun x hx a ha => ?_, hlast⟩
    rcases List.mem_cons.1 hx with rfl | hx
    · exact h.subset a ha
    · exact hgood x hx a ha

end Phases

/-! ## The edits -/

section Edits

variable [DecidableEq α]

/-- The edits that take `listed` to `wanted`: gains before losses, an index the list has no use for
spent on an entry it lacks, and what is left dropped from the highest index down. -/
def edits (listed wanted : List α) : List (Edit α) :=
  let spare := spareFrom wanted 0 [] listed
  let missing := wanted.filter fun a => a ∉ listed
  let paired := min spare.length missing.length
  (missing.drop paired).map .append ++ ((spare.take paired).zip (missing.take paired)).map (fun p => .replace p.1 p.2) ++
    (spare.drop paired).reverse.map .drop

/-- Every index spent is a spare one. -/
theorem index_mem_spareFrom {listed wanted : List α} {e : Edit α} {i : Nat} (he : e ∈ edits listed wanted)
    (hi : e.index = some i) : i ∈ spareFrom wanted 0 [] listed := by
  unfold edits at he
  simp only [List.mem_append, List.mem_map] at he
  rcases he with (⟨a, -, rfl⟩ | ⟨p, hp, rfl⟩) | ⟨j, hj, rfl⟩
  · cases hi
  · cases hi
    exact List.mem_of_mem_take (List.of_mem_zip hp).1
  · cases hi
    exact List.mem_of_mem_drop (List.mem_reverse.1 hj)

/-- Every edit finds its index, no list on the way lacks an entry of the old one that is wanted, and
the last is what is wanted. -/
theorem run_edits (listed : List α) {wanted : List α} (hwanted : wanted.Nodup) : ∃ through last,
    Run Edit.apply listed (edits listed wanted) through last ∧ (∀ x ∈ through, ∀ a ∈ listed, a ∈ wanted → a ∈ x) ∧
      last.Perm wanted := by
  set spare := spareFrom wanted 0 [] listed with hspare
  set missing := wanted.filter (fun a => decide (a ∉ listed)) with hmissing
  set paired := min spare.length missing.length with hpaired
  set kept := keptFrom wanted [] listed with hkept
  have hsorted : spare.Pairwise (· < ·) := spareFrom_pairwise
  have hpairs : ((spare.take paired).zip (missing.take paired)).map Prod.fst = spare.take paired := by
    refine List.map_fst_zip ?_
    rw [List.length_take, List.length_take]
    omega
  have hpairs' : ((spare.take paired).zip (missing.take paired)).map Prod.snd = missing.take paired := by
    refine List.map_snd_zip ?_
    rw [List.length_take, List.length_take]
    omega
  have hstart : Slots listed listed spare kept := by
    refine ⟨perm_spareFrom listed [] [], fun j hj => ?_⟩
    have hlt := (spareFrom_bounds j hj).2
    rw [Nat.zero_add] at hlt
    exact ⟨listed[j], List.getElem?_eq_getElem hlt, List.getElem?_eq_getElem hlt⟩
  obtain ⟨ls, l, hrun, hls, hl⟩ := hstart.run_append (missing.drop paired)
  have hsplit : spare = ((spare.take paired).zip (missing.take paired)).map Prod.fst ++ spare.drop paired := by
    rw [hpairs, List.take_append_drop]
  rw [hsplit] at hl
  obtain ⟨ms, m, hrun', hms, hm⟩ := hl.run_replace _ (by rw [← hsplit]; exact hsorted.imp fun h => Nat.ne_of_lt h)
  have hdropped : Slots listed m (spare.drop paired).reverse
      (kept ++ missing.drop paired ++ ((spare.take paired).zip (missing.take paired)).map Prod.snd) := by
    refine ⟨hm.perm.trans ?_, fun j hj => hm.still j (List.mem_reverse.1 hj)⟩
    exact (((List.reverse_perm _).symm).filterMap _).append_right _
  obtain ⟨ns, n, hrun'', hns, hn⟩ := hdropped.run_drop
    (List.pairwise_reverse.2 (hsorted.sublist (List.drop_sublist _ _)))
  obtain ⟨lm, hlm, hlmMem⟩ := hrun.append hrun'
  obtain ⟨through, hthrough, hmem⟩ := hlm.append hrun''
  refine ⟨through, n, hthrough, fun x hx a ha hw => ?_, ?_⟩
  · have hak : a ∈ kept := mem_keptFrom.2 ⟨ha, hw, List.not_mem_nil⟩
    rcases hmem x hx with hx | hx
    · rcases hlmMem x hx with hx | hx
      · exact hls x hx a hak
      · exact hms x hx a (List.mem_append_left _ hak)
    · exact hns x hx a (List.mem_append_left _ (List.mem_append_left _ hak))
  · have hgained : (missing.drop paired ++ missing.take paired).Perm missing := by
      refine List.perm_append_comm.trans ?_
      rw [List.take_append_drop]
    have hkeptPerm : kept.Perm (wanted.filter fun a => decide (a ∈ listed)) := by
      refine (List.perm_ext_iff_of_nodup nodup_keptFrom (hwanted.filter _)).2 fun a => ?_
      rw [mem_keptFrom, List.mem_filter, decide_eq_true_eq]
      exact ⟨fun ⟨hl, hw, _⟩ => ⟨hw, hl⟩, fun ⟨hw, hl⟩ => ⟨hl, hw, List.not_mem_nil⟩⟩
    have hlast : n.Perm (kept ++ missing.drop paired ++ missing.take paired) := by
      rw [← hpairs']
      exact hn.perm
    rw [List.append_assoc] at hlast
    refine hlast.trans ((hkeptPerm.append hgained).trans ?_)
    have hall := List.filter_append_perm (fun a => decide (a ∈ listed)) wanted
    simpa [hmissing] using hall

end Edits

end Edits
