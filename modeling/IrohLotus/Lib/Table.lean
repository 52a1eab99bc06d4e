/-
Tables clustered on a primary key of two columns. The rows of one first column are a group, ordered
by the second; a plain insert refuses a key that is taken, as the primary key's constraint does.
-/
import Mathlib

namespace Relational

open Std

/-- A table whose rows `(p, k, v)` have the primary key `(p, k)`. -/
structure Table (P K V : Type) [Ord P] [Ord K] where
  groups : ExtTreeMap P (ExtTreeMap K V)

namespace Table

variable {P K V : Type} [Ord P] [TransOrd P] [Ord K]

def empty : Table P K V := ⟨∅⟩

/-- The rows whose first column is `p`, by their second. -/
def rows (t : Table P K V) (p : P) : ExtTreeMap K V := t.groups[p]?.getD ∅

/-- The first columns in use. -/
def support (t : Table P K V) : List P := t.groups.keys

/-- `DELETE` of the rows of a first column. -/
def eraseAll (t : Table P K V) (p : P) : Table P K V := ⟨t.groups.erase p⟩

/-- `DELETE` of the rows whose first column is not kept. -/
def filter (t : Table P K V) (keep : P → Bool) : Table P K V := ⟨t.groups.filter fun p _ => keep p⟩

@[simp] theorem rows_empty (p : P) : (empty : Table P K V).rows p = ∅ := by
  simp [rows, empty]

section

variable [LawfulEqOrd P]

@[simp] theorem rows_eraseAll [DecidableEq P] (t : Table P K V) (p q : P) :
    (t.eraseAll p).rows q = if p = q then ∅ else t.rows q := by
  simp only [rows, eraseAll, ExtTreeMap.getElem?_erase, Std.compare_eq_iff_eq]
  split <;> rfl

@[simp] theorem rows_filter (t : Table P K V) (keep : P → Bool) (p : P) :
    (t.filter keep).rows p = if keep p then t.rows p else ∅ := by
  simp only [rows, filter, ExtTreeMap.getElem?_filter']
  cases t.groups[p]? <;> cases keep p <;> simp [Option.filter]

theorem rows_of_not_mem_support {t : Table P K V} {p : P} (h : p ∉ t.support) : t.rows p = ∅ := by
  unfold rows
  rw [ExtTreeMap.getElem?_eq_none fun hp => h (ExtTreeMap.mem_keys.2 hp)]
  rfl

end

variable [TransOrd K]

/-- Every third column. -/
def values (t : Table P K V) : List V := t.groups.toList.flatMap fun group => group.2.toList.map Prod.snd

/-- `INSERT OR REPLACE`. -/
def replace (t : Table P K V) (p : P) (k : K) (v : V) : Table P K V := ⟨t.groups.insert p ((t.rows p).insert k v)⟩

/-- `INSERT`, which a row of the same key makes fail. -/
def insert (t : Table P K V) (p : P) (k : K) (v : V) : Option (Table P K V) :=
  if k ∈ t.rows p then none else some (t.replace p k v)

/-- `INSERT ... SELECT`, of rows under one first column. -/
def insertAll (t : Table P K V) (p : P) : List (K × V) → Option (Table P K V)
  | [] => some t
  | (k, v) :: rest => (t.insert p k v).bind fun t => t.insertAll p rest

/-- `DELETE` of the row at a key. -/
def erase (t : Table P K V) (p : P) (k : K) : Table P K V := ⟨t.groups.insert p ((t.rows p).erase k)⟩

theorem insert_of_free {t : Table P K V} {p : P} {k : K} (h : k ∉ t.rows p) (v : V) :
    t.insert p k v = some (t.replace p k v) := if_neg h

variable [LawfulEqOrd P] [DecidableEq P]

@[simp] theorem rows_replace (t : Table P K V) (p q : P) (k : K) (v : V) :
    (t.replace p k v).rows q = if p = q then (t.rows p).insert k v else t.rows q := by
  simp only [rows, replace, ExtTreeMap.getElem?_insert, Std.compare_eq_iff_eq]
  split <;> rfl

@[simp] theorem rows_erase (t : Table P K V) (p q : P) (k : K) :
    (t.erase p k).rows q = if p = q then (t.rows p).erase k else t.rows q := by
  simp only [rows, erase, ExtTreeMap.getElem?_insert, Std.compare_eq_iff_eq]
  split <;> rfl

/-- A count of rows, group by group. -/
theorem length_values (t : Table P K V) {s : Finset P} (hs : ∀ p ∈ t.support, p ∈ s) :
    ∑ p ∈ s, (t.rows p).size = t.values.length := by
  have hkeys : t.support.Nodup := ExtTreeMap.distinct_keys.imp fun h => by simpa using h
  have hsub : t.support.toFinset ⊆ s := fun p hp => hs p (List.mem_toFinset.1 hp)
  rw [← Finset.sum_subset hsub fun p _ hp => by
    rw [rows_of_not_mem_support fun h => hp (List.mem_toFinset.2 h)]; rfl]
  rw [List.sum_toFinset _ hkeys]
  unfold support values
  rw [← ExtTreeMap.map_fst_toList_eq_keys, List.length_flatMap, List.map_map]
  refine congrArg List.sum (List.map_congr_left fun group hg => ?_)
  have hm := ExtTreeMap.mem_toList_iff_getElem?_eq_some.1 hg
  simp [rows, hm]

variable [LawfulEqOrd K]

omit [DecidableEq P] in
theorem mem_values {t : Table P K V} {v : V} : v ∈ t.values ↔ ∃ (p : P) (k : K), (t.rows p)[k]? = some v := by
  simp only [values, List.mem_flatMap, List.mem_map, Prod.exists, ExtTreeMap.mem_toList_iff_getElem?_eq_some]
  constructor
  · rintro ⟨p, m, hm, k, v', hv, rfl⟩
    refine ⟨p, k, ?_⟩
    unfold rows
    rw [hm]; exact hv
  · rintro ⟨p, k, hv⟩
    unfold rows at hv
    cases hm : t.groups[p]? with
    | none => rw [hm] at hv; simp at hv
    | some m => rw [hm] at hv; exact ⟨p, m, hm, k, v, hv, rfl⟩

/-- Rows of distinct keys that are free go in together, beside what was there. -/
theorem insertAll_of_free {p : P} : ∀ {t : Table P K V} {l : List (K × V)}, (l.map Prod.fst).Nodup →
    (∀ e ∈ l, e.1 ∉ t.rows p) → ∃ t', t.insertAll p l = some t' ∧ (∀ q, p ≠ q → t'.rows q = t.rows q) ∧
      ∀ (k : K) (v : V), (t'.rows p)[k]? = some v ↔ (t.rows p)[k]? = some v ∨ (k, v) ∈ l
  | t, [], _, _ => ⟨t, rfl, fun _ _ => rfl, fun k v => by simp⟩
  | t, (k, v) :: l, hl, hfree => by
    rw [List.map_cons, List.nodup_cons] at hl
    have hk : k ∉ t.rows p := hfree (k, v) List.mem_cons_self
    have hfree' : ∀ e ∈ l, e.1 ∉ (t.replace p k v).rows p := by
      intro e he
      rw [rows_replace, if_pos rfl, ExtTreeMap.mem_insert]
      rintro (h | h)
      · rw [Std.compare_eq_iff_eq] at h
        exact hl.1 (List.mem_map.2 ⟨e, he, h.symm⟩)
      · exact hfree e (List.mem_cons_of_mem _ he) h
    obtain ⟨t', ht', hother, hrows⟩ := insertAll_of_free hl.2 hfree'
    refine ⟨t', ?_, fun q hq => ?_, fun k' v' => ?_⟩
    · unfold insertAll
      rw [insert_of_free hk]; exact ht'
    · rw [hother q hq, rows_replace, if_neg hq]
    · rw [hrows, rows_replace, if_pos rfl, ExtTreeMap.getElem?_insert, List.mem_cons, Prod.mk.injEq]
      by_cases hkk : k = k'
      · subst hkk
        have hnone : (t.rows p)[k]? = none := ExtTreeMap.getElem?_eq_none hk
        simp only [Std.compare_eq_iff_eq, if_true, Option.some.injEq, hnone, reduceCtorEq, false_or, true_and]
        rw [eq_comm]
      · simp only [Std.compare_eq_iff_eq, hkk, if_false, Ne.symm hkk, false_and, false_or]

end Table

end Relational
