/-
Maps as the source has them. A `BTreeMap` keeps its entries in key order, which the list of entries
inside a `Value` does not say by itself: `Entries.Sorted` says it of one map and `Ordered` of every
map in a value.
-/
import IrohLotus.Wire.Msg

namespace IrohLotus.Wire

/-! ## The entries of a map, in order -/

namespace Entries

variable {V : Type}

theorem lt_of_compare {a b : String} (h : compare a b = .lt) : a < b := compareOfLessAndEq_eq_lt.1 h

/-- The keys ascend, as those of a `BTreeMap` do. -/
def Sorted (entries : Entries V) : Prop := (entries.map Prod.fst).Pairwise (· < ·)

theorem Sorted.tail {k : String} {v : V} {entries : Entries V} (h : Sorted ((k, v) :: entries)) : Sorted entries :=
  (List.pairwise_cons.1 h).2

theorem Sorted.head_lt {k : String} {v : V} {entries : Entries V} (h : Sorted ((k, v) :: entries)) {e : String × V}
    (he : e ∈ entries) : k < e.1 :=
  (List.pairwise_cons.1 h).1 e.1 (List.mem_map_of_mem he)

theorem mem_of_get {name : String} {v : V} : ∀ {entries : Entries V}, entries.get name = some v → (name, v) ∈ entries
  | [], h => by cases h
  | (k, w) :: rest, h => by
    unfold get at h
    split at h
    · rename_i hk
      cases h; subst hk
      exact List.mem_cons_self
    · exact List.mem_cons_of_mem _ (mem_of_get h)

theorem Sorted.get_of_mem {name : String} {v : V} : ∀ {entries : Entries V}, Sorted entries → (name, v) ∈ entries →
    entries.get name = some v
  | (k, w) :: rest, hs, h => by
    unfold get
    rcases List.mem_cons.1 h with h | h
    · cases h
      rw [if_pos rfl]
    · rw [if_neg (hs.head_lt h).ne]
      exact hs.tail.get_of_mem h

theorem Sorted.get_eq_some {entries : Entries V} (h : Sorted entries) {name : String} {v : V} :
    entries.get name = some v ↔ (name, v) ∈ entries :=
  ⟨mem_of_get, h.get_of_mem⟩

theorem isSome_get {name : String} : ∀ {entries : Entries V}, (entries.get name).isSome = true ↔ name ∈ entries.map Prod.fst
  | [] => by simp [get]
  | (k, w) :: rest => by
    unfold get
    by_cases hk : k = name
    · simp [hk]
    · rw [if_neg hk, isSome_get, List.map_cons, List.mem_cons]
      simp [Ne.symm hk]

/-- Maps in order that hold the same at every key are one map. -/
theorem Sorted.ext {a b : Entries V} (ha : Sorted a) (hb : Sorted b) (h : ∀ name, a.get name = b.get name) : a = b := by
  refine List.Pairwise.eq_of_mem_iff (r := fun e f : String × V => e.1 < f.1) (List.pairwise_map.1 ha)
    (List.pairwise_map.1 hb) fun e => ?_
  rw [← ha.get_eq_some, ← hb.get_eq_some, h]

/-- A key past the end goes to the end. -/
theorem insert_last {name : String} {v : V} : ∀ {entries : Entries V}, (∀ e ∈ entries, e.1 < name) →
    entries.insert name v = entries ++ [(name, v)]
  | [], _ => rfl
  | (k, w) :: rest, h => by
    have hk : k < name := h (k, w) List.mem_cons_self
    unfold insert
    rw [if_neg hk.ne, if_neg hk.asymm, insert_last fun e he => h e (List.mem_cons_of_mem _ he)]
    rfl

/-- Entries collected in order are the map. -/
theorem Sorted.collect : ∀ {rest pre : Entries V}, Sorted (pre ++ rest) →
    rest.foldl (fun map entry => Entries.insert map entry.1 entry.2) pre = pre ++ rest
  | [], pre, _ => by simp
  | (k, v) :: rest, pre, h => by
    have hlt : ∀ e ∈ pre, e.1 < k := by
      intro e he
      unfold Sorted at h
      rw [List.map_append, List.pairwise_append] at h
      exact h.2.2 e.1 (List.mem_map_of_mem he) k (by simp)
    rw [List.foldl_cons, insert_last hlt, Sorted.collect (by simpa using h)]
    simp

theorem Sorted.insert {name : String} {v : V} : ∀ {entries : Entries V}, Sorted entries → Sorted (entries.insert name v)
  | [], _ => by simp [Entries.insert, Sorted]
  | (k, w) :: rest, h => by
    unfold Entries.insert
    by_cases hk : k = name
    · subst hk
      rw [if_pos rfl]; exact h
    · rw [if_neg hk]
      by_cases hlt : name < k
      · rw [if_pos hlt]
        refine List.pairwise_cons.2 ⟨fun x hx => ?_, h⟩
        rcases List.mem_cons.1 hx with rfl | hx
        · exact hlt
        · exact hlt.trans ((List.pairwise_cons.1 h).1 x hx)
      · rw [if_neg hlt]
        refine List.pairwise_cons.2 ⟨fun x hx => ?_, h.tail.insert⟩
        obtain ⟨v', hv'⟩ := Option.isSome_iff_exists.1 (isSome_get.2 hx)
        rw [get_insert] at hv'
        by_cases hx' : name = x
        · subst hx'
          exact lt_of_le_of_ne (not_lt.1 hlt) hk
        · rw [if_neg hx'] at hv'
          exact (List.pairwise_cons.1 h).1 x (isSome_get.1 (by rw [hv']; rfl))

theorem mem_insert {name : String} {v : V} {e : String × V} : ∀ {entries : Entries V}, e ∈ entries.insert name v →
    e = (name, v) ∨ e ∈ entries
  | [], h => .inl (List.mem_singleton.1 h)
  | (k, w) :: rest, h => by
    unfold Entries.insert at h
    split at h
    · exact (List.mem_cons.1 h).imp_right (List.mem_cons_of_mem _)
    · split at h
      · exact List.mem_cons.1 h
      · rcases List.mem_cons.1 h with rfl | h
        · exact .inr List.mem_cons_self
        · exact (mem_insert h).imp_right (List.mem_cons_of_mem _)

theorem mem_insert_self (entries : Entries V) (name : String) (v : V) : (name, v) ∈ entries.insert name v := by
  induction entries with
  | nil => exact List.mem_singleton.2 rfl
  | cons e rest ih =>
    unfold Entries.insert
    split
    · exact List.mem_cons_self
    · split
      · exact List.mem_cons_self
      · exact List.mem_cons_of_mem _ ih

theorem remove_eq_filter (name : String) : ∀ entries : Entries V, entries.remove name = entries.filter fun e => e.1 ≠ name
  | [] => rfl
  | (k, w) :: rest => by
    unfold remove
    by_cases hk : k = name
    · rw [if_pos hk, remove_eq_filter name rest, List.filter_cons_of_neg (by simpa using hk)]
    · rw [if_neg hk, remove_eq_filter name rest, List.filter_cons_of_pos (by simpa using hk)]

theorem Sorted.filter {entries : Entries V} (h : Sorted entries) (keep : String × V → Bool) : Sorted (entries.filter keep) :=
  List.Pairwise.sublist (List.filter_sublist.map Prod.fst) h

theorem Sorted.remove {entries : Entries V} (h : Sorted entries) (name : String) : Sorted (entries.remove name) := by
  rw [remove_eq_filter]
  exact h.filter _

end Entries

/-! ## Values as the source has them -/

mutual

/-- Every map in the value has its keys in order, as a `BTreeMap` does. -/
def Ordered : Value → Prop
  | .map entries => Entries.Sorted entries ∧ OrderedEntries entries
  | .array items => OrderedItems items
  | .string _ | .int _ | .bool _ | .key _ => True

def OrderedEntries : List (String × Value) → Prop
  | [] => True
  | (_, v) :: rest => Ordered v ∧ OrderedEntries rest

def OrderedItems : List Value → Prop
  | [] => True
  | v :: rest => Ordered v ∧ OrderedItems rest

end

end IrohLotus.Wire
