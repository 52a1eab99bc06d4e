/-
What an update of a value tree leaves alone: everything its path does not overlap, with one
exception. Clearing an entry of an array moves the entries after it, so the paths to those change
hands although none of them overlaps the path that was cleared.
-/
import IrohLotus.Storage.Walk

namespace IrohLotus.Storage

open Std Outcome IrohLotus.Wire

variable {E : Type}

/-! ## Comparable paths -/

/-- One path is a prefix of the other. -/
def Comparable (p q : List Subkey) : Prop := p <+: q ∨ q <+: p

theorem comparable_nil (q : List Subkey) : Comparable [] q := .inl List.nil_prefix

theorem not_comparable_nil_right {p : List Subkey} : ¬ ¬ Comparable p [] := not_not.2 (.inr List.nil_prefix)

theorem comparable_cons {a b : Subkey} {p q : List Subkey} :
    Comparable (a :: p) (b :: q) ↔ a = b ∧ Comparable p q := by
  simp only [Comparable, List.cons_prefix_cons]
  constructor
  · rintro (⟨h, hp⟩ | ⟨h, hp⟩)
    · exact ⟨h, .inl hp⟩
    · exact ⟨h.symm, .inr hp⟩
  · rintro ⟨rfl, hp | hp⟩
    · exact .inl ⟨rfl, hp⟩
    · exact .inr ⟨rfl, hp⟩

/-- A prefix of one of two comparable paths is comparable with the other. -/
theorem Comparable.of_shorter {p q r : List Subkey} (hpq : p <+: q) (h : Comparable q r) : Comparable p r := by
  rcases h with h | h
  · exact .inl (hpq.trans h)
  · exact List.prefix_or_prefix_of_prefix hpq h

/-! ## Replacing one child -/

/-- What `value` is with `child` in the place a segment names. -/
def setChild : Value → Subkey → Value → Value
  | .map entries, .key name, child => .map (Entries.insert entries name child)
  | .array items, .index i, child => .array (items.set i.toNat child)
  | value, _, _ => value

theorem child_setChild_self {root c : Value} {segment : Subkey} (h : root.child segment = some c) (child : Value) :
    (setChild root segment child).child segment = some child := by
  cases root <;> cases segment <;> simp only [Value.child, reduceCtorEq] at h
  case map.key entries name => simp [setChild, Value.child, Entries.get_insert]
  case array.index items i =>
    obtain ⟨hlt, -⟩ := List.getElem?_eq_some_iff.1 h
    simp [setChild, Value.child, hlt]

theorem child_setChild_ne {root : Value} {segment other : Subkey} (hne : segment ≠ other) (child : Value) :
    (setChild root segment child).child other = root.child other := by
  cases root <;> cases segment <;> try rfl
  case map.key entries name =>
    cases other with
    | key other =>
      have : name ≠ other := fun h => hne (congrArg Subkey.key h)
      simp [setChild, Value.child, Entries.get_insert, this]
    | index j => rfl
  case array.index items i =>
    cases other with
    | key other => rfl
    | index j =>
      have : i.toNat ≠ j.toNat := fun h => hne (congrArg Subkey.index (UInt32.toNat_inj.1 h))
      simp [setChild, Value.child, List.getElem?_set_ne this]

theorem setChild_setChild (root : Value) (segment : Subkey) (a b : Value) :
    setChild (setChild root segment a) segment b = setChild root segment b := by
  cases root <;> cases segment <;> simp [setChild, Entries.insert_insert]

/-- The mutable walk goes down through one child. -/
theorem walkMut_cons (root : Value) (segment : Subkey) (rest : List Subkey) :
    walkMut root (segment :: rest) = (root.child segment).bind fun child =>
      (walkMut child rest).map fun (x, put) => (x, fun v => setChild root segment (put v)) := by
  cases root <;> cases segment <;> rfl

theorem walkMut_cons_eq_some {root x : Value} {segment : Subkey} {rest : List Subkey} {put : Value → Value}
    (h : walkMut root (segment :: rest) = some (x, put)) :
    ∃ child put', root.child segment = some child ∧ walkMut child rest = some (x, put') ∧
      put = fun v => setChild root segment (put' v) := by
  rw [walkMut_cons] at h
  obtain ⟨child, hc, h⟩ := Option.bind_eq_some_iff.1 h
  obtain ⟨⟨y, put'⟩, hw, h⟩ := Option.map_eq_some_iff.1 h
  cases h
  exact ⟨child, put', hc, hw, rfl⟩

/-! ## What a write at the end of a walk changes -/

/-- Under the path of the write stands what was written. -/
theorem walk_put : ∀ {path : List Subkey} {root x : Value} {put : Value → Value}, walkMut root path = some (x, put) →
    ∀ (y : Value) (q : List Subkey), (put y).walk (path ++ q) = y.walk q
  | [], root, x, put, h, y, q => by cases h; rfl
  | segment :: rest, root, x, put, h, y, q => by
    obtain ⟨child, put', hc, hw, rfl⟩ := walkMut_cons_eq_some h
    rw [List.cons_append, Value.walk_cons, child_setChild_self hc, Option.bind_some]
    exact walk_put hw y q

/-- The walk of what was written ends where it did. -/
theorem walkMut_put : ∀ {path : List Subkey} {root x : Value} {put : Value → Value}, walkMut root path = some (x, put) →
    ∀ y : Value, walkMut (put y) path = some (y, put)
  | [], root, x, put, h, y => by cases h; rfl
  | segment :: rest, root, x, put, h, y => by
    obtain ⟨child, put', hc, hw, rfl⟩ := walkMut_cons_eq_some h
    rw [walkMut_cons, child_setChild_self hc, Option.bind_some, walkMut_put hw y, Option.map_some]
    simp only [setChild_setChild]

/-- A write that changes nothing off `tail` at the end of a walk changes nothing off the whole path. -/
theorem walk_put_of_not_comparable {tail : List Subkey} : ∀ {path : List Subkey} {root x y : Value} {put : Value → Value},
    walkMut root path = some (x, put) → (∀ q, ¬ Comparable tail q → y.walk q = x.walk q) →
      ∀ q, ¬ Comparable (path ++ tail) q → (put y).walk q = root.walk q
  | [], root, x, y, put, h, hy, q, hq => by cases h; exact hy q hq
  | segment :: rest, root, x, y, put, h, hy, q, hq => by
    obtain ⟨child, put', hc, hw, rfl⟩ := walkMut_cons_eq_some h
    cases q with
    | nil => exact absurd hq not_comparable_nil_right
    | cons other q =>
      rw [Value.walk_cons, Value.walk_cons]
      by_cases hso : segment = other
      · subst hso
        rw [child_setChild_self hc, hc, Option.bind_some, Option.bind_some]
        refine walk_put_of_not_comparable hw hy q fun hcmp => hq ?_
        exact comparable_cons.2 ⟨rfl, hcmp⟩
      · rw [child_setChild_ne hso]

/-- A change of one child changes nothing off it. -/
theorem walk_of_child_eq {x y : Value} {segment : Subkey} (h : ∀ other, segment ≠ other → y.child other = x.child other) :
    ∀ q, ¬ Comparable [segment] q → y.walk q = x.walk q
  | [], hq => absurd hq not_comparable_nil_right
  | other :: q, hq => by
    have hne : segment ≠ other := by
      rintro rfl
      exact hq (comparable_cons.2 ⟨rfl, comparable_nil q⟩)
    rw [Value.walk_cons, Value.walk_cons, h other hne]

/-! ## Setting and clearing -/

/-- Whether clearing entry `i` makes a later index address something else; an index is 32 bits. -/
def shiftsEntries (items : List Value) (i : UInt32) : Bool :=
  (List.range items.length).any fun j => decide (i.toNat < j ∧ j < 2 ^ 32 ∧ items[j]? ≠ items[j + 1]?)

theorem shiftsEntries_eq_true {items : List Value} {i : UInt32} :
    shiftsEntries items i = true ↔ ∃ j : UInt32, i.toNat < j.toNat ∧ items[j.toNat]? ≠ items[j.toNat + 1]? := by
  simp only [shiftsEntries, List.any_eq_true, List.mem_range, decide_eq_true_eq]
  constructor
  · rintro ⟨j, -, hij, hj, hne⟩
    have hn : (UInt32.ofNat j).toNat = j := by
      rw [UInt32.toNat_ofNat', Nat.mod_eq_of_lt hj]
    exact ⟨UInt32.ofNat j, by rw [hn]; exact hij, by rw [hn]; exact hne⟩
  · rintro ⟨j, hij, hne⟩
    refine ⟨j.toNat, ?_, hij, j.toNat_lt, hne⟩
    by_contra hle
    have h1 : items[j.toNat]? = none := List.getElem?_eq_none (by omega)
    have h2 : items[j.toNat + 1]? = none := List.getElem?_eq_none (by omega)
    exact hne (h1.trans h2.symm)

/-- On an array every entry of which a path can address, that is whether there is a later entry. -/
theorem shiftsEntries_iff_lt {items : List Value} {i : UInt32} (hlen : items.length ≤ 2 ^ 32) :
    shiftsEntries items i = true ↔ i.toNat + 1 < items.length := by
  simp only [shiftsEntries, List.any_eq_true, List.mem_range, decide_eq_true_eq]
  constructor
  · rintro ⟨j, hj, hij, -, -⟩
    omega
  · intro hlt
    -- the last index is left without an entry
    refine ⟨items.length - 1, by omega, by omega, by omega, ?_⟩
    have h1 : items[items.length - 1]? = some (items[items.length - 1]) := List.getElem?_eq_getElem (by omega)
    have h2 : items[items.length - 1 + 1]? = none := List.getElem?_eq_none (by omega)
    rw [h1, h2]
    exact Option.some_ne_none _

/-- What a set or a clear makes of the container its path ends in: one child is changed, or an entry
of an array is gone. -/
theorem setAt_eq_ok {root w : Value} {path : SubkeyPath} {value : Option Value}
    (h : setAt (E := E) root path value = .ok w) :
    ∃ x y put, walkMut root path.segments.dropLast = some (x, put) ∧ w = put y ∧
      (((value = none → ∀ items, x ≠ .array items) ∧
        ∀ other, path.segments.getLast path.nonempty ≠ other → y.child other = x.child other) ∨
      ∃ items i, x = .array items ∧ path.segments.getLast path.nonempty = .index i ∧ value = none ∧
        y = .array (items.eraseIdx i.toNat)) := by
  unfold setAt at h
  obtain ⟨⟨x, put⟩, hw, h⟩ := Res.bind_eq_ok h
  have hw := Res.expect_eq_ok hw
  dsimp only at h
  generalize path.segments.getLast path.nonempty = last at h ⊢
  cases x with
  | map entries =>
    cases last with
    | key name =>
      cases value with
      | some value =>
        cases h
        exact ⟨.map entries, _, put, hw, rfl,
          .inl ⟨fun hv => (by cases hv), fun other hne => @child_setChild_ne (.map entries) _ _ hne value⟩⟩
      | none =>
        obtain ⟨_, -, h⟩ := Res.bind_eq_ok h
        cases h
        refine ⟨.map entries, _, put, hw, rfl, .inl ⟨fun _ items hx => (by cases hx), fun other hne => ?_⟩⟩
        cases other with
        | key other =>
          have hname : name ≠ other := fun heq => hne (congrArg Subkey.key heq)
          simp [Value.child, Entries.get_remove, hname]
        | index j => rfl
    | index i => cases value <;> cases h
  | array items =>
    cases last with
    | key name => cases value <;> cases h
    | index i =>
      cases value with
      | some value =>
        obtain ⟨_, -, h⟩ := Res.bind_eq_ok h
        cases h
        exact ⟨.array items, _, put, hw, rfl,
          .inl ⟨fun hv => (by cases hv), fun other hne => @child_setChild_ne (.array items) _ _ hne value⟩⟩
      | none =>
        obtain ⟨_, -, h⟩ := Res.bind_eq_ok h
        cases h
        exact ⟨.array items, _, put, hw, rfl, .inr ⟨items, i, rfl, rfl, rfl, rfl⟩⟩
  | string _ | int _ | bool _ | key _ => cases last <;> cases value <;> cases h

theorem child_eraseIdx {items : List Value} {i : UInt32} (h : shiftsEntries items i = false) {other : Subkey}
    (hne : Subkey.index i ≠ other) :
    (Value.array (items.eraseIdx i.toNat)).child other = (Value.array items).child other := by
  cases other with
  | key other => rfl
  | index j =>
    have hij : i.toNat ≠ j.toNat := fun h => hne (congrArg Subkey.index (UInt32.toNat_inj.1 h))
    simp only [Value.child, List.getElem?_eraseIdx]
    split
    · rfl
    · rename_i hlt
      by_contra hno
      have : shiftsEntries items i = true := shiftsEntries_eq_true.2 ⟨j, by omega, fun heq => hno heq.symm⟩
      rw [h] at this; cases this

/-- A set, or a clear that moves nothing, changes nothing its path does not overlap. -/
theorem walk_setAt {root w : Value} {path : SubkeyPath} {value : Option Value}
    (h : setAt (E := E) root path value = .ok w)
    (hshift : value = none → ∀ items i, root.walk path.segments.dropLast = some (.array items) →
      path.segments.getLast path.nonempty = .index i → shiftsEntries items i = false) (q : List Subkey)
    (hq : ¬ Comparable path.segments q) : w.walk q = root.walk q := by
  obtain ⟨x, y, put, hw, rfl, hcases⟩ := setAt_eq_ok h
  rw [← List.dropLast_append_getLast path.nonempty] at hq
  refine walk_put_of_not_comparable hw (walk_of_child_eq fun other hne => ?_) q hq
  rcases hcases with ⟨-, hsame⟩ | ⟨items, i, rfl, hlast, hnone, rfl⟩
  · exact hsame other hne
  · rw [hlast] at hne
    exact child_eraseIdx (hshift hnone items i (walk_of_walkMut hw) hlast) hne

/-- A clear that does move an entry changes what a path beside its own addresses. -/
theorem walk_setAt_shift {root w : Value} {path : SubkeyPath} {items : List Value} {i : UInt32}
    (h : setAt (E := E) root path none = .ok w) (hx : root.walk path.segments.dropLast = some (.array items))
    (hlast : path.segments.getLast path.nonempty = .index i) (hshift : shiftsEntries items i = true) :
    ∃ q, q ≠ [] ∧ ¬ Comparable path.segments q ∧ w.walk q ≠ root.walk q := by
  obtain ⟨j, hij, hne⟩ := shiftsEntries_eq_true.1 hshift
  obtain ⟨x, y, put, hw, rfl, hcases⟩ := setAt_eq_ok h
  have hxi : x = .array items := by
    rw [walk_of_walkMut hw] at hx; exact Option.some.inj hx
  obtain rfl : y = .array (items.eraseIdx i.toNat) := by
    rcases hcases with ⟨hno, -⟩ | ⟨items', i', heq, hlast', -, rfl⟩
    · exact absurd hxi (hno rfl items)
    · rw [hxi] at heq; cases heq
      rw [hlast] at hlast'; cases hlast'; rfl
  subst hxi
  refine ⟨path.segments.dropLast ++ [.index j], by simp, ?_, ?_⟩
  · nth_rewrite 1 [← List.dropLast_append_getLast path.nonempty]
    rw [hlast]
    have hcancel : ∀ (p : List Subkey) {a b : Subkey}, a ≠ b → ¬ Comparable (p ++ [a]) (p ++ [b]) := by
      intro p a b hab
      induction p with
      | nil => exact fun h => hab (comparable_cons.1 h).1
      | cons c p ih => exact fun h => ih (comparable_cons.1 h).2
    refine hcancel _ fun heq => ?_
    cases heq
    omega
  · rw [walk_put hw, Value.walk_append, walk_of_walkMut hw]
    simp only [Option.bind_some, Value.walk_cons, Value.walk_nil, Option.bind_fun_some, Value.child,
      List.getElem?_eraseIdx]
    rw [if_neg (by omega)]
    exact fun heq => hne heq.symm

/-! ## Amending -/

theorem walk_appendTarget {root x : Value} {segments : List Subkey} {put : Value → Value}
    (h : appendTarget (E := E) root segments = .ok (x, put)) (y : Value) (q : List Subkey) (hq : ¬ Comparable segments q) :
    (put y).walk q = root.walk q := by
  unfold appendTarget at h
  cases hl : segments.getLast? with
  | none =>
    rw [List.getLast?_eq_none_iff.1 hl] at hq
    exact absurd (comparable_nil q) hq
  | some last =>
    have hne : segments ≠ [] := by rintro rfl; cases hl
    rw [hl] at h
    obtain ⟨⟨parent, put'⟩, hw, h⟩ := Res.bind_eq_ok h
    have hw := Res.expect_eq_ok hw
    have hlast : segments.getLast hne = last := by
      rw [List.getLast?_eq_some_getLast hne] at hl; exact Option.some.inj hl
    rw [← List.dropLast_append_getLast hne, hlast] at hq
    dsimp only at h
    cases parent with
    | map entries =>
      cases last with
      | key name =>
        cases h
        exact walk_put_of_not_comparable hw
          (walk_of_child_eq fun other hother => @child_setChild_ne (.map entries) _ _ hother y) q hq
      | index i => cases h
    | array items =>
      cases last with
      | key name => cases h
      | index i =>
        obtain ⟨_, -, h⟩ := Res.bind_eq_ok h
        cases h
        exact walk_put_of_not_comparable hw
          (walk_of_child_eq fun other hother => @child_setChild_ne (.array items) _ _ hother y) q hq
    | string _ | int _ | bool _ | key _ => cases last <;> cases h

/-- An amend changes nothing its path does not overlap. -/
theorem walk_amendAt {root w : Value} {path : Option SubkeyPath} {op : AmendOp}
    (h : amendAt (E := E) root path op = .ok w) (q : List Subkey) (hq : ¬ Comparable (segmentsOf path) q) :
    w.walk q = root.walk q := by
  have hwrite : ∀ {x y : Value} {put : Value → Value}, walkMut root (segmentsOf path) = some (x, put) →
      (put y).walk q = root.walk q := by
    intro x y put hw
    refine @walk_put_of_not_comparable [] _ _ _ _ _ hw (fun q hq => absurd (comparable_nil q) hq) q ?_
    rw [List.append_nil]; exact hq
  cases op with
  | appendEntry entry =>
    obtain ⟨⟨x, put⟩, hw, h⟩ := Res.bind_eq_ok h
    dsimp only at h
    split at h
    · cases h; exact walk_appendTarget hw _ q hq
    · cases h
  | incrementDecrement inc =>
    obtain ⟨⟨x, put⟩, hw, h⟩ := Res.bind_eq_ok h
    dsimp only at h
    split at h
    · obtain ⟨_, -, h⟩ := Res.bind_eq_ok h
      cases h; exact hwrite (Res.expect_eq_ok hw)
    · cases h
  | deleteMatching predicate =>
    obtain ⟨⟨x, put⟩, hw, h⟩ := Res.bind_eq_ok h
    dsimp only at h
    split at h
    · cases h; exact hwrite (Res.expect_eq_ok hw)
    · cases h; exact hwrite (Res.expect_eq_ok hw)
    · cases h

end IrohLotus.Storage
