/-
What a resolution promises the update that follows it: a path that resolves addresses a value, an
update the resolution allowed does not panic, and it changes nothing its path does not overlap.
-/
import IrohLotus.Storage.Mem

namespace IrohLotus.Storage

open Std Outcome IrohLotus.Wire

variable {E : Type}

/-! ## Resolutions -/

theorem resolveFrom_child {depth : Nat} {root child : Value} {segment : Subkey} {rest : List Subkey}
    (h : root.child segment = some child) :
    resolveFrom depth root (segment :: rest) = resolveFrom (depth + 1) child rest := by
  cases root <;> cases segment <;> simp only [Value.child, reduceCtorEq] at h <;> simp only [resolveFrom, h]

theorem resolveFrom_stuck {root : Value} {segment : Subkey} (depth : Nat) (rest : List Subkey)
    (h : root.child segment = none) :
    resolveFrom depth root (segment :: rest) = .mismatch depth ∨
      resolveFrom depth root (segment :: rest) = .missing depth .array ∨
      resolveFrom depth root (segment :: rest) = .missing depth .map ∧
        ∃ entries name, root = .map entries ∧ segment = .key name := by
  cases root <;> cases segment <;> simp only [Value.child] at h <;> simp [resolveFrom, h]

/-- What resolves below a place resolves in what stands there. -/
theorem resolveFrom_under (rest : List Subkey) : ∀ {depth : Nat} {pre : List Subkey} {root x : Value},
    root.walk pre = some x → resolveFrom depth root (pre ++ rest) = resolveFrom (depth + pre.length) x rest
  | depth, [], root, x, h => by
    cases h
    rfl
  | depth, segment :: pre, root, x, h => by
    rw [Value.walk_cons] at h
    obtain ⟨child, hc, hw⟩ := Option.bind_eq_some_iff.1 h
    rw [List.cons_append, resolveFrom_child hc, resolveFrom_under rest hw, List.length_cons]
    congr 1
    omega

/-- A path that resolves to a node addresses a value of its kind. -/
theorem resolveFrom_eq_node : ∀ {depth : Nat} {root : Value} {path : List Subkey} {k : NodeKind},
    resolveFrom depth root path = .node k → ∃ x, root.walk path = some x ∧ kind x = k
  | _, root, [], k, h => by
    refine ⟨root, rfl, ?_⟩
    simpa [resolveFrom] using h
  | depth, root, segment :: rest, k, h => by
    cases hc : root.child segment with
    | some child =>
      rw [resolveFrom_child hc] at h
      obtain ⟨x, hx, hk⟩ := resolveFrom_eq_node h
      exact ⟨x, by rw [Value.walk_cons, hc]; exact hx, hk⟩
    | none =>
      rcases resolveFrom_stuck depth rest hc with h' | h' | ⟨h', -⟩ <;> rw [h'] at h <;> cases h

theorem le_of_resolveFrom_eq_missing : ∀ {depth n : Nat} {root : Value} {path : List Subkey} {k : NodeKind},
    resolveFrom depth root path = .missing n k → depth ≤ n
  | _, _, root, [], k, h => by simp [resolveFrom] at h
  | depth, n, root, segment :: rest, k, h => by
    cases hc : root.child segment with
    | some child =>
      rw [resolveFrom_child hc] at h
      have := le_of_resolveFrom_eq_missing h
      omega
    | none =>
      rcases resolveFrom_stuck depth rest hc with h' | h' | ⟨h', -⟩ <;> rw [h'] at h <;> cases h <;> omega

/-- A path whose last segment alone is missing, in a map, names a fresh key of that map. -/
theorem resolveFrom_eq_missing_last : ∀ {depth n : Nat} {root : Value} {path : List Subkey},
    resolveFrom depth root path = .missing n .map → n + 1 = depth + path.length →
      ∃ entries name, root.walk path.dropLast = some (.map entries) ∧ path.getLast? = some (.key name) ∧
        Entries.get entries name = none
  | _, _, _, [], h, _ => by simp [resolveFrom] at h
  | depth, n, root, segment :: rest, h, hn => by
    cases hc : root.child segment with
    | some child =>
      rw [resolveFrom_child hc] at h
      have hle := le_of_resolveFrom_eq_missing h
      have hne : rest ≠ [] := by
        rintro rfl; simp [resolveFrom] at h
      obtain ⟨entries, name, hw, hl, hg⟩ := resolveFrom_eq_missing_last h (by simp only [List.length_cons] at hn; omega)
      refine ⟨entries, name, ?_, ?_, hg⟩
      · rw [List.dropLast_cons_of_ne_nil hne, Value.walk_cons, hc]; exact hw
      · rw [List.getLast?_cons, hl]; rfl
    | none =>
      rcases resolveFrom_stuck depth rest hc with h' | h' | ⟨h', entries, name, rfl, rfl⟩
      · rw [h'] at h; cases h
      · rw [h'] at h; cases h
      · rw [h'] at h; cases h
        obtain rfl : rest = [] := by
          simp only [List.length_cons] at hn
          exact List.length_eq_zero_iff.1 (by omega)
        exact ⟨entries, name, rfl, rfl, hc⟩

/-! ## Mutable walks -/

/-- The mutable walk reaches what the walk does. -/
theorem walkMut_fst : ∀ (root : Value) (path : List Subkey), (walkMut root path).map Prod.fst = root.walk path
  | _, [] => rfl
  | root, segment :: rest => by
    cases root <;> cases segment <;> simp only [walkMut, Value.walk_cons, Value.child, Option.map_none, Option.bind_none]
    case map.key entries name =>
      cases hc : Entries.get entries name with
      | none => rfl
      | some child =>
        simp only [Option.bind_some, Option.map_map]
        rw [← walkMut_fst child rest]; rfl
    case array.index items i =>
      cases hc : items[i.toNat]? with
      | none => rfl
      | some child =>
        simp only [Option.bind_some, Option.map_map]
        rw [← walkMut_fst child rest]; rfl

theorem exists_walkMut {root x : Value} {path : List Subkey} (h : root.walk path = some x) :
    ∃ put, walkMut root path = some (x, put) := by
  rw [← walkMut_fst] at h
  obtain ⟨⟨y, put⟩, hy, hx⟩ := Option.map_eq_some_iff.1 h
  cases hx
  exact ⟨put, hy⟩

theorem walk_of_walkMut {root x : Value} {put : Value → Value} {path : List Subkey}
    (h : walkMut root path = some (x, put)) : root.walk path = some x := by
  rw [← walkMut_fst, h]; rfl

/-! ## Updates that were resolved do not panic -/

/-- A value at a nonempty path is the child of the value one segment up. -/
theorem exists_parent_of_walk {root x : Value} {path : List Subkey} (hne : path ≠ [])
    (h : root.walk path = some x) :
    ∃ parent, root.walk path.dropLast = some parent ∧ parent.child (path.getLast hne) = some x := by
  rw [← List.dropLast_append_getLast hne, Value.walk_append] at h
  obtain ⟨parent, hp, hx⟩ := Option.bind_eq_some_iff.1 h
  refine ⟨parent, hp, ?_⟩
  simpa [Value.walk_cons] using hx

theorem setAt_of_walk {root x : Value} {path : SubkeyPath} (value : Option Value)
    (h : root.walk path.segments = some x) : ∃ w, setAt (E := E) root path value = .ok w := by
  obtain ⟨parent, hp, hx⟩ := exists_parent_of_walk path.nonempty h
  obtain ⟨put, hput⟩ := exists_walkMut hp
  unfold setAt
  rw [hput]
  generalize path.segments.getLast path.nonempty = last at hx
  cases parent <;> cases last <;> cases value <;> simp only [Value.child, reduceCtorEq] at hx
  case map.key.none entries name => exact ⟨_, by simp only [Res.expect_some, Res.ok_bind, hx]; rfl⟩
  case map.key.some entries name value => exact ⟨_, rfl⟩
  case array.index.none items i => exact ⟨_, by simp only [Res.expect_some, Res.ok_bind, hx]; rfl⟩
  case array.index.some items i value => exact ⟨_, by simp only [Res.expect_some, Res.ok_bind, hx]; rfl⟩

theorem setAt_fresh {root : Value} {path : SubkeyPath} {entries : List (String × Value)} {name : String} (value : Value)
    (hp : root.walk path.segments.dropLast = some (.map entries)) (hl : path.segments.getLast? = some (.key name)) :
    ∃ w, setAt (E := E) root path (some value) = .ok w := by
  obtain ⟨put, hput⟩ := exists_walkMut hp
  have hlast : path.segments.getLast path.nonempty = .key name := by
    rw [List.getLast?_eq_some_getLast path.nonempty] at hl
    exact Option.some.inj hl
  unfold setAt
  rw [hput, hlast]
  exact ⟨_, rfl⟩

theorem appendTarget_of_walk {root x : Value} {path : List Subkey} (h : root.walk path = some x) :
    ∃ put, appendTarget (E := E) root path = .ok (x, put) := by
  unfold appendTarget
  cases hl : path.getLast? with
  | none =>
    obtain rfl := List.getLast?_eq_none_iff.1 hl
    cases h
    exact ⟨id, rfl⟩
  | some last =>
    have hne : path ≠ [] := by rintro rfl; cases hl
    obtain ⟨parent, hp, hx⟩ := exists_parent_of_walk hne h
    obtain ⟨put, hput⟩ := exists_walkMut hp
    rw [List.getLast?_eq_some_getLast hne] at hl
    rw [Option.some.inj hl] at hx
    simp only [hput, Res.expect_some, Res.ok_bind]
    cases parent <;> cases last <;> simp only [Value.child, reduceCtorEq] at hx
    case map.key entries name => exact ⟨_, by simp only [hx]; rfl⟩
    case array.index items i => exact ⟨_, by simp only [hx]; rfl⟩

theorem appendTarget_fresh {root : Value} {path : List Subkey} {entries : List (String × Value)} {name : String}
    (hp : root.walk path.dropLast = some (.map entries)) (hl : path.getLast? = some (.key name))
    (hg : Entries.get entries name = none) : ∃ put, appendTarget (E := E) root path = .ok (.array [], put) := by
  obtain ⟨put, hput⟩ := exists_walkMut hp
  unfold appendTarget
  simp only [hl, hput, Res.expect_some, Res.ok_bind, hg]
  exact ⟨_, rfl⟩

end IrohLotus.Storage
