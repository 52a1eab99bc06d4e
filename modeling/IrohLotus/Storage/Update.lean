/-
The update of a value tree as one descent (`replaceAt`): down to the container the last segment
indexes, where `terminal` says what becomes of the part it names, and back up with each container on
the way changed in that one part. `value::set_at` and `value::amend_at` walk to a mutable borrow
instead; they end as the descent does.
-/
import IrohLotus.Storage.Frame

namespace IrohLotus.Storage

open Std Outcome IrohLotus.Wire

variable {E E' : Type}

/-- What becomes of the part at the end of a path: handed the part there, if any, its replacement, or
none to remove it. -/
abbrev ValueTerminal (E : Type) := Option Value → Res E (Option Value)

/-- The entries of a map with one of them replaced or removed. -/
def putEntry (entries : List (String × Value)) (name : String) : Option Value → Value
  | some value => .map (Entries.insert entries name value)
  | none => .map (Entries.remove entries name)

/-- The items of an array with one of them replaced or removed. -/
def putItem (items : List Value) (i : UInt32) : Option Value → Value
  | some value => .array (items.set i.toNat value)
  | none => .array (items.eraseIdx i.toNat)

/-- The update of a value along a path. -/
def replaceAt (terminal : ValueTerminal E) : List Subkey → Value → Res E Value
  | [], _ => .error (.panic "SubkeyPath is validated non-empty")
  | segment :: rest, v =>
    match v, segment with
    | .map entries, .key name => do
      let replacement ←
        if rest = [] then terminal (Entries.get entries name)
        else do
          let child ← Res.expect (Entries.get entries name) "op is pre-validated: every parent exists"
          let child ← replaceAt terminal rest child
          pure (some child)
      pure (putEntry entries name replacement)
    | .array items, .index i => do
      let child ← Res.expect items[i.toNat]? "op is pre-validated: the index is in bounds"
      let replacement ←
        if rest = [] then terminal (some child)
        else do
          let child ← replaceAt terminal rest child
          pure (some child)
      pure (putItem items i replacement)
    | _, _ => .error (.panic "op is pre-validated: the parent's shape matches the segment")

/-- What a `SetAt` puts at the end of its path. -/
def setValue (value : Option Value) : ValueTerminal E := fun old =>
  match value with
  | some value => pure (some value)
  | none =>
    if old.isSome then pure none else .error (.panic "SetAt is pre-validated: the value being cleared exists")

/-- What an `AmendAt` puts at the end of its path: the amended value, or a fresh array of one entry
where an append finds nothing. -/
def amendValue (op : AmendOp) : ValueTerminal E := fun old =>
  match old with
  | some target => do
    let value ← amendAt target none op
    pure (some value)
  | none =>
    match op with
    | .appendEntry entry => pure (some (.array [entry]))
    | _ => .error (.panic "AmendAt is pre-validated: the target exists")

/-! ## One segment down -/

theorem replaceAt_child {terminal : ValueTerminal E} {segment : Subkey} {rest : List Subkey} (hrest : rest ≠ []) {v child : Value}
    (h : v.child segment = some child) : replaceAt terminal (segment :: rest) v = (do
      let child ← replaceAt terminal rest child
      pure (setChild v segment child)) := by
  cases v <;> cases segment <;> simp only [Value.child, reduceCtorEq] at h
  case map.key entries name =>
    simp only [replaceAt, if_neg hrest, h, Res.expect_some, Res.ok_bind, pure_bind]
    rfl
  case array.index items i =>
    simp only [replaceAt, if_neg hrest, h, Res.expect_some, Res.ok_bind, pure_bind]
    rfl

theorem replaceAt_stuck {terminal : ValueTerminal E} {segment : Subkey} {rest : List Subkey} (hrest : rest ≠ []) {v : Value}
    (h : v.child segment = none) : ∃ message, replaceAt terminal (segment :: rest) v = .error (.panic message) := by
  cases v <;> cases segment <;> simp only [Value.child] at h <;> simp only [replaceAt] <;> try exact ⟨_, rfl⟩
  case map.key entries name =>
    rw [if_neg hrest, h]
    exact ⟨_, rfl⟩
  case array.index items i =>
    rw [h]
    exact ⟨_, rfl⟩

theorem setAt_child {segment : Subkey} {rest : List Subkey} (hrest : rest ≠ []) {v child : Value} (value : Option Value)
    (h : v.child segment = some child) : setAt (E := E) v ⟨segment :: rest, List.cons_ne_nil _ _⟩ value = (do
      let child ← setAt child ⟨rest, hrest⟩ value
      pure (setChild v segment child)) := by
  unfold setAt
  simp only [List.getLast_cons hrest, List.dropLast_cons_of_ne_nil hrest, walkMut_cons, h, Option.bind_some]
  cases hw : walkMut child rest.dropLast with
  | none => rfl
  | some walked =>
    obtain ⟨x, put⟩ := walked
    simp only [Option.map_some, Res.expect_some, Res.ok_bind]
    generalize rest.getLast hrest = last
    cases x <;> cases last <;> cases value <;> try rfl
    case map.key.none entries name => dsimp only; cases Entries.get entries name <;> rfl
    case array.index.none items i => dsimp only; cases items[i.toNat]? <;> rfl
    case array.index.some items i value => dsimp only; cases items[i.toNat]? <;> rfl

theorem setAt_stuck {segment : Subkey} {rest : List Subkey} (hrest : rest ≠ []) {v : Value} (value : Option Value)
    (h : v.child segment = none) :
    ∃ message, setAt (E := E) v ⟨segment :: rest, List.cons_ne_nil _ _⟩ value = .error (.panic message) := by
  unfold setAt
  simp only [List.dropLast_cons_of_ne_nil hrest, walkMut_cons, h, Option.bind_none]
  exact ⟨_, rfl⟩

theorem appendTarget_child {segment : Subkey} {rest : List Subkey} (hrest : rest ≠ []) {v child : Value}
    (h : v.child segment = some child) : appendTarget (E := E) v (segment :: rest) = (do
      let (target, put) ← appendTarget child rest
      pure (target, fun x => setChild v segment (put x))) := by
  unfold appendTarget
  rw [List.getLast?_cons, List.dropLast_cons_of_ne_nil hrest]
  cases hl : rest.getLast? with
  | none => exact absurd (List.getLast?_eq_none_iff.1 hl) hrest
  | some last =>
    simp only [Option.getD_some, walkMut_cons, h, Option.bind_some]
    cases hw : walkMut child rest.dropLast with
    | none => rfl
    | some walked =>
      obtain ⟨x, put⟩ := walked
      simp only [Option.map_some, Res.expect_some, Res.ok_bind]
      cases x <;> cases last <;> try rfl
      case array.index items i => dsimp only; cases items[i.toNat]? <;> rfl

theorem amendAt_child {segment : Subkey} {rest : List Subkey} (hrest : rest ≠ []) {v child : Value} (op : AmendOp)
    (h : v.child segment = some child) : amendAt (E := E) v (some ⟨segment :: rest, List.cons_ne_nil _ _⟩) op = (do
      let child ← amendAt child (some ⟨rest, hrest⟩) op
      pure (setChild v segment child)) := by
  cases op with
  | appendEntry entry =>
    simp only [amendAt, segmentsOf_some, appendTarget_child hrest h, bind_assoc, pure_bind]
    refine bind_congr fun ⟨target, put⟩ => ?_
    cases target <;> rfl
  | incrementDecrement inc =>
    simp only [amendAt, segmentsOf_some, walkMut_cons, h, Option.bind_some]
    cases hw : walkMut child rest with
    | none => rfl
    | some walked =>
      obtain ⟨x, put⟩ := walked
      simp only [Option.map_some, Res.expect_some, Res.ok_bind]
      cases x <;> try rfl
      case int n => dsimp only; cases inc.apply n <;> rfl
  | deleteMatching predicate =>
    simp only [amendAt, segmentsOf_some, walkMut_cons, h, Option.bind_some]
    cases hw : walkMut child rest with
    | none => rfl
    | some walked =>
      obtain ⟨x, put⟩ := walked
      simp only [Option.map_some, Res.expect_some, Res.ok_bind]
      cases x <;> rfl

theorem amendAt_stuck {segment : Subkey} {rest : List Subkey} (hrest : rest ≠ []) {v : Value} (op : AmendOp)
    (h : v.child segment = none) :
    ∃ message, amendAt (E := E) v (some ⟨segment :: rest, List.cons_ne_nil _ _⟩) op = .error (.panic message) := by
  cases op with
  | appendEntry entry =>
    cases hl : rest.getLast? with
    | none => exact absurd (List.getLast?_eq_none_iff.1 hl) hrest
    | some last =>
      simp only [amendAt, segmentsOf_some, appendTarget, List.getLast?_cons, List.dropLast_cons_of_ne_nil hrest, hl, walkMut_cons,
        h, Option.bind_none]
      exact ⟨_, rfl⟩
  | incrementDecrement inc =>
    simp only [amendAt, segmentsOf_some, walkMut_cons, h, Option.bind_none]
    exact ⟨_, rfl⟩
  | deleteMatching predicate =>
    simp only [amendAt, segmentsOf_some, walkMut_cons, h, Option.bind_none]
    exact ⟨_, rfl⟩

/-! ## Any way down -/

/-- An update below a place is the update of what stands there. -/
theorem setAt_under (value : Option Value) {rest : List Subkey} (hrest : rest ≠ []) : ∀ {pre : List Subkey} {root x : Value}
    {put : Value → Value}, walkMut root pre = some (x, put) →
      setAt (E := E) root ⟨pre ++ rest, List.append_ne_nil_of_right_ne_nil pre hrest⟩ value = (do
        let y ← setAt x ⟨rest, hrest⟩ value
        pure (put y))
  | [], root, x, put, h => by
    cases h
    exact (bind_pure _).symm
  | segment :: pre, root, x, put, h => by
    obtain ⟨child, put', hc, hw, rfl⟩ := walkMut_cons_eq_some h
    have hne : pre ++ rest ≠ [] := List.append_ne_nil_of_right_ne_nil pre hrest
    refine (setAt_child hne value hc).trans ?_
    rw [setAt_under value hrest hw, bind_assoc]
    rfl

theorem amendAt_under (op : AmendOp) {rest : List Subkey} (hrest : rest ≠ []) : ∀ {pre : List Subkey} {root x : Value}
    {put : Value → Value}, walkMut root pre = some (x, put) →
      amendAt (E := E) root (some ⟨pre ++ rest, List.append_ne_nil_of_right_ne_nil pre hrest⟩) op = (do
        let y ← amendAt x (some ⟨rest, hrest⟩) op
        pure (put y))
  | [], root, x, put, h => by
    cases h
    exact (bind_pure _).symm
  | segment :: pre, root, x, put, h => by
    obtain ⟨child, put', hc, hw, rfl⟩ := walkMut_cons_eq_some h
    have hne : pre ++ rest ≠ [] := List.append_ne_nil_of_right_ne_nil pre hrest
    refine (amendAt_child hne op hc).trans ?_
    rw [amendAt_under op hrest hw, bind_assoc]
    rfl

/-! ## The descent and the walk end alike -/

theorem sim_panic {α β : Type} {P : α → β → Prop} {x : Res E α} {y : Res E' β} (hx : ∃ message, x = .error (.panic message))
    (hy : ∃ message, y = .error (.panic message)) : Res.Sim P x y := by
  obtain ⟨_, rfl⟩ := hx
  obtain ⟨_, rfl⟩ := hy
  trivial

/-- An update that goes down one segment at a time ends as the descent does if it does so at the last. -/
theorem replaceAt_sim {terminal : ValueTerminal E} {update : (path : List Subkey) → path ≠ [] → Value → Res E' Value}
    (hlast : ∀ segment v, Res.Sim (· = ·) (replaceAt terminal [segment] v) (update [segment] (List.cons_ne_nil _ _) v))
    (hchild : ∀ segment rest (hrest : rest ≠ []) v child, v.child segment = some child →
      update (segment :: rest) (List.cons_ne_nil _ _) v = (do
        let child ← update rest hrest child
        pure (setChild v segment child)))
    (hstuck : ∀ segment rest (_ : rest ≠ []) v, v.child segment = none →
      ∃ message, update (segment :: rest) (List.cons_ne_nil _ _) v = .error (.panic message)) :
    ∀ (path : List Subkey) (hne : path ≠ []) (v : Value), Res.Sim (· = ·) (replaceAt terminal path v) (update path hne v)
  | [], hne, _ => absurd rfl hne
  | [segment], _, v => hlast segment v
  | segment :: next :: rest, _, v => by
    have hrest : next :: rest ≠ [] := List.cons_ne_nil _ _
    cases hc : v.child segment with
    | none => exact sim_panic (replaceAt_stuck hrest hc) (hstuck segment _ hrest v hc)
    | some child =>
      rw [replaceAt_child hrest hc, hchild segment _ hrest v child hc]
      refine (replaceAt_sim hlast hchild hstuck (next :: rest) hrest child).bind fun a b hab => ?_
      subst hab
      exact rfl

theorem setAt_sim (path : SubkeyPath) (value : Option Value) (v : Value) :
    Res.Sim (· = ·) (replaceAt (E := E) (setValue value) path.segments v) (setAt (E := E') v path value) := by
  refine @replaceAt_sim _ _ (setValue value) (fun path hne v => setAt v ⟨path, hne⟩ value) (fun segment v => ?_)
    (fun _ _ hrest _ _ hc => setAt_child hrest value hc) (fun _ _ hrest _ hc => setAt_stuck hrest value hc)
    path.segments path.nonempty v
  cases v <;> cases segment <;> cases value <;> try trivial
  case map.key.none entries name =>
    simp only [replaceAt, if_true, setValue, setAt, List.getLast_singleton, List.dropLast_singleton, walkMut, Res.expect_some, Res.ok_bind]
    cases Entries.get entries name <;> trivial
  case array.index.none items i =>
    simp only [replaceAt, if_true, setValue, setAt, List.getLast_singleton, List.dropLast_singleton, walkMut, Res.expect_some, Res.ok_bind]
    cases items[i.toNat]? <;> trivial
  case array.index.some items i value =>
    simp only [replaceAt, if_true, setValue, setAt, List.getLast_singleton, List.dropLast_singleton, walkMut, Res.expect_some, Res.ok_bind]
    cases items[i.toNat]? <;> trivial

theorem amendAt_sim (path : SubkeyPath) (op : AmendOp) (v : Value) :
    Res.Sim (· = ·) (replaceAt (E := E) (amendValue op) path.segments v) (amendAt (E := E') v (some path) op) := by
  refine @replaceAt_sim _ _ (amendValue op) (fun path hne v => amendAt v (some ⟨path, hne⟩) op) (fun segment v => ?_)
    (fun _ _ hrest _ _ hc => amendAt_child hrest op hc) (fun _ _ hrest _ hc => amendAt_stuck hrest op hc)
    path.segments path.nonempty v
  cases v <;> cases segment <;> try (cases op <;> trivial)
  case map.key entries name =>
    simp only [replaceAt, if_true]
    cases hget : Entries.get entries name with
    | none =>
      cases op with
      | appendEntry entry => simp [amendValue, amendAt, appendTarget, walkMut, hget]; trivial
      | incrementDecrement inc => simp only [amendAt, segmentsOf_some, walkMut, hget, Option.bind_none]; trivial
      | deleteMatching predicate => simp only [amendAt, segmentsOf_some, walkMut, hget, Option.bind_none]; trivial
    | some target =>
      cases op with
      | appendEntry entry =>
        cases target <;> simp [amendValue, amendAt, appendTarget, walkMut, hget] <;> trivial
      | incrementDecrement inc =>
        simp only [amendValue, amendAt, segmentsOf_some, segmentsOf_none, walkMut, hget, Option.bind_some]
        cases target <;> try trivial
        case int n => cases hsum : inc.apply n <;> simp [hsum] <;> trivial
      | deleteMatching predicate =>
        simp only [amendValue, amendAt, segmentsOf_some, segmentsOf_none, walkMut, hget, Option.bind_some]
        cases target <;> trivial
  case array.index items i =>
    simp only [replaceAt, if_true]
    cases hget : items[i.toNat]? with
    | none =>
      cases op with
      | appendEntry entry => simp [amendAt, appendTarget, walkMut, hget]; trivial
      | incrementDecrement inc => simp only [amendAt, segmentsOf_some, walkMut, hget, Option.bind_none]; trivial
      | deleteMatching predicate => simp only [amendAt, segmentsOf_some, walkMut, hget, Option.bind_none]; trivial
    | some target =>
      cases op with
      | appendEntry entry =>
        cases target <;> simp [amendValue, amendAt, appendTarget, walkMut, hget] <;> trivial
      | incrementDecrement inc =>
        simp only [amendValue, amendAt, segmentsOf_some, segmentsOf_none, walkMut, hget, Option.bind_some]
        cases target <;> try trivial
        case int n => cases hsum : inc.apply n <;> simp [hsum] <;> trivial
      | deleteMatching predicate =>
        simp only [amendValue, amendAt, segmentsOf_some, segmentsOf_none, walkMut, hget, Option.bind_some]
        cases target <;> trivial

end IrohLotus.Storage
