/-
The messages that advance the ledger (`wire::msg`), the predicate of a delete-matching and the
clamped increment, and the walk of a path through a value that predicates and stores share.
-/
import IrohLotus.Wire.Value

namespace IrohLotus.Wire

open Std

/-! ## Walking a path -/

/-- One step of a walk: a key into a map, or an index into an array. -/
def Value.child : Value → Subkey → Option Value
  | .map entries, .key name => Entries.get entries name
  | .array items, .index i => items[i.toNat]?
  | _, _ => none

/-- The value a path addresses (`value::walk`, and the fold of `Match::matches`). -/
def Value.walk (root : Value) : List Subkey → Option Value
  | [] => some root
  | segment :: rest => (root.child segment).bind (Value.walk · rest)

@[simp] theorem Value.walk_nil (root : Value) : root.walk [] = some root := rfl

@[simp] theorem Value.walk_cons (root : Value) (segment : Subkey) (rest : List Subkey) :
    root.walk (segment :: rest) = (root.child segment).bind (Value.walk · rest) := rfl

theorem Value.walk_append (root : Value) (p q : List Subkey) :
    root.walk (p ++ q) = (root.walk p).bind (Value.walk · q) := by
  induction p generalizing root with
  | nil => rfl
  | cons segment rest ih =>
    simp only [List.cons_append, Value.walk_cons, Option.bind_assoc, ih]

/-! ## Amend operations -/

/-- One condition of a predicate: the value at `path` inside an entry equals `value`. -/
structure Match where
  path : Option SubkeyPath
  value : Value
deriving DecidableEq

/-- Whether `entry` meets this condition (`Match::matches`). -/
def Match.matches (m : Match) (entry : Value) : Bool := entry.walk (segmentsOf m.path) = some m.value

/-- The conditions an entry must all meet for a delete-matching to remove it; never empty. -/
structure Predicate where
  conditions : List Match
  nonempty : conditions ≠ []
deriving DecidableEq

/-- Whether `entry` meets every condition (`Predicate::matches`). -/
def Predicate.matches (p : Predicate) (entry : Value) : Bool := p.conditions.all (·.matches entry)

/-- Adds a delta to an integer, then clamps the sum to whichever bounds are set. -/
structure IncrementDecrement where
  delta : Int64
  min : Option Int64
  max : Option Int64
deriving DecidableEq

/-- `i64::checked_add`. -/
def checkedAdd (a b : Int64) : Option Int64 :=
  let sum := a.toInt + b.toInt
  if Int64.minValue.toInt ≤ sum ∧ sum ≤ Int64.maxValue.toInt then some (Int64.ofInt sum) else none

/-- The integer `n` becomes (`IncrementDecrement::apply`): `none` when the sum leaves `i64` with no
bound on that side to pull it back. -/
def IncrementDecrement.apply (inc : IncrementDecrement) (n : Int64) : Option Int64 :=
  match checkedAdd n inc.delta with
  | some sum =>
    let floored := inc.min.elim sum fun min => if sum ≤ min then min else sum
    some (inc.max.elim floored fun max => if max ≤ floored then max else floored)
  | none => if 0 < inc.delta then inc.max else inc.min

/-- How an amend transforms the value its path addresses. -/
inductive AmendOp where
  | appendEntry (entry : Value)
  | incrementDecrement (inc : IncrementDecrement)
  | deleteMatching (predicate : Predicate)
deriving DecidableEq

/-! ## Messages -/

/-- A complete encoding of the data contained in the ledger. -/
structure FullCheckpoint where
  namespaces : ExtTreeMap NamespaceKey Namespace
deriving DecidableEq

structure InitMsg where
  state : FullCheckpoint
deriving DecidableEq

structure SetNamespace where
  prev : EnvelopeDigest
  key : NamespaceKey
  «namespace» : Namespace
deriving DecidableEq

/-- Sets or clears (`value = none`) a single value nested inside a namespace. -/
structure SetNamespaceKey where
  prev : EnvelopeDigest
  key : NamespaceKey
  path : SubkeyPath
  value : Option Value
deriving DecidableEq

/-- Amends a single value in place; no path amends the namespace's value as a whole. -/
structure AmendNamespaceKey where
  prev : EnvelopeDigest
  key : NamespaceKey
  path : Option SubkeyPath
  op : AmendOp
deriving DecidableEq

structure DeleteNamespace where
  prev : EnvelopeDigest
  key : NamespaceKey
deriving DecidableEq

/-- A specific message in the ledger. -/
inductive Msg where
  | init (msg : InitMsg)
  | setNamespace (msg : SetNamespace)
  | setNamespaceKey (msg : SetNamespaceKey)
  | amendNamespaceKey (msg : AmendNamespaceKey)
  | deleteNamespace (msg : DeleteNamespace)
deriving DecidableEq

/-- The digest of the previous envelope in the ledger (`Msg::prev_digest`). -/
def Msg.prevDigest : Msg → Option EnvelopeDigest
  | .init _ => none
  | .setNamespace msg => some msg.prev
  | .setNamespaceKey msg => some msg.prev
  | .amendNamespaceKey msg => some msg.prev
  | .deleteNamespace msg => some msg.prev

end IrohLotus.Wire
