/-
Walks over an in-memory value tree (`storage::value`): how far a path resolves, and the updates a
pre-validated `SetAt` or `AmendAt` makes. A mutable borrow into the tree is the value it points at
with the function that writes a new one back (`Value.walkMut`).
-/
import IrohLotus.Lib.Outcome
import IrohLotus.Wire.Envelope

namespace IrohLotus.Storage

open Std Outcome IrohLotus.Wire

/-- What a node in a namespace's value tree holds, without its contents. -/
inductive NodeKind where
  | map
  | array
  | leaf
deriving DecidableEq

/-- How far a walk down a namespace's value tree got. -/
inductive Resolution where
  /-- Every segment resolved; the terminal node's kind. -/
  | node (kind : NodeKind)
  /-- The segment at `depth` addressed nothing in a container of kind `stoppedIn`. -/
  | missing (depth : Nat) (stoppedIn : NodeKind)
  /-- The segment at `depth` does not fit the node it reached. -/
  | mismatch (depth : Nat)
deriving DecidableEq

/-- What a node holds, counted and named rather than materialized. -/
inductive ValueMeta where
  | leaf
  | array (len : Nat)
  | map (keys : List String)
deriving DecidableEq

/-- The single namespace write a commit carries. -/
inductive NamespaceOp where
  | put (key : NamespaceKey) (ns : Namespace)
  | delete (key : NamespaceKey)
  | setAt (key : NamespaceKey) (path : SubkeyPath) (value : Option Value)
  | amendAt (key : NamespaceKey) (path : Option SubkeyPath) (op : AmendOp)
deriving DecidableEq

/-- The kind of node `value` is. -/
def kind : Value → NodeKind
  | .map _ => .map
  | .array _ => .array
  | .string _ | .int _ | .bool _ | .key _ => .leaf

/-- What `value` holds: nothing, a count, or the keys of a map (`value::meta`). -/
def metaOf : Value → ValueMeta
  | .map entries => .map (entries.map Prod.fst)
  | .array items => .array items.length
  | .string _ | .int _ | .bool _ | .key _ => .leaf

/-- The fold of `value::resolve` from `depth` segments down. -/
def resolveFrom : Nat → Value → List Subkey → Resolution
  | _, node, [] => .node (kind node)
  | depth, .map entries, .key name :: rest =>
    match Entries.get entries name with
    | some child => resolveFrom (depth + 1) child rest
    | none => .missing depth .map
  | depth, .array items, .index i :: rest =>
    match items[i.toNat]? with
    | some child => resolveFrom (depth + 1) child rest
    | none => .missing depth .array
  | depth, _, _ :: _ => .mismatch depth

/-- Walks `path` from `root`, reporting how far it got (`value::resolve`). -/
def resolve (root : Value) (path : List Subkey) : Resolution := resolveFrom 0 root path

/-- The mutable walk of `path` from `root` (`value::walk_mut`): what it addresses, and the root once
something else is written there. -/
def walkMut (root : Value) : List Subkey → Option (Value × (Value → Value))
  | [] => some (root, id)
  | segment :: rest =>
    match root, segment with
    | .map entries, .key name =>
      (Entries.get entries name).bind fun child =>
        (walkMut child rest).map fun (at', put) => (at', fun v => .map (Entries.insert entries name (put v)))
    | .array items, .index i =>
      items[i.toNat]?.bind fun child =>
        (walkMut child rest).map fun (at', put) => (at', fun v => .array (items.set i.toNat (put v)))
    | _, _ => none

variable {E : Type}

/-- Applies a pre-validated `SetAt` to a tree (`value::set_at`). -/
def setAt (root : Value) (path : SubkeyPath) (value : Option Value) : Res E Value := do
  let last := path.segments.getLast path.nonempty
  let (parent, put) ← Res.expect (walkMut root path.segments.dropLast)
    "SetAt is pre-validated: every parent exists"
  match parent, last, value with
  | .map entries, .key name, some value => pure (put (.map (Entries.insert entries name value)))
  | .map entries, .key name, none => do
    let _ ← Res.expect (Entries.get entries name) "SetAt is pre-validated: the value being cleared exists"
    pure (put (.map (Entries.remove entries name)))
  | .array items, .index i, some value => do
    let _ ← Res.expect items[i.toNat]? "SetAt is pre-validated: the index is in bounds"
    pure (put (.array (items.set i.toNat value)))
  | .array items, .index i, none => do
    -- `Vec::remove` panics out of bounds
    let _ ← Res.expect items[i.toNat]? "removal index should be < len"
    pure (put (.array (items.eraseIdx i.toNat)))
  | _, _, _ => .error (.panic "SetAt is pre-validated: the parent's shape matches the segment")

/-- The array an append lands in: the root itself, or the entry the last segment names, created
empty when it is a fresh key of a map. -/
def appendTarget (root : Value) (segments : List Subkey) : Res E (Value × (Value → Value)) :=
  match segments.getLast? with
  | none => pure (root, id)
  | some last => do
    let (parent, put) ← Res.expect (walkMut root segments.dropLast)
      "AmendAt is pre-validated: every parent exists"
    match parent, last with
    | .map entries, .key name =>
      pure ((Entries.get entries name).getD (.array []), fun v => put (.map (Entries.insert entries name v)))
    | .array items, .index i => do
      let entry ← Res.expect items[i.toNat]? "AmendAt is pre-validated: the index is in bounds"
      pure (entry, fun v => put (.array (items.set i.toNat v)))
    | _, _ => .error (.panic "AmendAt is pre-validated: the parent's shape matches the segment")

/-- Applies a pre-validated `AmendAt` to a tree (`value::amend_at`). -/
def amendAt (root : Value) (path : Option SubkeyPath) (op : AmendOp) : Res E Value :=
  match op with
  | .appendEntry entry => do
    let (target, put) ← appendTarget root (segmentsOf path)
    match target with
    | .array items => pure (put (.array (items ++ [entry])))
    | _ => .error (.panic "AmendAt is pre-validated: the append target is an array")
  | .incrementDecrement inc => do
    let (target, put) ← Res.expect (walkMut root (segmentsOf path)) "AmendAt is pre-validated: the target exists"
    match target with
    | .int n => do
      let sum ← Res.expect (inc.apply n) "AmendAt is pre-validated: the sum fits an i64 or clamps"
      pure (put (.int sum))
    | _ => .error (.panic "AmendAt is pre-validated: the target is an integer")
  | .deleteMatching predicate => do
    let (target, put) ← Res.expect (walkMut root (segmentsOf path)) "AmendAt is pre-validated: the target exists"
    match target with
    | .map entries => pure (put (.map (Entries.retain entries fun entry => !predicate.matches entry)))
    | .array items => pure (put (.array (items.filter fun entry => !predicate.matches entry)))
    | _ => .error (.panic "AmendAt is pre-validated: the target is a map or array")

end IrohLotus.Storage
