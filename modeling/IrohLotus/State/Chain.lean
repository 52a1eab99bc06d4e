/-
Fork resolution over the envelopes a node has seen (`state::Chain`). Loops of the source run on
fuel; the store's size is enough of it on every chain, and running out would show as `Halt.hang`.
-/
import IrohLotus.Lib.Program
import IrohLotus.State.Ledger

namespace IrohLotus.State

open Std Outcome IrohLotus.Wire IrohLotus.Storage

/-- The canonical path through the envelopes to the latest state: just a cursor. -/
structure Chain where
  root : EnvelopeDigest
  ledger : Ledger
deriving DecidableEq

/-- What an insert did to the canonical head. -/
inductive Insert where
  | extended
  | reorged (source : EnvelopeDigest)
  | unchanged
  | duplicate
deriving DecidableEq

/-- Whether fork `a` ranks at or below `b`: by verified signature weight, then by digest. -/
def rankLe (a b : UInt32 × EnvelopeDigest) : Bool :=
  a.1 < b.1 || (a.1 == b.1 && a.2.hash ≤ b.2.hash)

/-- `max_by_key` on `(weight, digest)`. -/
def maxByKey (candidates : List (UInt32 × EnvelopeDigest × Envelope)) :
    Option (UInt32 × EnvelopeDigest × Envelope) :=
  candidates.foldl (fun best c =>
    match best with
    | none => some c
    | some b => if rankLe (b.1, b.2.1) (c.1, c.2.1) then some c else some b) none

/-- The walk of `descends` from a cursor. -/
def descendsFrom (s : MemStorage) (ancestor : EnvelopeDigest) : Nat → Option EnvelopeDigest → Res Error Bool
  | 0, _ => .error .hang
  | _ + 1, none => pure false
  | fuel + 1, some current =>
    if current = ancestor then pure true
    else descendsFrom s ancestor fuel ((s.envelope current).bind Envelope.prev)

/-- Whether `ancestor` lies on the path from `digest` back to the root. -/
def descends (s : MemStorage) (digest ancestor : EnvelopeDigest) : Res Error Bool :=
  descendsFrom s ancestor (s.envelopes.size + 2) (some digest)

/-! ## Removing branches -/

/-- The stack loop of `remove_subtree`, top of the stack first; `true` marks an expanded entry. -/
def removeLoop : Nat → List (EnvelopeDigest × Bool) → Nat → Prog MemStorage Error Nat
  | 0, _, _ => Prog.hang
  | _ + 1, [], removed => pure removed
  | fuel + 1, (digest, true) :: stack, removed => do
    Prog.write fun s => s.removeEnvelope digest
    removeLoop fuel stack (removed + 1)
  | fuel + 1, (digest, false) :: stack, removed => do
    let children ← Prog.read fun s => s.children digest
    removeLoop fuel ((children.map fun child => (child, false)).reverse ++ (digest, true) :: stack) removed

/-- Removes `root` and every stored descendant from the log, children before their parent. -/
def removeSubtree (fuel : Nat) (root : EnvelopeDigest) : Prog MemStorage Error Nat :=
  removeLoop fuel [(root, false)] 0

namespace Chain

variable [Externals]

/-! ## The walk -/

/-- The children of a head with their weights, as the walk collects them. -/
def candidates (s : MemStorage) (head : EnvelopeDigest) : Res Error (List (UInt32 × EnvelopeDigest × Envelope)) :=
  (s.children head).mapM fun child => do
    let envelope ← Res.expect (s.envelope child) "children indexes only stored envelopes"
    pure (envelope.verificationStatus.signatureWeight, child, envelope)

/-- One canonical step down from `ledger`: the winning child, or `none` at a tip. A winner that
fails to apply is dropped from the log and its failure is the walk's error. -/
def step (ledger : Ledger) : Action MemStorage Error (Option Ledger) := do
  let candidates ← Action.read fun s => candidates s ledger.head
  match maxByKey candidates with
  | none => pure none
  | some (_, child, envelope) =>
    if ← Action.read fun s => pure (s.containsVersion child) then do
      let next ← Action.read fun s => Ledger.open s child
      pure (some next)
    else
      match ← Action.attempt (ledger.apply envelope) with
      | .ok candidate => pure (some candidate)
      | .error .storage => Action.fail .storage
      | .error err => do
        Action.write fun s => pure (s.removeEnvelope child)
        Action.fail (.apply err)

/-- The loop of `canonicalize` from where `ledger` stands. -/
def walk : Nat → Ledger → Action MemStorage Error Ledger
  | 0, _ => Action.hang
  | fuel + 1, ledger => do
    match ← step ledger with
    | some next => walk fuel next
    | none => pure ledger

/-- Walks the canonical path down from the root. -/
def canonicalize (chain : Chain) : Action MemStorage Error Ledger := do
  let ledger ← Action.read fun s => Ledger.open s chain.root
  let fuel ← Action.read fun s => pure (s.envelopes.size + 1)
  walk fuel ledger

/-- The canonical head. -/
def head (chain : Chain) : EnvelopeDigest := chain.ledger.head

/-! ## Opening -/

/-- Opens a chain from the `Init` envelope that starts it. -/
def init (envelope : Envelope) : Action MemStorage Error Chain := do
  let ledger ← Ledger.init envelope
  let root := ledger.head
  -- genesis is verified against the key set it installs itself
  let status ← Action.read fun s => (ledger.verifyEnvelope s envelope).mapErr .apply
  Action.write fun s => pure (s.putEnvelope root (envelope.setVerificationStatus status))
  pure { root, ledger }

/-- Reopens the chain rooted at `root`, re-deriving the canonical head from the log. -/
def «open» (root : EnvelopeDigest) : Action MemStorage Error Chain := do
  let _ ← Action.read fun s => Res.okOr (s.envelope root) (.unknownHead root)
  let ledger ← Action.read fun s => Ledger.open s root
  let ledger ← canonicalize { root, ledger }
  pure { root, ledger }

/-- Opens a chain using `envelope` as the oldest message, and its corresponding `state`. -/
def adopt (envelope : Envelope) (state : FullCheckpoint) : Action MemStorage Error Chain := do
  if let .init _ := envelope.payload then
    Action.fail (.apply .unexpectedInit)
  let ledger ← Ledger.adopt envelope state
  let root := ledger.head
  Action.write fun s => pure (s.putEnvelope root envelope)
  pure { root, ledger }

/-! ## Inserting -/

/-- What the loop of `store_batch` carries from one envelope to the next. -/
structure Batch where
  trial : Option Ledger
  last : Option EnvelopeDigest
  allDuplicates : Bool
deriving DecidableEq

/-- The start of a batch. -/
def Batch.start : Batch := { trial := none, last := none, allDuplicates := true }

/-- The ledger standing at `prev`, if the trial is there or the store holds its version. -/
def footing (batch : Batch) (s : MemStorage) (prev : EnvelopeDigest) : Res Error (Option Ledger) :=
  match batch.trial with
  | some ledger => pure (some ledger)
  | none => if s.containsVersion prev then some <$> Ledger.open s prev else pure none

/-- What `store_batch` does with an envelope once its digest, whether the log has it and the ledger
at its parent are known: the trial it leaves for the next. -/
def judge (envelope : Envelope) (prev digest : EnvelopeDigest) (stored : Bool) (parent : Option Ledger) :
    Action MemStorage Error (Option Ledger) := do
  let envelope ← match stored, parent with
    | false, some parent => do
      let status ← Action.read fun s => (parent.verifyEnvelope s envelope).mapErr .apply
      pure (envelope.setVerificationStatus status)
    | _, _ => pure envelope
  if ← Action.read fun s => pure (s.containsVersion digest) then do
    -- a version at the digest can only be this envelope's result; it is taken into the log only if
    -- it could be verified
    if !stored && parent.isSome then
      Action.write fun s => pure (s.putEnvelope digest envelope)
    let trial ← Action.read fun s => Ledger.open s digest
    pure (some trial)
  else
    match parent with
    | none => if stored then pure none else Action.fail (.unknownParent prev)
    | some ledger =>
      match ← Action.attempt (ledger.apply envelope) with
      | .ok ledger => do
        if !stored then
          Action.write fun s => pure (s.putEnvelope digest envelope)
        pure (some ledger)
      | .error .storage => Action.fail .storage
      | .error err =>
        if !stored then Action.fail (.apply err)
        -- swallowed: a stored envelope that no longer applies is the walk's to adjudicate
        else pure none

/-- One envelope of `store_batch`. -/
def storeOne (batch : Batch) (envelope : Envelope) : Action MemStorage Error Batch := do
  let prev ← Action.ofRes (Res.okOr envelope.prev (.apply .unexpectedInit))
  if let some expected := batch.last.filter (· ≠ prev) then
    Action.fail (.apply (.chainMismatch expected prev))
  let digest ← Action.ofRes (Res.ofExcept .wire envelope.digest)
  let stored ← Action.read fun s => pure (s.envelope digest).isSome
  let parent ← Action.read fun s => footing batch s prev
  let trial ← judge envelope prev digest stored parent
  pure { trial, last := some digest, allDuplicates := batch.allDuplicates && stored }

/-- Validates and stores a linear run of envelopes; whether it was non-empty and all duplicates. -/
def storeBatch : Batch → List Envelope → Action MemStorage Error Bool
  | batch, [] => pure (batch.last.isSome && batch.allDuplicates)
  | batch, envelope :: envelopes => do
    let batch ← storeOne batch envelope
    storeBatch batch envelopes

/-- What `insert_batch` returns once the walk has moved the head from `source` to `head`. -/
def outcome (s : MemStorage) (source head : EnvelopeDigest) (allDuplicates : Bool) : Res Error Insert :=
  if head ≠ source then do
    if ← descends s head source then pure .extended else pure (.reorged source)
  else if allDuplicates then pure .duplicate
  else pure .unchanged

/-- Stores a parent-first linear run of envelopes and re-derives the canonical head once. An error
of `store_batch` is returned only after the walk; a panic unwinds at once. -/
def insertBatch (chain : Chain) (envelopes : List Envelope) (s : MemStorage) : Res Error Insert × Chain × MemStorage :=
  match Action.attempt (storeBatch Batch.start envelopes) s with
  | (.error h, s) => (.error h, chain, s)
  | (.ok stored, s) =>
    match chain.canonicalize s with
    | (.error h, s) => (.error h, chain, s)
    | (.ok ledger, s) =>
      let result := do
        let allDuplicates ← Res.ofExcept id stored
        outcome s chain.ledger.head ledger.head allDuplicates
      (result, { chain with ledger }, s)

/-- Stores `envelope` in the log and re-derives the canonical head. -/
def insert (chain : Chain) (envelope : Envelope) (s : MemStorage) : Res Error Insert × Chain × MemStorage :=
  chain.insertBatch [envelope] s

/-! ## Compacting -/

/-- The canonical path `head..cut`, the versions that must survive. -/
def keepPath (head cut : EnvelopeDigest) : Nat → EnvelopeDigest → Prog MemStorage Error (List EnvelopeDigest)
  | 0, _ => Prog.hang
  | fuel + 1, digest =>
    if digest = cut then pure [digest]
    else do
      match ← Prog.read fun s => s.parent digest with
      | some parent => do
        let rest ← keepPath head cut fuel parent
        pure (digest :: rest)
      | none => Prog.fail (.diverged head cut)

/-- The ancestors of `digest`, nearest first, as far down as the log still reaches. -/
def ancestorsOf : Nat → EnvelopeDigest → Prog MemStorage Error (List EnvelopeDigest)
  | 0, _ => Prog.hang
  | fuel + 1, digest => do
    match ← Prog.read fun s => s.parent digest with
    | some parent => do
      let rest ← ancestorsOf fuel parent
      pure (parent :: rest)
    | none => pure []

/-- Removes the branches hanging off an ancestor that are not on the path to the cut. -/
def removeBranches (fuel : Nat) (onPath : List EnvelopeDigest) : List EnvelopeDigest → Nat → Prog MemStorage Error Nat
  | [], pruned => pure pruned
  | child :: children, pruned =>
    if onPath.contains child then removeBranches fuel onPath children pruned
    else do
      let removed ← removeSubtree fuel child
      removeBranches fuel onPath children (pruned + removed)

/-- Removes the cut's ancestors, oldest first, each after its dead branches. The list is oldest
first, and `deepest` says that its head is the deepest ancestor, which the log may not hold. -/
def removeAncestors (fuel : Nat) (onPath : List EnvelopeDigest) :
    Bool → List EnvelopeDigest → Nat → Prog MemStorage Error Nat
  | _, [], pruned => pure pruned
  | deepest, ancestor :: ancestors, pruned => do
    let children ← Prog.read fun s => s.children ancestor
    let pruned ← removeBranches fuel onPath children pruned
    let stored ← if deepest then Prog.read fun s => (s.envelope ancestor).isSome else pure true
    if stored then do
      Prog.write fun s => s.removeEnvelope ancestor
      removeAncestors fuel onPath false ancestors (pruned + 1)
    else
      removeAncestors fuel onPath false ancestors pruned

/-- The storage operations of `compact` but its last: the versions to keep, and how many envelopes
were removed. -/
def pruneProg (head cut : EnvelopeDigest) (fuel : Nat) : Prog MemStorage Error (List EnvelopeDigest × Nat) := do
  let keep ← keepPath head cut fuel head
  let ancestors ← ancestorsOf fuel cut
  let pruned ← removeAncestors fuel (ancestors ++ [cut]) true ancestors.reverse 0
  pure (keep, pruned)

/-- The storage operations of `compact`. -/
def compactProg (head cut : EnvelopeDigest) (fuel : Nat) : Prog MemStorage Error Nat := do
  let (keep, pruned) ← pruneProg head cut fuel
  Prog.write fun s => s.retain keep
  pure pruned

/-- Fuel for every loop of `compact`: each walk visits a stored envelope once, `remove_subtree`
twice. -/
def compactFuel (s : MemStorage) : Nat := 2 * s.envelopes.size + 2

/-- What becomes of the cursor: `compact` moves the root only when every operation succeeded. -/
def compacted (chain : Chain) (cut : EnvelopeDigest) : Res Error Nat × MemStorage → Res Error Nat × Chain × MemStorage
  | (.ok pruned, s) => (.ok pruned, { chain with root := cut }, s)
  | (.error h, s) => (.error h, chain, s)

/-- Prunes everything strictly older than `cut`, on a store none of whose operations fails. -/
def compact (chain : Chain) (cut : EnvelopeDigest) (s : MemStorage) : Res Error Nat × Chain × MemStorage :=
  chain.compacted cut ((compactProg chain.head cut (compactFuel s)).run s)

/-- `compact` on a store whose operation number `n` (from zero) returns an error. -/
def compactFailing (chain : Chain) (cut : EnvelopeDigest) (n : Nat) (s : MemStorage) :
    Res Error Nat × Chain × MemStorage :=
  chain.compacted cut ((compactProg chain.head cut (compactFuel s)).failing n .storage s)

/-- The store `compact` leaves when the process stops after `n` of its storage operations. -/
def compactStopped (chain : Chain) (cut : EnvelopeDigest) (n : Nat) (s : MemStorage) : MemStorage :=
  (compactProg chain.head cut (compactFuel s)).stop n s

/-! ## Reading -/

/-- Whether `digest` lies on the canonical path. -/
def contains (chain : Chain) (s : MemStorage) (digest : EnvelopeDigest) : Res Error Bool :=
  descends s chain.head digest

/-- The canonical state as a checkpoint. -/
def checkpoint (chain : Chain) (s : MemStorage) : Res Error FullCheckpoint := chain.ledger.checkpoint s

end Chain

end IrohLotus.State
