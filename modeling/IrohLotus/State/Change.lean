/-
What a head movement changed (`state::change`): the change set a run of messages records, the
movement between two heads, and the differ that derives it from the log.
-/
import IrohLotus.State.Chain

namespace IrohLotus.State

open Std Outcome IrohLotus.Wire IrohLotus.Storage

/-! ## Change sets -/

/-- What changed inside one namespace. -/
inductive Change where
  | whole
  | paths (paths : ExtTreeSet SubkeyPath)
deriving DecidableEq

/-- Whether two paths address overlapping state: one is a prefix of the other. -/
def overlaps (a b : SubkeyPath) : Bool := (a.segments.zip b.segments).all fun (a, b) => a = b

/-- Whether everything `b` addresses lies under `a`. -/
def covers (a b : SubkeyPath) : Bool := decide (a.segments.length ≤ b.segments.length) && overlaps a b

/-- The namespaces and paths a run of envelopes touched. -/
structure ChangeSet where
  changes : ExtTreeMap NamespaceKey Change
deriving DecidableEq

namespace ChangeSet

def empty : ChangeSet := ⟨∅⟩

def isEmpty (set : ChangeSet) : Bool := set.changes.isEmpty

/-- Whether what `path` addresses in `key` may have changed; `none` asks about the namespace. -/
def touches (set : ChangeSet) (key : NamespaceKey) (path : Option SubkeyPath) : Bool :=
  match set.changes[key]?, path with
  | none, _ => false
  | some .whole, _ => true
  | some (.paths _), none => true
  | some (.paths paths), some path => paths.toList.any fun touched => overlaps touched path

/-- Records a change to `path` in `key`; `none` for the whole namespace, which absorbs its paths. -/
def touch (set : ChangeSet) (key : NamespaceKey) (path : Option SubkeyPath) : ChangeSet :=
  match path with
  | none => ⟨set.changes.insert key .whole⟩
  | some path =>
    match set.changes[key]? with
    | none => ⟨set.changes.insert key (.paths (ExtTreeSet.ofList [path]))⟩
    | some .whole => set
    | some (.paths paths) =>
      if paths.toList.any fun touched => covers touched path then set
      else ⟨set.changes.insert key (.paths ((paths.filter fun touched => !covers path touched).insert path))⟩

/-- Records everything `msg` touches. -/
def record (set : ChangeSet) : Msg → ChangeSet
  | .init msg => msg.state.namespaces.keys.foldl (fun set key => set.touch key none) set
  | .setNamespace msg => set.touch msg.key none
  | .deleteNamespace msg => set.touch msg.key none
  | .setNamespaceKey msg => set.touch msg.key (some msg.path)
  -- a pathless amend transforms the namespace's whole value
  | .amendNamespaceKey msg => set.touch msg.key msg.path

/-- Folds one namespace's change into a set. -/
def mergeChange (set : ChangeSet) : NamespaceKey × Change → ChangeSet
  | (key, .whole) => set.touch key none
  | (key, .paths paths) => paths.toList.foldl (fun set path => set.touch key (some path)) set

/-- Folds `other` into this set. -/
def merge (set other : ChangeSet) : ChangeSet := other.changes.toList.foldl mergeChange set

end ChangeSet

/-! ## Movements -/

/-- What one movement of the canonical head did. -/
structure Movement where
  orphaned : ExtTreeSet EnvelopeDigest
  changes : ChangeSet
deriving DecidableEq

namespace Movement

def empty : Movement := ⟨∅, ChangeSet.empty⟩

/-- Folds a movement that followed this one into it, describing both as one. -/
def merge (movement next : Movement) : Movement :=
  ⟨next.orphaned.toList.foldl (fun orphaned digest => orphaned.insert digest) movement.orphaned,
    movement.changes.merge next.changes⟩

end Movement

/-! ## The differ -/

/-- Where a branch's walk down the log has got to: the digest to read next, or where it stopped. -/
inductive Cursor where
  | at (digest : EnvelopeDigest)
  | stopped (digest : Option EnvelopeDigest)
deriving DecidableEq

/-- One side of the walk: the envelopes from a head down to wherever it has reached, head first. -/
structure Branch where
  walked : List (EnvelopeDigest × Envelope)
  cursor : Cursor
  reachedSet : ExtTreeSet EnvelopeDigest
deriving DecidableEq

namespace Branch

def opened (head : EnvelopeDigest) : Branch := ⟨[], .at head, ExtTreeSet.ofList [head]⟩

/-- The digests this branch has reached, head first. -/
def reached (branch : Branch) : List EnvelopeDigest :=
  branch.walked.map Prod.fst ++ match branch.cursor with
    | .at digest | .stopped (some digest) => [digest]
    | .stopped none => []

/-- The nearest digest both branches have reached, once they have met. -/
def meet (branch other : Branch) : Option EnvelopeDigest :=
  branch.reached.find? fun digest => other.reachedSet.contains digest

/-- Reads the envelope at the cursor and moves to its parent; whether the walk can go on. -/
def step (s : MemStorage) (branch : Branch) : Bool × Branch :=
  match branch.cursor with
  | .stopped _ => (false, branch)
  | .at digest =>
    match s.envelope digest with
    -- a digest the log no longer holds ends the walk where it stands
    | none => (false, { branch with cursor := .stopped (some digest) })
    | some envelope =>
      let walked := branch.walked ++ [(digest, envelope)]
      match envelope.prev with
      | some prev => (true, ⟨walked, .at prev, branch.reachedSet.insert prev⟩)
      | none => (false, ⟨walked, .stopped none, branch.reachedSet⟩)

/-- The envelopes this branch walked above `meet`. -/
def above (branch : Branch) (meet : EnvelopeDigest) : List (EnvelopeDigest × Envelope) :=
  branch.walked.takeWhile fun (digest, _) => digest ≠ meet

end Branch

/-- Derives the movement between two canonical heads. -/
structure ChangeDiffer where
  source : EnvelopeDigest
deriving DecidableEq

namespace ChangeDiffer

def openedAt (source : EnvelopeDigest) : ChangeDiffer := ⟨source⟩

/-- The loop of `diff`: both sides step every round until they meet. -/
def meetLoop (s : MemStorage) (source target : EnvelopeDigest) : Nat → Branch → Branch → Res Error (EnvelopeDigest × Branch × Branch)
  | 0, _, _ => .error .hang
  | fuel + 1, undone, made =>
    match undone.meet made with
    | some meet => pure (meet, undone, made)
    | none =>
      let (undoneMoved, undone) := undone.step s
      let (madeMoved, made) := made.step s
      if !undoneMoved && !madeMoved then Res.fail (.diverged source target)
      else meetLoop s source target fuel undone made

/-- What the branches contribute above the digest they meet at. -/
def movement (meet : EnvelopeDigest) (undone made : Branch) : Movement :=
  let left := (undone.above meet).foldl
    (fun movement (digest, envelope) =>
      Movement.mk (movement.orphaned.insert digest) (movement.changes.record envelope.payload)) Movement.empty
  (made.above meet).foldl
    (fun movement (_, envelope) => { movement with changes := movement.changes.record envelope.payload }) left

/-- What moving from the head this differ opened at to `target` did. -/
def diff (differ : ChangeDiffer) (s : MemStorage) (target : EnvelopeDigest) : Res Error Movement := do
  let (meet, undone, made) ← meetLoop s differ.source target (s.envelopes.size + 2)
    (Branch.opened differ.source) (Branch.opened target)
  pure (movement meet undone made)

end ChangeDiffer

end IrohLotus.State
