/-
The effect loop both session machines run under (`sync_driver::drive`): every pending effect is
resolved in order, and only then is the peer's next frame read. `Done` and `Violation` are never
taken off the queue, since the loop returns at them.

The loop is stated over any machine and leaves open what the peer sends and what the core answers.
-/
import IrohLotus.Sync.Session

namespace IrohLotus.Sync

open Outcome IrohLotus.Wire

/-- A machine's answer to one input: a panic, or its next state and the effects to resolve. -/
abbrev Handle (S O : Type) := S → Input → Res Empty (S × List (Effect O))

/-- The answers a core gives a query: each in the query's own shape, a locator within its bounds. -/
inductive Query.Admits : Query → Answer → Prop
  | contains {digest : EnvelopeDigest} {stored : Bool} : Admits (.containsEnvelope digest) (.contains stored)
  | locator {entries : List EnvelopeDigest} (some : 1 ≤ entries.length) (cap : entries.length ≤ MAX_LOCATOR_LEN) :
    Admits .locator (.locator entries)
  | splitPoint {entries : List EnvelopeDigest} {at' : Option EnvelopeDigest} :
    Admits (.splitPoint entries) (.splitPoint at')
  | segment {after : EnvelopeDigest} {batch : List Envelope} : Admits (.segment after) (.segment batch)

/-- What the loop may feed with `pending` to resolve, and what is pending then: the result of the
effect at the front, or the peer's next frame when nothing is. -/
inductive Feeds {O : Type} : List (Effect O) → Input → List (Effect O) → Prop
  | frame (message : Message) : Feeds [] (.message message) []
  | answer {query : Query} {answer : Answer} {pending : List (Effect O)} (admits : query.Admits answer) :
    Feeds (.ask query :: pending) (.answer answer) pending
  | ingested {batch : List Envelope} {pending : List (Effect O)} : Feeds (.ingest batch :: pending) .ingested pending

/-- A session under way: the machine, what its driver has still to resolve, and the record of what
the machine was fed and what it instructed, both oldest first. -/
structure Session (S O : Type) where
  machine : S
  pending : List (Effect O)
  fed : List Input
  effects : List (Effect O)

/-- A machine before its first input, with the effects it opened with. -/
def Session.opening {S O : Type} (machine : S) (opening : List (Effect O)) : Session S O :=
  { machine := machine, pending := opening, fed := [], effects := opening }

/-- The session after one input the machine took. -/
def Session.next {S O : Type} (s : Session S O) (input : Input) (pending : List (Effect O))
    (stepped : S × List (Effect O)) : Session S O :=
  { machine := stepped.1, pending := pending ++ stepped.2, fed := s.fed ++ [input], effects := s.effects ++ stepped.2 }

/-- The sessions the effect loop can drive a machine to from `start`. -/
inductive Driven {S O : Type} (step : Handle S O) (start : Session S O) : Session S O → Prop
  | opening : Driven step start start
  | sent {s : Session S O} {message : Message} {pending : List (Effect O)} (before : Driven step start s)
    (front : s.pending = .send message :: pending) : Driven step start { s with pending := pending }
  | fed {s : Session S O} {input : Input} {pending : List (Effect O)} {stepped : S × List (Effect O)}
    (before : Driven step start s) (feeds : Feeds s.pending input pending)
    (took : step s.machine input = .ok stepped) : Driven step start (s.next input pending stepped)

/-! ## The record of a session -/

/-- The runs handed to `Effect::Ingest`, oldest first. -/
def ingests {O : Type} (effects : List (Effect O)) : List (List Envelope) :=
  effects.filterMap fun
    | .ingest batch => some batch
    | _ => none

/-- Where the peer's first `Split` put the split point. -/
def splitOf (fed : List Input) : Option EnvelopeDigest :=
  fed.findSome? fun
    | .message (.split at') => some at'
    | _ => none

@[simp] theorem ingests_append {O : Type} (es fs : List (Effect O)) : ingests (es ++ fs) = ingests es ++ ingests fs := by
  unfold ingests
  exact List.filterMap_append

theorem splitOf_append_none {fed : List Input} (h : splitOf fed = none) (more : List Input) :
    splitOf (fed ++ more) = splitOf more := by
  unfold splitOf at *
  rw [List.findSome?_append, h, Option.none_or]

theorem splitOf_append_some {fed : List Input} {at' : EnvelopeDigest} (h : splitOf fed = some at') (more : List Input) :
    splitOf (fed ++ more) = some at' := by
  unfold splitOf at *
  rw [List.findSome?_append, h, Option.some_or]

end IrohLotus.Sync
