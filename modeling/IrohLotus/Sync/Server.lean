/-
The serving side of a session (`sync::Server`): it answers the peer's `Hello`, finds the split its
locator asks about, and streams the canonical path from there, each segment read fresh from the core.
-/
import IrohLotus.Sync.Driver

namespace IrohLotus.Sync.Server

open Outcome IrohLotus.Wire

inductive State where
  | awaitHello
  | awaitFindSplit
  | awaitSplitPoint
  | awaitSegment (cursor : EnvelopeDigest) (sent : Nat)
  | terminal
deriving DecidableEq

/-- What the protocol admits next, for breach diagnostics. -/
def State.expecting : State → String
  | .awaitHello => "Hello"
  | .awaitFindSplit => "FindSplit"
  | .awaitSplitPoint | .awaitSegment _ _ => "no frame while an effect is unresolved"
  | .terminal => "nothing"

abbrev Stepped := Res Empty (State × List (Effect ServeOutcome))

def breach (breach : Breach) : Stepped := pure (.terminal, [.violation breach])

variable [Externals]

/-- Whether a segment runs parent-first from the cursor; the digest of an envelope out of the own log
is expected to be there. -/
def parentFirst (cursor : EnvelopeDigest) : List Envelope → Res Empty Bool
  | [] => pure true
  | envelope :: batch =>
    if envelope.prev ≠ some cursor then pure false
    else
      match envelope.digest with
      | .ok digest => parentFirst digest batch
      | .error _ => .error (.panic "an envelope out of our own log re-encodes")

/-- A segment to send: the assertions on the own core's answer, and the digest it ends at. -/
def segmentTip (cursor : EnvelopeDigest) (batch : List Envelope) : Res Empty EnvelopeDigest := do
  if batch.length > MAX_BATCH_ENVELOPES then .error (.panic "own core must respect the segment budget")
  if !(← parentFirst cursor batch) then .error (.panic "own core must answer segments parent-first from the cursor")
  let last ← Res.expect batch.getLast? "the batch is non-empty"
  Res.expect last.digest.toOption "an envelope out of our own log re-encodes"

/-- One input (`Server::step`), for a session that started with the core at `head`. -/
def step (head : EnvelopeDigest) : State → Input → Stepped
  | .awaitHello, .message (.hello version _) =>
    if version ≠ PROTOCOL_VERSION then breach (.version PROTOCOL_VERSION version)
    else pure (.awaitFindSplit, [.send (.hello PROTOCOL_VERSION head)])
  | .awaitFindSplit, .message (.findSplit locator) =>
    if locator.isEmpty then breach .emptyLocator
    else if locator.length > MAX_LOCATOR_LEN then breach (.oversizedLocator locator.length)
    else pure (.awaitSplitPoint, [.ask (.splitPoint locator)])
  | .awaitSplitPoint, .answer (.splitPoint none) => pure (.terminal, [.send .noSplit, .done .noCommonHistory])
  | .awaitSplitPoint, .answer (.splitPoint (some at')) =>
    pure (.awaitSegment at' 0, [.send (.split at'), .ask (.segment at')])
  | .awaitSegment cursor sent, .answer (.segment batch) =>
    -- caught up, or the cursor left the canonical path under a reorg
    if batch.isEmpty then pure (.terminal, [.send .caughtUp, .done (.served cursor sent)])
    else do
      let tip ← segmentTip cursor batch
      pure (.awaitSegment tip (sent + batch.length), [.send (.envelopes batch), .ask (.segment tip)])
  -- a frame the phase does not admit is the peer's breach
  | .awaitHello, .message message => breach (.unexpected message.kind State.awaitHello.expecting)
  | .awaitFindSplit, .message message => breach (.unexpected message.kind State.awaitFindSplit.expecting)
  -- while everything below is the driver breaking its contract
  | .awaitSplitPoint, .message _ | .awaitSegment _ _, .message _ =>
    .error (.panic "driver fed a frame while an Ask was unresolved")
  | .terminal, _ => .error (.panic "driver fed input after the session ended")
  | _, .answer _ => .error (.panic "driver answered a query nothing asked for, or answered in the wrong shape")
  | _, .ingested => .error (.panic "a server never ingests")

/-- A session about to serve a peer's pull; it says nothing until the peer's `Hello`. -/
def opening : Session State ServeOutcome := .opening .awaitHello []

theorem parentFirst_of_linked {batch : List Envelope} {cursor tip : EnvelopeDigest} (h : Linked cursor batch tip) :
    parentFirst cursor batch = .ok true := by
  induction h with
  | nil => rfl
  | cons prev digest _ ih =>
    rw [parentFirst, if_neg (not_not.2 prev), digest]
    exact ih

/-- A linked segment within the budget passes every assertion. -/
theorem segmentTip_of_linked {batch : List Envelope} {cursor tip : EnvelopeDigest} (h : Linked cursor batch tip)
    (hne : batch ≠ []) (hcap : batch.length ≤ MAX_BATCH_ENVELOPES) : segmentTip cursor batch = .ok tip := by
  have hlast := h.tip_eq
  rw [List.getLast?_eq_some_getLast hne] at hlast
  have hdigest : (batch.getLast hne).digest.toOption = some tip := by rw [hlast]; rfl
  unfold segmentTip
  rw [if_neg (Nat.not_lt.2 hcap), parentFirst_of_linked h, List.getLast?_eq_some_getLast hne]
  simp only [Res.ok_bind, Bool.not_true, Bool.false_eq_true, if_false, Res.expect_some, hdigest]

end IrohLotus.Sync.Server
