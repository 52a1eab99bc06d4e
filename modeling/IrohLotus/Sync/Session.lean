/-
The peer wire protocol (`sync::proto`) and what flows between a session machine and its driver
(`sync::session`). A frame carries the canonical encoding of its envelopes, so the verification
status of an envelope does not cross the wire.
-/
import IrohLotus.Lib.Outcome
import IrohLotus.Wire.Envelope

namespace IrohLotus.Sync

open Outcome IrohLotus.Wire

/-! ## The wire -/

/-- The protocol version spoken by this build. -/
def PROTOCOL_VERSION : UInt32 := 1

/-- The most envelopes one `Envelopes` frame may carry. -/
def MAX_BATCH_ENVELOPES : Nat := 256

/-- The largest frame body either side will read or write. -/
def MAX_FRAME_LEN : Nat := 2 ^ 24

/-- The encoded-byte budget of a segment. -/
def SEGMENT_BYTE_BUDGET : Nat := MAX_FRAME_LEN - 1024

/-- The most entries a locator may carry. -/
def MAX_LOCATOR_LEN : Nat := 64

/-- A frame on the peer wire. -/
inductive Message where
  | hello (version : UInt32) (head : EnvelopeDigest)
  | findSplit (locator : List EnvelopeDigest)
  | split (at' : EnvelopeDigest)
  | noSplit
  | envelopes (batch : List Envelope)
  | caughtUp
  | announce (head : EnvelopeDigest)
deriving DecidableEq

/-- A message's name without its payload. -/
inductive MessageKind where
  | hello
  | findSplit
  | split
  | noSplit
  | envelopes
  | caughtUp
  | announce
deriving DecidableEq

def Message.kind : Message → MessageKind
  | .hello _ _ => .hello
  | .findSplit _ => .findSplit
  | .split _ => .split
  | .noSplit => .noSplit
  | .envelopes _ => .envelopes
  | .caughtUp => .caughtUp
  | .announce _ => .announce

/-- An envelope as a receiver decodes it: nothing verified yet. -/
def received (envelope : Envelope) : Envelope := envelope.setVerificationStatus .unchecked

/-- A frame as it comes out of the peer's stream. -/
def Message.received : Message → Message
  | .envelopes batch => .envelopes (batch.map Sync.received)
  | message => message

/-! ## Machine and driver -/

/-- A question a machine asks of the core it works for. -/
inductive Query where
  | containsEnvelope (digest : EnvelopeDigest)
  | locator
  | splitPoint (entries : List EnvelopeDigest)
  | segment (after : EnvelopeDigest)
deriving DecidableEq

/-- The answer to a query, in the same shape. -/
inductive Answer where
  | contains (stored : Bool)
  | locator (entries : List EnvelopeDigest)
  | splitPoint (at' : Option EnvelopeDigest)
  | segment (batch : List Envelope)
deriving DecidableEq

/-- How a pull session ended for the puller. -/
inductive PullOutcome where
  | alreadyCurrent
  | synced (head : EnvelopeDigest) (ingested : Nat)
  | noCommonHistory
deriving DecidableEq

/-- How a pull session ended for the server. -/
inductive ServeOutcome where
  | noCommonHistory
  | served (head : EnvelopeDigest) (sent : Nat)
deriving DecidableEq

/-- How the peer broke the protocol. -/
inductive Breach where
  | version (ours theirs : UInt32)
  | unexpected (got : MessageKind) (expected : String)
  | splitNotInLocator (at' : EnvelopeDigest)
  | emptyBatch
  | oversizedBatch (got : Nat)
  | emptyLocator
  | oversizedLocator (got : Nat)
  | brokenRun (expected : EnvelopeDigest)
  | undigestable (error : WireError)
deriving DecidableEq

/-- What a driver feeds a session machine. -/
inductive Input where
  | message (message : Message)
  | answer (answer : Answer)
  | ingested
deriving DecidableEq

/-- What a machine instructs its driver to do. -/
inductive Effect (O : Type) where
  | send (message : Message)
  | ask (query : Query)
  | ingest (batch : List Envelope)
  | done (outcome : O)
  | violation (breach : Breach)
deriving DecidableEq

/-! ## Linked runs -/

section Linked

variable [Externals]

/-- Each envelope's `prev` is the digest of the one before, from `cursor` on to `tip`. -/
inductive Linked : EnvelopeDigest → List Envelope → EnvelopeDigest → Prop
  | nil {cursor : EnvelopeDigest} : Linked cursor [] cursor
  | cons {cursor next tip : EnvelopeDigest} {e : Envelope} {es : List Envelope} (prev : e.prev = some cursor)
    (digest : e.digest = .ok next) (rest : Linked next es tip) : Linked cursor (e :: es) tip

namespace Linked

variable {a b c : EnvelopeDigest} {es fs : List Envelope}

theorem append (h : Linked a es b) (h' : Linked b fs c) : Linked a (es ++ fs) c := by
  induction h with
  | nil => exact h'
  | cons prev digest _ ih => exact .cons prev digest (ih h')

/-- A run links on either side of any place in it. -/
theorem split : ∀ {es : List Envelope} {a : EnvelopeDigest}, Linked a (es ++ fs) c → ∃ b, Linked a es b ∧ Linked b fs c
  | [], a, h => ⟨a, .nil, h⟩
  | e :: es, a, h => by
    cases h with
    | cons prev digest rest =>
      obtain ⟨b, hes, hfs⟩ := split rest
      exact ⟨b, .cons prev digest hes, hfs⟩

/-- A run and the envelopes it was sent as link alike. -/
theorem received (h : Linked a es b) : Linked a (es.map Sync.received) b := by
  induction h with
  | nil => exact .nil
  | cons prev digest _ ih => exact .cons prev digest ih

/-- None of them starts a chain: an `Init` has no `prev`. -/
theorem not_init (h : Linked a es b) : ∀ e ∈ es, ∀ msg, e.payload ≠ .init msg := by
  induction h with
  | nil => exact nofun
  | @cons cursor next tip e es prev digest rest ih =>
    intro x hx msg hmsg
    rcases List.mem_cons.1 hx with rfl | hx
    · rw [Envelope.prev, hmsg] at prev; cases prev
    · exact ih x hx msg hmsg

/-- A run ends at the digest of its last envelope, or where it began. -/
theorem tip_eq (h : Linked a es b) :
    match es.getLast? with
    | some e => e.digest = .ok b
    | none => a = b := by
  induction h with
  | nil => rfl
  | @cons cursor next tip e es prev digest rest ih =>
    cases es with
    | nil => cases rest; exact digest
    | cons f fs =>
      have hlast : (f :: fs).getLast? = some ((f :: fs).getLast (List.cons_ne_nil f fs)) := List.getLast?_eq_some_getLast _
      rw [hlast] at ih
      rw [List.getLast?_cons_cons, hlast]
      exact ih

end Linked

end Linked

end IrohLotus.Sync
