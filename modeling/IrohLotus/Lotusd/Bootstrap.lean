/-
Joining a cluster (`lotusd::bootstrap`): the joiner and the node that sponsors it, each under its own task,
with the control frames on their way between them and the two pulls the sponsor serves. The sponsor's
mainloop goes on with what else it does, and either side may lose the connection at any time.
-/
import IrohLotus.Lotusd.Cluster
import IrohLotus.Lotusd.Invites
import IrohLotus.Lotusd.Partway

namespace IrohLotus.Lotusd.Bootstrap

open Std Outcome IrohLotus.Wire IrohLotus.Storage IrohLotus.State IrohLotus.Sync

/-! ## The control stream -/

/-- The protocol version spoken by this build. -/
def PROTOCOL_VERSION : UInt32 := 2

/-- The invite format spoken by this build (`invite::VERSION`). -/
def INVITE_VERSION : UInt32 := 1

/-- Why a pull, or the serving of one, ended without an outcome. -/
inductive SyncError where
  | breach (breach : Breach)
  | answer (halt : Halt Error)
  | ingest (halt : Halt Error)

/-- Why serving a join ended without admitting anyone; `lost` is a stream or a connection that failed, or
a step that was not taken in time. -/
inductive ServeError where
  | lost
  | unexpected (expected got : String)
  | version (theirs : UInt32)
  | invite (why : Halt InviteError)
  | sync (why : SyncError)
  | admission (why : Halt Error)

/-- A frame on the control stream. A refusal carries the text of the error the sponsor ended with. -/
inductive Message where
  | join (version : UInt32) (token : Token) (key : PublicKey)
  | welcome (root : Envelope) (state : Option FullCheckpoint)
  | refused (why : ServeError)
  | admitted (digest : EnvelopeDigest)

def Message.kind : Message → String
  | .join _ _ _ => "Join"
  | .welcome _ _ => "Welcome"
  | .refused _ => "Refused"
  | .admitted _ => "Admitted"

/-- A frame as the peer reads it: how an envelope verified does not travel. -/
def Message.received : Message → Message
  | .welcome root state => .welcome (Sync.received root) state
  | message => message

/-- Why a join did not end in a cluster on disk. -/
inductive JoinError where
  | inviteVersion (theirs : UInt32)
  | lost
  | refused (why : ServeError)
  | unexpected (expected got : String)
  | rootMismatch (expected got : EnvelopeDigest)
  | undigestable (e : WireError)
  | init (why : Halt Error)
  | sync (why : SyncError)
  | noCommonHistory
  | admissionMissing
  | chain (why : Halt Error)
  | sponsorNotTrusted
  | notTrusted

/-- What a joiner reads of its invite besides the sponsor's address. -/
structure Invited extends Invite where
  version : UInt32
  sponsor : KeyId

section Model

variable [Externals]

/-! ## The joiner -/

/-- How far the joiner is. -/
inductive Joining where
  | starts
  | awaitsWelcome
  | pulls (core : Core)
  | awaitsAdmitted (core : Core)
  | pullsAgain (core : Core) (admitted : EnvelopeDigest)
  | joined (core : Core) (admitted : EnvelopeDigest)
  | failed (why : JoinError)

/-- The core it laid down, once it did. -/
def Joining.core : Joining → Option Core
  | .pulls core | .awaitsAdmitted core | .pullsAgain core _ | .joined core _ => some core
  | .starts | .awaitsWelcome | .failed _ => none

/-- A core over the root that was handed over (`Core::join_in_state_dir`). -/
def joinInStateDir (clock : StoredAt) (root : Envelope) (state : Option FullCheckpoint) : Res Error Core :=
  let (chain, storage) := match state with
    | none => Chain.init root (MemStorage.empty clock)
    | some state => Chain.adopt root state (MemStorage.empty clock)
  chain.map fun chain => ⟨chain, storage, chain.root⟩

/-- The frame read for a `Welcome`: the root has to be the one the invite pinned. -/
def readWelcome (invite : Invited) (clock : StoredAt) : Message → Joining
  | .welcome root state =>
    match root.digest with
    | .error e => .failed (.undigestable e)
    | .ok got =>
      if got ≠ invite.root then .failed (.rootMismatch invite.root got)
      else
        match joinInStateDir clock root state with
        | .error why => .failed (.init why)
        | .ok core => .pulls core
  | .refused why => .failed (.refused why)
  | other => .failed (.unexpected "Welcome" other.kind)

/-- The frame read for an `Admitted`. -/
def readAdmitted (core : Core) : Message → Joining
  | .admitted digest => .pullsAgain core digest
  | .refused why => .failed (.refused why)
  | other => .failed (.unexpected "Admitted" other.kind)

/-- What is checked of the chain once both pulls are done. -/
def checkAdmitted (invite : Invited) (keys : NodeKeys) (core : Core) (admitted : EnvelopeDigest) :
    Except JoinError Unit := do
  let contains ← (core.chain.contains core.storage admitted).mapError .chain
  if !contains then throw .admissionMissing
  let trusted ← ((core.chain.ledger.trustedKeys core.storage).mapErr Error.apply).mapError .chain
  if !trusted.contains invite.sponsor then throw .sponsorNotTrusted
  if !trusted.contains keys.keyId then throw .notTrusted

/-- The outcome of the first pull. -/
def landed (core : Core) : PullOutcome → Joining
  | .synced _ _ | .alreadyCurrent => .awaitsAdmitted core
  | .noCommonHistory => .failed .noCommonHistory

/-- The outcome of the second. -/
def landedAgain (invite : Invited) (keys : NodeKeys) (core : Core) (admitted : EnvelopeDigest) : PullOutcome → Joining
  | .synced _ _ | .alreadyCurrent =>
    match checkAdmitted invite keys core admitted with
    | .error why => .failed why
    | .ok () => .joined core admitted
  | .noCommonHistory => .failed .noCommonHistory

/-! ## The sponsor -/

/-- How far the task that serves the join is. -/
inductive Serving where
  | awaitsJoin
  | redeems (token : Token) (key : PublicKey)
  | serves (key : PublicKey) (weight : UInt32)
  | admits (key : PublicKey) (weight : UInt32)
  | servesAgain (node : KeyId)
  | awaitsEnd (node : KeyId)
  | done (node : KeyId)
  | failed (why : ServeError)

/-- The frame read for a `Join`, and what is answered to it right away. -/
def readJoin : Message → Serving × List Message
  | .join version token key =>
    if version ≠ PROTOCOL_VERSION then (.failed (.version version), [.refused (.version version)])
    else (.redeems token key, [])
  | other => (.failed (.unexpected "Join" other.kind), [])

/-- What came of redeeming the token. -/
def welcomed (key : PublicKey) : Res InviteError Welcomed → Serving × List Message
  | .ok welcome => (.serves key welcome.weight, [.welcome welcome.root welcome.state])
  | .error why => (.failed (.invite why), [.refused (.invite why)])

/-- What came of the admission. -/
def answered (key : PublicKey) : Res Error EnvelopeDigest → Serving × List Message
  | .ok digest => (.servesAgain key.id, [.admitted digest])
  | .error why => (.failed (.admission why), [.refused (.admission why)])

/-! ## Both -/

/-- The keys of the two nodes, the invite between them, and the joiner's endpoint as the connection names it. -/
structure Parties where
  sponsor : NodeKeys
  joiner : NodeKeys
  invite : Invited
  remote : Externals.EndpointId

/-- What the sponsor's mainloop does to admit a joiner that gave `key`. -/
def Parties.admission [AddrText] (p : Parties) (core : Core) (key : PublicKey) (weight : UInt32) :
    Res Error EnvelopeDigest × Core :=
  core.admit p.sponsor (newKey key weight) ⟨p.remote, []⟩

/-- A join under way: the sponsor's mainloop and its task, the joiner, the control frames on their way to
either, and the two pulls. -/
structure Join where
  mainloop : Sponsor
  serving : Serving
  joining : Joining
  toSponsor : List Message
  toJoiner : List Message
  first : Option Exchange
  second : Option Exchange

/-- A connection the joiner just opened. -/
def Join.started (mainloop : Sponsor) : Join := ⟨mainloop, .awaitsJoin, .starts, [], [], none, none⟩

/-- The puller's driver fails. -/
inductive PullerFails [Encoding] (p : Pull) : SyncError → Prop
  | breach {breach : Breach} {pending : List (Effect PullOutcome)}
      (front : p.puller.pending = .violation breach :: pending) :
    PullerFails p (.breach breach)
  | answer {query : Query} {halt : Halt Error} {pending : List (Effect PullOutcome)}
      (front : p.puller.pending = .ask query :: pending)
    (failed : p.here.syncAnswer query = .error halt) : PullerFails p (.answer halt)
  | ingest {batch : List Envelope} {halt : Halt Error} {pending : List (Effect PullOutcome)}
    (front : p.puller.pending = .ingest batch :: pending) (failed : (p.here.insertBatch batch).1 = .error halt) :
    PullerFails p (.ingest halt)

/-- The server's driver fails. -/
inductive ServerFails [Encoding] (p : Pull) : SyncError → Prop
  | breach {breach : Breach} {pending : List (Effect ServeOutcome)}
      (front : p.server.pending = .violation breach :: pending) :
    ServerFails p (.breach breach)
  | answer {query : Query} {halt : Halt Error} {pending : List (Effect ServeOutcome)}
      (front : p.server.pending = .ask query :: pending)
    (failed : p.there.syncAnswer query = .error halt) : ServerFails p (.answer halt)

/-- The server's driver returns: it has an outcome, or has read all there was on a stream the puller closed. -/
def Served (closed : Prop) (x : Exchange) : Prop :=
  (∃ outcome, x.server.pending = [.done outcome]) ∨ closed ∧ x.server.pending = [] ∧ x.toServer = []

variable [Encoding] [AddrText]

/-- What the two do of themselves. -/
inductive Join.Work (p : Parties) (j : Join) : Join → Prop
  | outdated (at' : j.joining = .starts) (old : p.invite.version ≠ INVITE_VERSION) :
    Work p j { j with joining := .failed (.inviteVersion p.invite.version) }
  | asks (at' : j.joining = .starts) (current : p.invite.version = INVITE_VERSION) :
    Work p j { j with
      joining := .awaitsWelcome
      toSponsor := j.toSponsor ++ [.join PROTOCOL_VERSION p.invite.token p.joiner.publicKey] }
  | reads {message : Message} {frames : List Message} (at' : j.serving = .awaitsJoin)
      (front : j.toSponsor = message :: frames) :
    Work p j { j with
      serving := (readJoin message.received).1
      toSponsor := frames
      toJoiner := j.toJoiner ++ (readJoin message.received).2 }
  | redeems {token : Token} {key : PublicKey} (at' : j.serving = .redeems token key) :
    Work p j { j with
      mainloop := (j.mainloop.redeemInvite token).2
      serving := (welcomed key (j.mainloop.redeemInvite token).1).1
      toJoiner := j.toJoiner ++ (welcomed key (j.mainloop.redeemInvite token).1).2 }
  | welcomes {message : Message} {frames : List Message} (clock : StoredAt) (at' : j.joining = .awaitsWelcome)
    (front : j.toJoiner = message :: frames) :
    Work p j { j with joining := readWelcome p.invite clock message.received, toJoiner := frames }
  | opens {core : Core} {key : PublicKey} {weight : UInt32} (pulling : j.joining = .pulls core)
      (at' : j.serving = .serves key weight)
    (unopened : j.first = none) : Work p j { j with first := some (.opening core.head j.mainloop.core.head) }
  | talks {core : Core} {x : Exchange} {q : Pull} (pulling : j.joining = .pulls core) (underway : j.first = some x)
    (step : Pull.Step x.head (x.pull core j.mainloop.core) q) :
    Work p j { j with joining := .pulls q.here, first := some (x.went q) }
  | pullFails {core : Core} {x : Exchange} {why : SyncError} (pulling : j.joining = .pulls core)
      (underway : j.first = some x)
    (fails : PullerFails (x.pull core j.mainloop.core) why) : Work p j { j with joining := .failed (.sync why) }
  | lands {core : Core} {x : Exchange} {outcome : PullOutcome} (pulling : j.joining = .pulls core)
      (underway : j.first = some x)
    (done : x.puller.pending = [.done outcome]) : Work p j { j with joining := landed core outcome }
  | serveFails {core : Core} {key : PublicKey} {weight : UInt32} {x : Exchange} {why : SyncError}
      (pulling : j.joining = .pulls core)
    (at' : j.serving = .serves key weight) (underway : j.first = some x)
    (fails : ServerFails (x.pull core j.mainloop.core) why) :
    Work p j { j with serving := .failed (.sync why) }
  | served {key : PublicKey} {weight : UInt32} {x : Exchange} (at' : j.serving = .serves key weight)
      (underway : j.first = some x)
    (served : Served (∀ core, j.joining ≠ .pulls core) x) : Work p j { j with serving := .admits key weight }
  | admits {key : PublicKey} {weight : UInt32} (at' : j.serving = .admits key weight) :
    Work p j { j with
      mainloop := { j.mainloop with core := (p.admission j.mainloop.core key weight).2 }
      serving := (answered key (p.admission j.mainloop.core key weight).1).1
      toJoiner := j.toJoiner ++ (answered key (p.admission j.mainloop.core key weight).1).2 }
  | hears {core : Core} {message : Message} {frames : List Message} (at' : j.joining = .awaitsAdmitted core)
    (front : j.toJoiner = message :: frames) :
    Work p j { j with joining := readAdmitted core message.received, toJoiner := frames }
  | opensAgain {core : Core} {admitted : EnvelopeDigest} {node : KeyId}
      (pulling : j.joining = .pullsAgain core admitted)
    (at' : j.serving = .servesAgain node) (unopened : j.second = none) :
    Work p j { j with second := some (.opening core.head j.mainloop.core.head) }
  | talksAgain {core : Core} {admitted : EnvelopeDigest} {x : Exchange} {q : Pull}
      (pulling : j.joining = .pullsAgain core admitted)
    (underway : j.second = some x) (step : Pull.Step x.head (x.pull core j.mainloop.core) q) :
    Work p j { j with joining := .pullsAgain q.here admitted, second := some (x.went q) }
  | pullFailsAgain {core : Core} {admitted : EnvelopeDigest} {x : Exchange} {why : SyncError}
    (pulling : j.joining = .pullsAgain core admitted) (underway : j.second = some x)
    (fails : PullerFails (x.pull core j.mainloop.core) why) : Work p j { j with joining := .failed (.sync why) }
  | landsAgain {core : Core} {admitted : EnvelopeDigest} {x : Exchange} {outcome : PullOutcome}
    (pulling : j.joining = .pullsAgain core admitted) (underway : j.second = some x)
    (done : x.puller.pending = [.done outcome]) :
    Work p j { j with joining := landedAgain p.invite p.joiner core admitted outcome }
  | serveFailsAgain {core : Core} {admitted : EnvelopeDigest} {node : KeyId} {x : Exchange} {why : SyncError}
    (pulling : j.joining = .pullsAgain core admitted) (at' : j.serving = .servesAgain node)
    (underway : j.second = some x)
    (fails : ServerFails (x.pull core j.mainloop.core) why) : Work p j { j with serving := .failed (.sync why) }
  | servedAgain {node : KeyId} {x : Exchange} (at' : j.serving = .servesAgain node) (underway : j.second = some x)
    (served : Served (∀ core admitted, j.joining ≠ .pullsAgain core admitted) x) :
      Work p j { j with serving := .awaitsEnd node }
  | ends {core : Core} {admitted : EnvelopeDigest} {node : KeyId} (joined : j.joining = .joined core admitted)
    (at' : j.serving = .awaitsEnd node) : Work p j { j with serving := .done node }

/-- What may come from outside as well: the mainloop does something else, the joiner or the task loses the
connection, or the task finds the stream of a joiner that is gone closed. -/
inductive Join.Step (contents : Set SignedPortion) (p : Parties) (j : Join) : Join → Prop
  | work {j' : Join} (work : j.Work p j') : Step contents p j j'
  | elsewhere {mainloop : Sponsor} (move : j.mainloop.core.Moves contents mainloop.core) :
      Step contents p j { j with mainloop }
  | joinerLost : Step contents p j { j with joining := .failed .lost }
  | sponsorLost : Step contents p j { j with serving := .failed .lost }
  | closed {key : PublicKey} {weight : UInt32} {why : JoinError} (gone : j.joining = .failed why)
      (at' : j.serving = .serves key weight) :
    Step contents p j { j with serving := .admits key weight }
  | closedAgain {node : KeyId} {why : JoinError} (gone : j.joining = .failed why)
      (at' : j.serving = .servesAgain node) :
    Step contents p j { j with serving := .awaitsEnd node }
  | ended {node : KeyId} {why : JoinError} (gone : j.joining = .failed why) (at' : j.serving = .awaitsEnd node) :
    Step contents p j { j with serving := .done node }

/-- The states of a join with a mainloop that stood at `mainloop` when it began. -/
inductive Join.Runs (contents : Set SignedPortion) (p : Parties) (mainloop : Sponsor) : Join → Prop
  | started : Runs contents p mainloop (.started mainloop)
  | step {j j' : Join} (before : Runs contents p mainloop j) (step : j.Step contents p j') :
      Runs contents p mainloop j'

/-- Neither of them has anything left to do. -/
def Join.Quiet (p : Parties) (j : Join) : Prop := ∀ j', ¬ j.Work p j'

end Model

end IrohLotus.Lotusd.Bootstrap
