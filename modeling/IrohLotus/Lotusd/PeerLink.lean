/-
One connection to a peer (`lotusd::peer_link`), on the side that accepted it (`PeerIngress::serve_sync`).
The peer opens streams to pull over, which are served, and streams of one announce each. An announce of a
head this node does not stand at sets a pull going, or has one follow the pull under way: however announces
and the ends of sessions fall, a pull is opened after every one that asked for it.
-/
import IrohLotus.Lib.Coalesce
import IrohLotus.Lotusd.Segment

namespace IrohLotus.Lotusd.PeerLink

open Bytes Framing IrohLotus.Wire IrohLotus.Sync

/-! ## The model -/

/-- Why a sync session ended without an outcome. -/
inductive SyncError where
  | serverGone
  | frame (e : Codec.Error)
  | breach (breach : Breach)
  | answer (e : State.Error)
  | ingest (e : State.Error)
  | peerClosed
  | truncated
  | timedOut

/-- Why this side closed a connection. -/
inductive CloseReason where
  | shuttingDown
  | breach
  | local'
  | unknownProtocol
  | removed
  | unlisted
deriving DecidableEq

/-- The application close code the peer sees. -/
def CloseReason.code : CloseReason → Nat
  | .shuttingDown => 1
  | .breach => 2
  | .local' => 3
  | .unknownProtocol => 4
  | .removed => 5
  | .unlisted => 6

def CloseReason.message : CloseReason → String
  | .shuttingDown => "shutting down"
  | .breach => "protocol breach"
  | .local' => "internal error"
  | .unknownProtocol => "unknown protocol"
  | .removed => "removed from cluster"
  | .unlisted => "not a listed node"

/-- What a session error says about who to blame: a gone server is ours, a failed answer is ours,
everything else is the peer's. -/
def closeReason : SyncError → CloseReason
  | .serverGone => .shuttingDown
  | .answer _ => .local'
  | _ => .breach

/-- How one session on the connection ended. -/
inductive Session where
  | served (result : Except SyncError ServeOutcome)
  | pulled (result : Except SyncError PullOutcome)
  | pullNotOpened

/-- What a task of the connection runs. -/
inductive Task where
  | serve
  | pull
deriving DecidableEq

def Session.task : Session → Task
  | .served _ => .serve
  | .pulled _ | .pullNotOpened => .pull

/-- Whether a pull is running, and whether another is owed once it ends. -/
inductive Pull where
  | idle
  | running
  | runningAgain
deriving DecidableEq

/-- The sessions on one connection and the state that decides when to open one. -/
structure Link where
  tasks : List Task
  pull : Pull
deriving DecidableEq

/-- Nothing to go on, or the reason to close the connection. -/
abbrev ControlFlow := Option CloseReason

def Link.new : Link := ⟨[], .idle⟩

/-- Serves the pull the peer opened. -/
def Link.serve (link : Link) : Link := { link with tasks := link.tasks ++ [.serve] }

def Link.spawnPull (link : Link) : Link := { link with tasks := link.tasks ++ [.pull] }

/-- Opens a pull now, or owes one if a pull is already running (`Link::pull`). -/
def Link.openPull (link : Link) : Link :=
  match link.pull with
  | .idle => { link.spawnPull with pull := .running }
  | .running | .runningAgain => { link with pull := .runningAgain }

/-- What an announce of `head` comes to on a node that stands at `ours`. -/
def Link.hear (link : Link) (head ours : EnvelopeDigest) : Link := if head = ours then link else link.openPull

/-- Whether the connection should close over how a session ended. A peer that parts between frames learned
from `Hello` that it needed nothing. -/
def Session.flow : Session → ControlFlow
  | .served (.ok _) | .served (.error .peerClosed) | .pulled (.ok _) | .pullNotOpened => none
  | .served (.error e) | .pulled (.error e) => some (closeReason e)

/-- Records how a session ended and whether the connection should close over it. -/
def Link.settle (link : Link) (session : Session) : ControlFlow × Link :=
  if session.task = .pull then
    match link.pull with
    | .runningAgain =>
      if session.flow = none then (session.flow, { link.spawnPull with pull := .running })
      else (session.flow, { link with pull := .idle })
    | .idle | .running => (session.flow, { link with pull := .idle })
  else (session.flow, link)

/-- The most bytes an announce stream may carry. -/
def ANNOUNCE_MAX_LEN : Nat := 256

/-- Why an announce stream makes no sense. -/
inductive Malformed where
  | codec (e : Codec.Error)
  | unfinished
  | moreThanOne
  | unexpected (got : MessageKind)

section Announce

variable [Cbor2]

/-- The one frame an announce stream carries. -/
def decodeAnnounce (bytes : Blob) : Except Malformed EnvelopeDigest :=
  match Codec.decode bytes with
  | (.error e, _) => .error (.codec e)
  | (.ok none, _) => .error .unfinished
  | (.ok (some message), rest) =>
    if rest ≠ [] then .error .moreThanOne
    else match message with
      | .announce head => .ok head
      | other => .error (.unexpected other.kind)

/-- Whether the announce on a stream names a head other than ours. -/
def wants (arrived : Option Blob) (ours : Option EnvelopeDigest) : Bool :=
  match arrived, ours with
  | some bytes, some ours => decide (bytes.length ≤ ANNOUNCE_MAX_LEN) &&
    match decodeAnnounce bytes with
      | .ok head => decide (head ≠ ours)
      | .error _ => false
  | _, _ => false

/-- Reads the announce on a stream and, if the peer stands at a head this node does not, sets a pull going.
Nothing arrives of a stream that fails or takes too long; a server that is gone has no head. -/
def Link.onAnnounce (link : Link) (arrived : Option Blob) (ours : Option EnvelopeDigest) : ControlFlow × Link :=
  match arrived with
  | none => (some .breach, link)
  | some bytes =>
    if bytes.length > ANNOUNCE_MAX_LEN then (some .breach, link)
    else match decodeAnnounce bytes with
      | .error _ => (some .breach, link)
      | .ok head => match ours with
        | none => (some .shuttingDown, link)
        | some ours => if head = ours then (none, link) else (none, link.openPull)

/-- What is written to a stream to announce a head. -/
def announced (head : EnvelopeDigest) : Blob := (Codec.encode (.announce head) []).2

end Announce

/-! ## Announces -/

section Announce

variable [Cbor2] {bytes : Blob} {head : EnvelopeDigest}

/-- An announce stream is one frame, of an announce, and nothing behind it. -/
theorem decodeAnnounce_eq_ok : decodeAnnounce bytes = .ok head ↔
    ∃ body, bytes = frame 4 body ∧ body.length ≤ MAX_FRAME_LEN ∧ Message.decode body = .ok (.announce head) := by
  unfold decodeAnnounce
  rw [Codec.decode_eq]
  constructor
  · intro h
    cases hfront : front 4 MAX_FRAME_LEN bytes with
    | short => rw [hfront] at h; cases h
    | oversized len => rw [hfront] at h; cases h
    | whole body rest =>
      rw [hfront] at h
      dsimp only at h
      cases hbody : Message.decode body with
      | error e => rw [hbody] at h; cases h
      | ok message =>
        rw [hbody] at h
        simp only [Except.map, Except.mapError] at h
        obtain ⟨hsplit, hwidth, hlen, hlimit⟩ := of_front_whole hfront
        by_cases hrest : rest ≠ []
        · rw [if_pos hrest] at h
          cases h
        · rw [if_neg hrest] at h
          obtain rfl := not_not.1 hrest
          refine ⟨body, ?_, hlimit, ?_⟩
          · have htake : bytes.take 4 = ofNumber 4 body.length := by
              have := ofNumber_toNumber (bytes.take 4)
              rw [← hlen, List.length_take, Nat.min_eq_left hwidth] at this
              exact this.symm
            rw [hsplit, htake, List.append_nil, frame]
          · cases message <;> cases h
            exact hbody
  · rintro ⟨body, rfl, hlimit, hbody⟩
    have hfront := @front_frame 4 _ _ hlimit (by decide) []
    rw [List.append_nil] at hfront
    rw [hfront]
    dsimp only
    rw [hbody]
    rfl

/-- An announce fits the stream it is written to, and is read there as the head it announces. -/
theorem announced_fits (headed : Headed)
    (hbytes : ∀ blob : Blob, size (.bytes blob) = (Cbor.head 2 blob.length).length + blob.length) (head : EnvelopeDigest) :
    (Codec.encode (.announce head) []).1 = .ok () ∧ (announced head).length ≤ ANNOUNCE_MAX_LEN ∧
      decodeAnnounce (announced head) = .ok head := by
  obtain ⟨body, hbody, hlen⟩ := exists_encode (.announce head)
  -- a tag, a field and three heads around the 32 bytes
  have hsize : size (Message.announce head).serialize = 38 := by
    show size (.map [(.int 7, .map [(.int 1, .bytes (ofNumber 32 head.hash.toNat))])]) = 38
    have h7 : size (.int 7) = 1 := headed.int 7 (by decide)
    have h1 : size (.int 1) = 1 := headed.int 1 (by decide)
    have hone : (Cbor.head 5 1).length = 1 := Cbor.length_head_of_lt (by decide)
    have hdigest : (Cbor.head 2 32).length = 2 := by decide
    rw [headed.map, List.map_singleton, List.sum_singleton, headed.map, List.map_singleton, List.sum_singleton, hbytes,
      length_ofNumber, hdigest]
    simp only [List.length_singleton, hone, h7, h1]
  have hfits : body.length ≤ MAX_FRAME_LEN := by
    rw [hlen, hsize]
    decide
  have hencode := Codec.encode_fits hbody hfits []
  have hsent : announced head = frame 4 body := by
    unfold announced
    rw [hencode, List.nil_append]
  have hordered : (Message.announce head).Ordered := trivial
  refine ⟨by rw [hencode], ?_, ?_⟩
  · rw [hsent, length_frame, hlen, hsize]
    decide
  · rw [hsent]
    exact decodeAnnounce_eq_ok.2 ⟨body, rfl, hfits, Message.decode_of_encode hordered hbody⟩

/-- Whatever the head, the stream that announces it is within what the other side reads of one, and read
there as the head it announces; and nothing but such a frame is read as an announce. -/
theorem announce_crosses (headed : Headed)
    (hbytes : ∀ blob : Blob, size (.bytes blob) = (Cbor.head 2 blob.length).length + blob.length) :
    (∀ head, (Codec.encode (.announce head) []).1 = .ok () ∧ (announced head).length ≤ ANNOUNCE_MAX_LEN ∧
      decodeAnnounce (announced head) = .ok head) ∧
    ∀ bytes head, decodeAnnounce bytes = .ok head ↔
      ∃ body, bytes = frame 4 body ∧ body.length ≤ MAX_FRAME_LEN ∧ Message.decode body = .ok (.announce head) :=
  ⟨announced_fits headed hbytes, fun _ _ => decodeAnnounce_eq_ok⟩

/-- An announce that arrived whole changes the link as the head it names asks for. -/
theorem Link.onAnnounce_announced (headed : Headed)
    (hbytes : ∀ blob : Blob, size (.bytes blob) = (Cbor.head 2 blob.length).length + blob.length) (link : Link)
    (head ours : EnvelopeDigest) : link.onAnnounce (some (announced head)) (some ours) = (none, link.hear head ours) := by
  obtain ⟨-, hlen, hdecode⟩ := announced_fits headed hbytes head
  unfold Link.onAnnounce hear
  simp only [if_neg (Nat.not_lt.2 hlen), hdecode]
  split <;> rfl

end Announce

/-! ## A connection under way -/

section Runs

variable [Cbor2]

open Coalesce

/-- The pulls a step opened. -/
def openings (link link' : Link) : List Mark := List.replicate (link'.tasks.count .pull - link.tasks.count .pull) .started

/-- What serving a connection comes to (`PeerIngress::serve_sync`), with the record of the announces that
asked for a pull and of the pulls: streams the peer opens, and sessions that end. -/
inductive Link.Runs : Link → List Mark → ControlFlow → Prop
  | opened : Runs Link.new [] none
  | served {link : Link} {marks : List Mark} (before : Runs link marks none) : Runs link.serve marks none
  | announced {link : Link} {marks : List Mark} (before : Runs link marks none) (arrived : Option Blob)
    (ours : Option EnvelopeDigest) :
    Runs (link.onAnnounce arrived ours).2
      (marks ++ ((if wants arrived ours then [.wanted] else []) ++ openings link (link.onAnnounce arrived ours).2))
      (link.onAnnounce arrived ours).1
  | settled {link ended : Link} {marks : List Mark} (before : Runs link marks none) (session : Session)
    (underway : session.task ∈ link.tasks) (hended : ended = { link with tasks := link.tasks.erase session.task }) :
    Runs (ended.settle session).2
      (marks ++ ((if session.task = .pull then [.ended] else []) ++ openings ended (ended.settle session).2))
      (ended.settle session).1

/-- The pulls of a connection as pieces of work. -/
def Pull.phase : Pull → Phase
  | .idle => .idle
  | .running => .running
  | .runningAgain => .again

omit [Cbor2] in
theorem Pull.phase_eq_running {pull : Pull} : pull.phase = .running ↔ pull = .running := by
  cases pull <;> decide

variable {link : Link} {marks : List Mark} {flow : ControlFlow}

/-- An announce asks for a pull and goes on, or changes nothing. -/
theorem Link.onAnnounce_cases (link : Link) (arrived : Option Blob) (ours : Option EnvelopeDigest) :
    (wants arrived ours = true ∧ link.onAnnounce arrived ours = (none, link.openPull)) ∨
    (wants arrived ours = false ∧ (link.onAnnounce arrived ours).2 = link) := by
  unfold wants Link.onAnnounce
  cases arrived with
  | none => exact .inr ⟨rfl, rfl⟩
  | some bytes =>
    by_cases hlen : bytes.length > ANNOUNCE_MAX_LEN
    · have hnot : ¬ bytes.length ≤ ANNOUNCE_MAX_LEN := Nat.not_le.2 hlen
      cases ours with
      | none => exact .inr ⟨rfl, by simp only [if_pos hlen]⟩
      | some ours => exact .inr ⟨by simp only [hnot, decide_false, Bool.false_and], by simp only [if_pos hlen]⟩
    · have hle : bytes.length ≤ ANNOUNCE_MAX_LEN := Nat.not_lt.1 hlen
      cases hread : decodeAnnounce bytes with
      | error e => cases ours <;> exact .inr ⟨by simp [hread], by simp only [if_neg hlen, hread]⟩
      | ok head =>
        cases ours with
        | none => exact .inr ⟨rfl, by simp only [if_neg hlen, hread]⟩
        | some ours =>
          by_cases hhead : head = ours
          · exact .inr ⟨by simp [hread, hhead], by simp only [if_neg hlen, hread, if_pos hhead]⟩
          · exact .inl ⟨by simp [hread, hhead, hle], by simp only [if_neg hlen, hread, if_neg hhead]⟩

/-- How many pulls run. -/
def Link.Single (link : Link) : Prop := link.tasks.count .pull = if link.pull = .idle then 0 else 1

omit [Cbor2] in
theorem Link.openPull_request (h : link.Single) : link.openPull.Single ∧
    link.openPull.pull.phase = link.pull.phase.request.1 ∧
      [.wanted] ++ openings link link.openPull = link.pull.phase.request.2 := by
  obtain ⟨tasks, pull⟩ := link
  unfold Link.Single at h ⊢
  cases pull with
  | idle =>
    have hcount : (tasks ++ [Task.pull]).count .pull = 1 := by
      rw [List.count_append, List.count_singleton_self, h]
      rfl
    refine ⟨hcount, rfl, ?_⟩
    unfold openings Link.openPull Link.spawnPull
    dsimp only at h ⊢
    rw [hcount, h]
    rfl
  | running =>
    refine ⟨h, rfl, ?_⟩
    unfold openings Link.openPull
    simp [Pull.phase, Phase.request]
  | runningAgain =>
    refine ⟨h, rfl, ?_⟩
    unfold openings Link.openPull
    simp [Pull.phase, Phase.request]

omit [Cbor2] in
/-- The end of a pull that leaves the connection open lands it. -/
theorem Link.settle_land {ended : Link} {session : Session} (h : link.Single) (hpull : session.task = .pull)
    (underway : Task.pull ∈ link.tasks) (hended : ended = { link with tasks := link.tasks.erase .pull })
    (hopen : (ended.settle session).1 = none) : (ended.settle session).2.Single ∧ link.pull.phase ≠ .idle ∧
      (ended.settle session).2.pull.phase = link.pull.phase.land.1 ∧
        [.ended] ++ openings ended (ended.settle session).2 = link.pull.phase.land.2 := by
  obtain ⟨tasks, pull⟩ := link
  unfold Link.Single at h ⊢
  have hpos : 0 < tasks.count .pull := List.count_pos_iff.2 underway
  have hcount : (tasks.erase .pull).count .pull = 0 := by
    rw [List.count_erase_self, h]
    split <;> rfl
  subst hended
  cases pull with
  | idle =>
    dsimp only at h
    rw [h] at hpos
    exact absurd hpos (Nat.lt_irrefl 0)
  | running =>
    unfold Link.settle at hopen ⊢
    dsimp only at hopen ⊢
    rw [if_pos hpull] at hopen ⊢
    refine ⟨hcount, by decide, rfl, ?_⟩
    simp [openings, Pull.phase, Phase.land]
  | runningAgain =>
    have hflow : session.flow = none := by
      unfold Link.settle at hopen
      rw [if_pos hpull] at hopen
      dsimp only at hopen
      split at hopen <;> exact hopen
    unfold Link.settle
    dsimp only
    rw [if_pos hpull, if_pos hflow]
    have hnew : (tasks.erase .pull ++ [Task.pull]).count .pull = 1 := by
      rw [List.count_append, List.count_singleton_self, hcount]
    refine ⟨hnew, by decide, rfl, ?_⟩
    unfold openings Link.spawnPull
    dsimp only
    rw [hnew, hcount]
    rfl

/-- As long as the connection is open its pulls are work done one piece at a time. -/
theorem Link.Runs.coalesce (h : Link.Runs link marks flow) (hopen : flow = none) :
    link.Single ∧ Coalesce.Runs link.pull.phase marks := by
  induction h with
  | opened => exact ⟨rfl, .start⟩
  | @served link marks before ih =>
    obtain ⟨hsingle, hruns⟩ := ih rfl
    refine ⟨?_, hruns⟩
    unfold Link.Single Link.serve
    dsimp only
    rw [List.count_append, List.count_singleton]
    exact hsingle
  | @announced link marks before arrived ours ih =>
    obtain ⟨hsingle, hruns⟩ := ih rfl
    rcases link.onAnnounce_cases arrived ours with ⟨hwants, hlink⟩ | ⟨hwants, hlink⟩
    · obtain ⟨hsingle', hphase, hmarks⟩ := Link.openPull_request hsingle
      rw [hlink, if_pos hwants, hmarks, hphase]
      exact ⟨hsingle', hruns.request⟩
    · rw [hlink, if_neg (by rw [hwants]; exact Bool.false_ne_true)]
      simp only [openings, Nat.sub_self, List.replicate_zero, List.append_nil]
      exact ⟨hsingle, hruns⟩
  | @settled link ended marks before session underway hended ih =>
    obtain ⟨hsingle, hruns⟩ := ih rfl
    by_cases hpull : session.task = .pull
    · rw [hpull] at underway hended
      obtain ⟨hsingle', hne, hphase, hmarks⟩ := Link.settle_land hsingle hpull underway hended hopen
      rw [if_pos hpull, hmarks, hphase]
      exact ⟨hsingle', hruns.land hne⟩
    · have hserve : session.task = .serve := by
        cases hsession : session.task with
        | serve => rfl
        | pull => exact absurd hsession hpull
      have hsame : (ended.settle session).2 = ended := by
        unfold Link.settle
        rw [if_neg hpull]
      rw [hsame, if_neg hpull]
      simp only [openings, Nat.sub_self, List.replicate_zero, List.append_nil]
      subst hended
      refine ⟨?_, hruns⟩
      unfold Link.Single at hsingle ⊢
      rw [hserve]
      dsimp only
      rw [List.count_erase_of_ne (by decide)]
      exact hsingle

omit [Cbor2] in
theorem Link.settle_flow (link : Link) (session : Session) : (link.settle session).1 = session.flow := by
  unfold Link.settle
  split
  · split
    · split <;> rfl
    · rfl
    · rfl
  · rfl

omit [Cbor2] in
theorem Session.flow_eq_some {session : Session} {reason : CloseReason} : session.flow = some reason ↔
    ∃ e, (session = .served (.error e) ∧ e ≠ .peerClosed ∨ session = .pulled (.error e)) ∧ closeReason e = reason := by
  constructor
  · intro h
    unfold Session.flow at h
    split at h
    · cases h
    · cases h
    · cases h
    · cases h
    · rename_i e hne
      exact ⟨e, .inl ⟨rfl, fun heq => hne (heq ▸ rfl)⟩, Option.some.inj h⟩
    · rename_i e
      exact ⟨e, .inr rfl, Option.some.inj h⟩
  · rintro ⟨e, ⟨rfl, hne⟩ | rfl, rfl⟩
    · cases e <;> first | rfl | exact absurd rfl hne
    · rfl

/-- What an open connection keeps to. -/
structure Link.Hears (link : Link) (marks : List Mark) : Prop where
  /-- One pull runs at most, and none while the link is idle. -/
  single : link.tasks.count .pull = if link.pull = .idle then 0 else 1
  /-- A pull was opened after every announce that asked for one, or one runs that another will follow. -/
  heard : Served marks ∨ link.pull = .runningAgain
  /-- No pull is opened that no announce asked for. -/
  asked : marks.count .started + (if link.pull = .runningAgain then 1 else 0) ≤ marks.count .wanted
  /-- Sessions close the connection by failing, unless the peer parted while it was served. -/
  closes : ∀ session reason, (link.settle session).1 = some reason ↔
    ∃ e, (session = .served (.error e) ∧ e ≠ .peerClosed ∨ session = .pulled (.error e)) ∧ closeReason e = reason

/-- No announced head is missed: however announces, served sessions and pulls fall, as long as the connection
is open. -/
theorem Link.Runs.hears (h : Link.Runs link marks none) : link.Hears marks := by
  obtain ⟨hsingle, hruns⟩ := h.coalesce rfl
  obtain ⟨hserved, hasked, -⟩ := hruns.kept
  refine ⟨hsingle, ?_, ?_, fun session reason => ?_⟩
  · cases hpull : link.pull with
    | idle => exact .inl (hserved (by rw [hpull]; decide))
    | running => exact .inl (hserved (by rw [hpull]; decide))
    | runningAgain => exact .inr rfl
  · cases hpull : link.pull <;> rw [hpull] at hasked <;> exact hasked
  · rw [Link.settle_flow]
    exact Session.flow_eq_some

end Runs

end IrohLotus.Lotusd.PeerLink

/-! ## The samples -/

namespace IrohLotus.Lotusd.PeerLink

open Coalesce IrohLotus.Wire IrohLotus.Wire.Sample IrohLotus.Sync

/-- As deterministic CBOR has it. -/
theorem announce_crosses_cbor2 : decodeAnnounce (announced secondDigest) = .ok secondDigest :=
  ((announce_crosses headed_cbor2 Cbor.length_write_bytes).1 secondDigest).2.2

/-- An announce, another while the pull it asked for runs, and the end of that pull. -/
theorem hears_twice : Link.Runs ⟨[.pull], .running⟩ [.wanted, .started, .wanted, .ended, .started] none ∧
    Link.Hears ⟨[.pull], .running⟩ [.wanted, .started, .wanted, .ended, .started] := by
  have hfirst : Link.Runs ⟨[.pull], .running⟩ [.wanted, .started] none := by
    have h := Link.Runs.opened.announced (some (announced firstDigest)) (some genesisDigest)
    have hlink : Link.new.onAnnounce (some (announced firstDigest)) (some genesisDigest) = (none, ⟨[.pull], .running⟩) := by
      decide +kernel
    have hwants : wants (some (announced firstDigest)) (some genesisDigest) = true := by decide +kernel
    rw [hlink, if_pos hwants] at h
    exact h
  have hsecond : Link.Runs ⟨[.pull], .runningAgain⟩ [.wanted, .started, .wanted] none := by
    have h := hfirst.announced (some (announced secondDigest)) (some genesisDigest)
    have hlink : (Link.mk [.pull] .running).onAnnounce (some (announced secondDigest)) (some genesisDigest) =
        (none, ⟨[.pull], .runningAgain⟩) := by decide +kernel
    have hwants : wants (some (announced secondDigest)) (some genesisDigest) = true := by decide +kernel
    rw [hlink, if_pos hwants] at h
    exact h
  have hended : Link.Runs ⟨[.pull], .running⟩ [.wanted, .started, .wanted, .ended, .started] none :=
    hsecond.settled (.pulled (.ok .alreadyCurrent)) List.mem_cons_self rfl
  exact ⟨hended, hended.hears⟩

end IrohLotus.Lotusd.PeerLink
