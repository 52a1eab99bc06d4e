/-
Reading frames of the control protocol (`lotusd-rpc`'s `frame`). A reader keeps what has arrived of the
frame in progress between polls, so what it answers does not depend on how the stream was cut into reads.
It stops for good at the end of the stream and at every error but one: behind a body that does not decode
it goes on with the next frame.
-/
import IrohLotus.Lib.Framing
import IrohLotus.Wire.Envelope

namespace IrohLotus.LotusdRpc

open Bytes Framing IrohLotus.Wire

/-- The largest frame body either side will read or write. -/
def MAX_FRAME_LEN : Nat := 2 ^ 20

/-! ## The stream -/

/-- How a stream ends: the peer closes it, or it breaks. -/
inductive Ending where
  | closed
  | broken (kind : String)
deriving DecidableEq

/-- What a read finds: nothing yet, or some bytes. -/
inductive Arrival where
  | pending
  | bytes (first : UInt8) (more : Blob)
deriving DecidableEq

structure Stream where
  arrivals : List Arrival
  ending : Ending
deriving DecidableEq

def Arrival.blob : Arrival → Blob
  | .pending => []
  | .bytes first more => first :: more

/-- All the bytes still to be read. -/
def Stream.rest (stream : Stream) : Blob := stream.arrivals.flatMap Arrival.blob

/-- How often a read will find nothing yet. -/
def Stream.waits (stream : Stream) : Nat := stream.arrivals.count .pending

/-- `Poll`. -/
inductive Poll (α : Type) where
  | ready (a : α)
  | pending
deriving DecidableEq

/-- One read of at most `room` bytes: those that landed, none at the end of the stream. Bytes of an arrival
that find no room are read next. -/
def fill (room : Nat) (stream : Stream) : Poll (Except String Blob) × Stream :=
  match stream.arrivals with
  | [] =>
    match stream.ending with
    | .closed => (.ready (.ok []), stream)
    | .broken kind => (.ready (.error kind), stream)
  | .pending :: arrivals => (.pending, { stream with arrivals })
  | .bytes first more :: arrivals =>
    match more.drop (room - 1) with
    | [] => (.ready (.ok (first :: more)), { stream with arrivals })
    | next :: after => (.ready (.ok (first :: more.take (room - 1))), { stream with arrivals := .bytes next after :: arrivals })

/-! ## The reader -/

/-- A buffer and how much of it has been filled. -/
structure Filling where
  buf : Blob
  filled : Nat
  le : filled ≤ buf.length

namespace Filling

def new (len : Nat) : Filling := ⟨List.replicate len 0, 0, Nat.zero_le _⟩

/-- What has landed in the buffer. -/
def held (f : Filling) : Blob := f.buf.take f.filled

def room (f : Filling) : Nat := f.buf.length - f.filled

/-- Bytes land behind those that are there, as far as there is room for them. -/
def land (f : Filling) (bytes : Blob) : Filling where
  buf := f.held ++ bytes.take f.room ++ f.buf.drop (f.filled + (bytes.take f.room).length)
  filled := f.filled + (bytes.take f.room).length
  le := by
    have := f.le
    simp only [held, room, List.length_append, List.length_take, List.length_drop]
    omega

@[simp] theorem length_land (f : Filling) (bytes : Blob) : (f.land bytes).buf.length = f.buf.length := by
  have := f.le
  simp only [land, held, room, List.length_append, List.length_take, List.length_drop]
  omega

theorem held_land (f : Filling) {bytes : Blob} (h : bytes.length ≤ f.room) : (f.land bytes).held = f.held ++ bytes := by
  have hlen : (f.held ++ bytes.take f.room).length = f.filled + (bytes.take f.room).length := by
    rw [held, List.length_append, List.length_take, Nat.min_eq_left f.le]
  show (f.held ++ bytes.take f.room ++ f.buf.drop _).take (f.filled + (bytes.take f.room).length) = _
  rw [← hlen, List.take_left, List.take_of_length_le h]

theorem held_full {f : Filling} (h : f.filled = f.buf.length) : f.held = f.buf := by
  rw [held, h, List.take_length]

@[simp] theorem held_new (len : Nat) : (new len).held = [] := rfl

end Filling

/-- How far a reader is: in the length of a frame, in its body, or past the end. -/
inductive Progress where
  | len (f : Filling) (four : f.buf.length = 4)
  | body (f : Filling) (fits : f.buf.length ≤ MAX_FRAME_LEN)
  | done

/-- What reading a frame can fail with. -/
inductive Error where
  | frameTooLarge (len : Nat)
  | truncated
  | io (kind : String)
  | codec (e : WireError)
deriving DecidableEq

namespace Progress

/-- Before the length of the next frame. -/
def start : Progress := .len (.new 4) rfl

/-- The buffer being filled. -/
def dst : Progress → Option Filling
  | .len f _ => some f
  | .body f _ => some f
  | .done => none

def land : Progress → Blob → Progress
  | .len f four, bytes => .len (f.land bytes) (by rw [Filling.length_land, four])
  | .body f fits, bytes => .body (f.land bytes) (by rw [Filling.length_land]; exact fits)
  | .done, _ => .done

end Progress

section Reader

variable {T : Type}

/-- What one poll answers. -/
abbrev Answer (T : Type) := Except Error (Option T)

/-- Reads into the buffer in progress; an empty read is the end of the stream. -/
def readInto (progress : Progress) (room : Nat) (midFrame : Bool) (stream : Stream) :
    Option (Poll (Answer T)) × Progress × Stream :=
  match fill room stream with
  | (.pending, stream) => (some .pending, progress, stream)
  | (.ready (.ok []), stream) => (some (.ready (if midFrame then .error .truncated else .ok none)), .done, stream)
  | (.ready (.error kind), stream) => (some (.ready (.error (.io kind))), .done, stream)
  | (.ready (.ok (first :: more)), stream) => (none, progress.land (first :: more), stream)

/-- One turn of the loop of `poll_read`: what it answers, or none to go on. -/
def turn (decode : Blob → Except WireError T) : Progress → Stream → Option (Poll (Answer T)) × Progress × Stream
  | .done, stream => (some (.ready (.ok none)), .done, stream)
  | .len f four, stream =>
    if f.filled = f.buf.length then
      if h : toNumber f.buf ≤ MAX_FRAME_LEN then
        (none, .body (.new (toNumber f.buf)) (by simpa [Filling.new] using h), stream)
      else (some (.ready (.error (.frameTooLarge (toNumber f.buf)))), .done, stream)
    else readInto (.len f four) f.room (decide (0 < f.filled)) stream
  | .body f fits, stream =>
    if f.filled = f.buf.length then (some (.ready (((decode f.buf).map some).mapError .codec)), .start, stream)
    else readInto (.body f fits) f.room true stream

/-! ## Reads -/

/-- What a read finds. -/
theorem fill_cases {room : Nat} (hroom : 0 < room) (stream : Stream) :
    (∃ stream', fill room stream = (.pending, stream') ∧ stream'.rest = stream.rest ∧ stream'.ending = stream.ending ∧
      stream'.waits + 1 = stream.waits) ∨
    (stream.rest = [] ∧ stream.ending = .closed ∧ fill room stream = (.ready (.ok []), stream)) ∨
    (∃ kind, stream.rest = [] ∧ stream.ending = .broken kind ∧ fill room stream = (.ready (.error kind), stream)) ∨
    ∃ first more stream', fill room stream = (.ready (.ok (first :: more)), stream') ∧
      stream.rest = first :: more ++ stream'.rest ∧ (first :: more).length ≤ room ∧ stream'.ending = stream.ending ∧
      stream'.waits = stream.waits := by
  obtain ⟨arrivals, ending⟩ := stream
  cases arrivals with
  | nil =>
    cases ending with
    | closed => exact .inr (.inl ⟨rfl, rfl, rfl⟩)
    | broken kind => exact .inr (.inr (.inl ⟨kind, rfl, rfl, rfl⟩))
  | cons arrival arrivals =>
    cases arrival with
    | pending =>
      refine .inl ⟨⟨arrivals, ending⟩, rfl, rfl, rfl, ?_⟩
      simp [Stream.waits]
    | bytes first more =>
      refine .inr (.inr (.inr ?_))
      have hsplit := List.take_append_drop (room - 1) more
      cases hdrop : more.drop (room - 1) with
      | nil =>
        have hlen : more.length ≤ room - 1 := List.drop_eq_nil_iff.1 hdrop
        refine ⟨first, more, ⟨arrivals, ending⟩, ?_, rfl, ?_, rfl, ?_⟩
        · simp only [fill, hdrop]
        · rw [List.length_cons]; omega
        · simp [Stream.waits]
      | cons next after =>
        rw [hdrop] at hsplit
        refine ⟨first, more.take (room - 1), ⟨.bytes next after :: arrivals, ending⟩, ?_, ?_, ?_, rfl, ?_⟩
        · simp only [fill, hdrop]
        · show first :: more ++ arrivals.flatMap Arrival.blob =
            first :: more.take (room - 1) ++ (next :: after ++ arrivals.flatMap Arrival.blob)
          conv_lhs => rw [← hsplit]
          simp
        · rw [List.length_cons, List.length_take]; omega
        · simp [Stream.waits]

/-! ## One turn -/

/-- The bytes that have arrived of the frame in progress. -/
def Progress.held : Progress → Blob
  | .len f _ => f.held
  | .body f _ => ofNumber 4 f.buf.length ++ f.held
  | .done => []

/-- What the bytes still to come say the next answer is, and what is left behind it unless it is the last. -/
def next (decode : Blob → Except WireError T) (ending : Ending) (bytes : Blob) : Answer T × Option Blob :=
  match front 4 MAX_FRAME_LEN bytes with
  | .oversized len => (.error (.frameTooLarge len), none)
  | .whole body rest => (((decode body).map some).mapError .codec, some rest)
  | .short =>
    match ending with
    | .broken kind => (.error (.io kind), none)
    | .closed => (if bytes = [] then .ok none else .error .truncated, none)

/-- Where a reader is with `rest` still to come, or past its last answer. -/
def Behind (progress : Progress) (stream : Stream) : Option Blob → Prop
  | none => progress = .done
  | some rest => progress = .start ∧ stream.rest = rest

/-- The bytes still to be read, and what is still to be done with those that have been. -/
def weight (progress : Progress) (stream : Stream) : Nat :=
  match progress with
  | .len f _ => 2 * stream.rest.length + if f.filled = f.buf.length then 1 else 0
  | _ => 2 * stream.rest.length

theorem weight_bounds (progress : Progress) (stream : Stream) :
    2 * stream.rest.length ≤ weight progress stream ∧ weight progress stream ≤ 2 * stream.rest.length + 1 := by
  unfold weight
  split
  · split <;> omega
  · omega

variable {decode : Blob → Except WireError T} {progress progress' : Progress} {stream stream' : Stream}

/-- What a turn of a reader that has not stopped comes to. -/
inductive Turned (decode : Blob → Except WireError T) (progress : Progress) (stream : Stream) :
    Option (Poll (Answer T)) × Progress × Stream → Prop
  | again {progress' : Progress} {stream' : Stream} (live : progress' ≠ .done)
      (bytes : progress'.held ++ stream'.rest = progress.held ++ stream.rest) (ending : stream'.ending = stream.ending)
      (waits : stream'.waits = stream.waits) (lighter : weight progress' stream' < weight progress stream) :
      Turned decode progress stream (none, progress', stream')
  | pending {stream' : Stream} (rest : stream'.rest = stream.rest) (ending : stream'.ending = stream.ending)
      (waits : stream'.waits + 1 = stream.waits) : Turned decode progress stream (some .pending, progress, stream')
  | ready {progress' : Progress} {stream' : Stream} (ending : stream'.ending = stream.ending)
      (waits : stream'.waits = stream.waits)
      (behind : Behind progress' stream' (next decode stream.ending (progress.held ++ stream.rest)).2) :
      Turned decode progress stream
        (some (.ready (next decode stream.ending (progress.held ++ stream.rest)).1), progress', stream')

theorem Turned.last {answer : Answer T} (h : next decode stream.ending (progress.held ++ stream.rest) = (answer, none)) :
    Turned decode progress stream (some (.ready answer), .done, stream) := by
  have hready := @Turned.ready T decode progress stream .done stream rfl rfl (by rw [h]; rfl)
  rwa [h] at hready

theorem Turned.frame {answer : Answer T}
    (h : next decode stream.ending (progress.held ++ stream.rest) = (answer, some stream.rest)) :
    Turned decode progress stream (some (.ready answer), .start, stream) := by
  have hready := @Turned.ready T decode progress stream .start stream rfl rfl (by rw [h]; exact ⟨rfl, rfl⟩)
  rwa [h] at hready

/-- A read into a buffer that is not full. -/
theorem turned_readInto {room : Nat} {midFrame : Bool} (hlive : ∀ bytes, progress.land bytes ≠ .done) (hroom : 0 < room)
    (hland : ∀ bytes : Blob, bytes.length ≤ room → (progress.land bytes).held = progress.held ++ bytes)
    (hshort : front 4 MAX_FRAME_LEN progress.held = .short) (hmid : midFrame = true ↔ progress.held ≠ []) (stream : Stream) :
    Turned decode progress stream (readInto progress room midFrame stream) := by
  rcases fill_cases hroom stream with ⟨stream', hfill, hrest, hending, hwaits⟩ | ⟨hrest, hending, hfill⟩ |
    ⟨kind, hrest, hending, hfill⟩ | ⟨first, more, stream', hfill, hrest, hlen, hending, hwaits⟩
  · simp only [readInto, hfill]
    exact .pending hrest hending hwaits
  · have hnext : next decode stream.ending (progress.held ++ stream.rest) =
        (if midFrame then .error .truncated else .ok none, none) := by
      rw [hrest, hending, List.append_nil]
      simp only [next, hshort]
      by_cases hheld : progress.held = []
      · rw [if_pos hheld, if_neg (mt hmid.1 (not_not_intro hheld))]
      · rw [if_neg hheld, if_pos (hmid.2 hheld)]
    simp only [readInto, hfill]
    exact .last hnext
  · have hnext : next decode stream.ending (progress.held ++ stream.rest) = (.error (.io kind), none) := by
      rw [hrest, hending, List.append_nil]
      simp only [next, hshort]
    simp only [readInto, hfill]
    exact .last hnext
  · simp only [readInto, hfill]
    refine .again (hlive _) ?_ hending hwaits ?_
    · rw [hland _ hlen, hrest, List.append_assoc]
    · have hle := (weight_bounds (progress.land (first :: more)) stream').2
      have hge := (weight_bounds progress stream).1
      have hlength := congrArg List.length hrest
      simp only [List.length_append, List.length_cons] at hlength
      omega

variable (decode) in
theorem turned (hlive : progress ≠ .done) (stream : Stream) : Turned decode progress stream (turn decode progress stream) := by
  cases progress with
  | done => exact absurd rfl hlive
  | len f four =>
    rw [turn]
    by_cases hfull : f.filled = f.buf.length
    · have hheld : Progress.held (.len f four) = f.buf := Filling.held_full hfull
      rw [if_pos hfull]
      split
      · refine .again (fun h => by cases h) ?_ rfl rfl ?_
        · show ofNumber 4 (Filling.new (toNumber f.buf)).buf.length ++ [] ++ stream.rest = _
          rw [hheld, List.append_nil, Filling.new, List.length_replicate, ← four, ofNumber_toNumber]
        · simp [weight, hfull]
      · rename_i hover
        have hnext : next decode stream.ending (Progress.held (.len f four) ++ stream.rest) =
            (.error (.frameTooLarge (toNumber f.buf)), none) := by
          simp only [next, hheld, front_of_over four (Nat.lt_of_not_le hover)]
        exact .last hnext
    · have hlt : f.filled < 4 := by have := f.le; omega
      have hlen : f.held.length = f.filled := by rw [Filling.held, List.length_take, Nat.min_eq_left f.le]
      rw [if_neg hfull]
      refine turned_readInto (fun _ h => by cases h) ?_ (fun _ hb => ?_) ?_ ?_ stream
      · rw [Filling.room]; omega
      · exact Filling.held_land f hb
      · exact front_of_lt (by show f.held.length < 4; omega)
      · show _ ↔ f.held ≠ []
        rw [decide_eq_true_iff, ← List.length_pos_iff, hlen]
  | body f fits =>
    rw [turn]
    by_cases hfull : f.filled = f.buf.length
    · have hheld : Progress.held (.body f fits) = frame 4 f.buf := by
        rw [Progress.held, Filling.held_full hfull, frame]
      have hnext : next decode stream.ending (Progress.held (.body f fits) ++ stream.rest) =
          (((decode f.buf).map some).mapError .codec, some stream.rest) := by
        simp only [next, hheld, front_frame fits (by decide : MAX_FRAME_LEN < 256 ^ 4)]
      rw [if_pos hfull]
      exact .frame hnext
    · have hlt : f.filled < f.buf.length := by have := f.le; omega
      rw [if_neg hfull]
      refine turned_readInto (fun _ h => by cases h) ?_ (fun _ hb => ?_) ?_ ?_ stream
      · rw [Filling.room]; omega
      · show ofNumber 4 (f.land _).buf.length ++ (f.land _).held = _
        rw [Filling.length_land, Filling.held_land f hb, ← List.append_assoc]
        rfl
      · refine @front_of_part 4 MAX_FRAME_LEN f.buf _ (f.buf.drop f.filled) ?_ ?_ fits (by decide)
        · rw [ne_eq, List.drop_eq_nil_iff]; omega
        · show ofNumber 4 f.buf.length ++ f.buf.take f.filled ++ f.buf.drop f.filled = _
          rw [List.append_assoc, List.take_append_drop, frame]
      · simp only [true_iff]
        intro h
        have hlen := congrArg List.length h
        simp [Progress.held] at hlen

theorem weight_lt_of_turn (h : turn decode progress stream = (none, progress', stream')) :
    weight progress' stream' < weight progress stream := by
  by_cases hlive : progress = .done
  · subst hlive
    cases h
  · have hturned := turned decode hlive stream
    rw [h] at hturned
    cases hturned with
    | again _ _ _ _ lighter => exact lighter

/-! ## Polls -/

/-- Polls for the next frame (`Reader::poll_read`). -/
def pollRead (decode : Blob → Except WireError T) (progress : Progress) (stream : Stream) :
    Poll (Answer T) × Progress × Stream :=
  match _h : turn decode progress stream with
  | (some answer, progress, stream) => (answer, progress, stream)
  | (none, progress', stream') => pollRead decode progress' stream'
termination_by weight progress stream
decreasing_by exact weight_lt_of_turn _h

/-- What a poll of a reader that has not stopped comes to: it waits, and no byte is lost, or it answers what
the bytes say. -/
inductive Polled (decode : Blob → Except WireError T) (progress : Progress) (stream : Stream) :
    Poll (Answer T) × Progress × Stream → Prop
  | pending {progress' : Progress} {stream' : Stream} (live : progress' ≠ .done)
      (bytes : progress'.held ++ stream'.rest = progress.held ++ stream.rest) (ending : stream'.ending = stream.ending)
      (waits : stream'.waits + 1 = stream.waits) : Polled decode progress stream (.pending, progress', stream')
  | ready {progress' : Progress} {stream' : Stream} (ending : stream'.ending = stream.ending)
      (waits : stream'.waits = stream.waits)
      (behind : Behind progress' stream' (next decode stream.ending (progress.held ++ stream.rest)).2) :
      Polled decode progress stream
        (.ready (next decode stream.ending (progress.held ++ stream.rest)).1, progress', stream')

variable (decode) in
theorem polled (hlive : progress ≠ .done) (stream : Stream) :
    Polled decode progress stream (pollRead decode progress stream) := by
  induction progress, stream using pollRead.induct decode with
  | case1 progress stream answer progress' stream' hturn =>
    have hturned := turned decode hlive stream
    rw [hturn] at hturned
    rw [pollRead]
    split
    · rename_i hturn'
      rw [hturn] at hturn'
      cases hturn'
      cases hturned with
      | pending rest ending waits => exact .pending hlive (by rw [rest]) ending waits
      | ready ending waits behind => exact .ready ending waits behind
    · rename_i hturn'
      rw [hturn] at hturn'
      cases hturn'
  | case2 progress stream progress' stream' hturn ih =>
    have hturned := turned decode hlive stream
    rw [hturn] at hturned
    rw [pollRead]
    split
    · rename_i hturn'
      rw [hturn] at hturn'
      cases hturn'
    · rename_i hturn'
      rw [hturn] at hturn'
      cases hturn'
      cases hturned with
      | again live bytes ending waits _ =>
        have hpolled := ih live
        generalize pollRead decode progress' stream' = r at hpolled
        cases hpolled with
        | pending live' bytes' ending' waits' =>
          exact .pending live' (bytes'.trans bytes) (ending'.trans ending) (waits'.trans waits)
        | ready ending' waits' behind =>
          rw [bytes, ending] at behind ⊢
          exact .ready (ending'.trans ending) (waits'.trans waits) behind

theorem pollRead_done (stream : Stream) : pollRead decode .done stream = (.ready (.ok none), .done, stream) := by
  rw [pollRead]
  rfl

/-! ## A whole run -/

/-- The first `n` polls. -/
def polls (decode : Blob → Except WireError T) : Nat → Progress → Stream → List (Poll (Answer T))
  | 0, _, _ => []
  | n + 1, progress, stream =>
    let polled := pollRead decode progress stream
    polled.1 :: polls decode n polled.2.1 polled.2.2

def Poll.answer? {α : Type} : Poll α → Option α
  | .ready a => some a
  | .pending => none

/-- The polls that answered. -/
def readies {α : Type} (polls : List (Poll α)) : List α := polls.filterMap Poll.answer?

theorem length_lt_of_next {ending : Ending} {bytes rest : Blob} {answer : Answer T}
    (h : next decode ending bytes = (answer, some rest)) : rest.length < bytes.length := by
  unfold next at h
  split at h
  · cases h
  · rename_i hfront
    cases h
    exact length_lt_of_front (by decide) hfront
  · split at h <;> cases h

/-- What a reader answers, up to its last answer. -/
def answers (decode : Blob → Except WireError T) (ending : Ending) (bytes : Blob) : List (Answer T) :=
  match _h : next decode ending bytes with
  | (answer, none) => [answer]
  | (answer, some rest) => answer :: answers decode ending rest
termination_by bytes.length
decreasing_by exact length_lt_of_next _h

/-- What the frames of a stream are, up to the first error or the end of the stream. -/
def frames (decode : Blob → Except WireError T) (ending : Ending) (bytes : Blob) : List (Answer T) :=
  match _h : next decode ending bytes with
  | (.ok (some message), some rest) => .ok (some message) :: frames decode ending rest
  | (answer, _) => [answer]
termination_by bytes.length
decreasing_by exact length_lt_of_next _h

/-- The bytes begin with frames that decode and one that does not, which `rest` follows. -/
inductive Undecodable (decode : Blob → Except WireError T) : Blob → Blob → Prop
  | here {bytes body rest : Blob} {e : WireError} (whole : front 4 MAX_FRAME_LEN bytes = .whole body rest)
      (bad : decode body = .error e) : Undecodable decode bytes rest
  | later {bytes body rest rest' : Blob} {message : T} (whole : front 4 MAX_FRAME_LEN bytes = .whole body rest)
      (good : decode body = .ok message) (behind : Undecodable decode rest rest') : Undecodable decode bytes rest'

section Answers

variable {ending : Ending} {bytes rest : Blob} {answer : Answer T}

theorem answers_none (h : next decode ending bytes = (answer, none)) : answers decode ending bytes = [answer] := by
  rw [answers]
  split <;> rename_i heq <;> rw [h] at heq <;> cases heq
  rfl

theorem answers_some (h : next decode ending bytes = (answer, some rest)) :
    answers decode ending bytes = answer :: answers decode ending rest := by
  rw [answers]
  split <;> rename_i heq <;> rw [h] at heq <;> cases heq
  rfl

theorem frames_message {message : T} (h : next decode ending bytes = (.ok (some message), some rest)) :
    frames decode ending bytes = .ok (some message) :: frames decode ending rest := by
  rw [frames]
  split
  · rename_i heq
    rw [h] at heq
    cases heq
    rfl
  · rename_i hno heq
    rw [h] at heq
    cases heq
    exact absurd rfl (hno _ _ rfl)

theorem frames_last {rest : Option Blob} (h : next decode ending bytes = (answer, rest))
    (hlast : ∀ message, answer ≠ .ok (some message)) : frames decode ending bytes = [answer] := by
  rw [frames]
  split
  · rename_i heq
    rw [h] at heq
    cases heq
    exact absurd rfl (hlast _)
  · rename_i heq
    rw [h] at heq
    cases heq
    rfl

/-- Nothing comes only where the peer closed between frames. -/
theorem next_none_iff : (next decode ending bytes).1 = .ok none ↔ bytes = [] ∧ ending = .closed := by
  unfold next
  cases hfront : front 4 MAX_FRAME_LEN bytes with
  | oversized len =>
    constructor
    · intro h
      cases h
    · rintro ⟨rfl, -⟩
      cases hfront
  | whole body rest =>
    constructor
    · intro h
      cases hbody : decode body with
      | ok message => simp only [hbody] at h; cases h
      | error e => simp only [hbody] at h; cases h
    · rintro ⟨rfl, -⟩
      cases hfront
  | short =>
    cases ending with
    | broken kind =>
      constructor
      · intro h
        cases h
      · rintro ⟨-, h⟩
        cases h
    | closed =>
      by_cases hbytes : bytes = []
      · simp [hbytes]
      · simp [hbytes]

theorem head_answers (decode : Blob → Except WireError T) (ending : Ending) (bytes : Blob) : ∃ later, answers decode ending bytes = (next decode ending bytes).1 :: later := by
  cases h : next decode ending bytes with
  | mk answer rest =>
    cases rest with
    | none => exact ⟨[], answers_none h⟩
    | some rest => exact ⟨_, answers_some h⟩

theorem next_whole (decode : Blob → Except WireError T) (ending : Ending) {body : Blob} (hfront : front 4 MAX_FRAME_LEN bytes = .whole body rest) :
    next decode ending bytes = (((decode body).map some).mapError .codec, some rest) := by
  simp only [next, hfront]

theorem not_undecodable_of_next (h : next decode ending bytes = (answer, none)) : ¬ Undecodable decode bytes rest := by
  intro hbad
  cases hbad with
  | here whole bad => rw [next_whole _ _ whole] at h; cases h
  | later whole good behind => rw [next_whole _ _ whole] at h; cases h

/-- What a reader answers is what the frames are, unless it reads on behind a body that does not decode. -/
theorem frames_eq_answers_iff (decode : Blob → Except WireError T) (ending : Ending) (bytes : Blob) :
    (∀ n, (answers decode ending bytes).takeD n (.ok none) = (frames decode ending bytes).takeD n (.ok none)) ↔
      ∀ rest, Undecodable decode bytes rest → rest = [] ∧ ending = .closed := by
  induction hlen : bytes.length using Nat.strong_induction_on generalizing bytes with
  | _ len ih =>
    cases hfront : front 4 MAX_FRAME_LEN bytes with
    | whole body rest =>
      have hnext := next_whole decode ending hfront
      cases hbody : decode body with
      | ok message =>
        rw [hbody] at hnext
        rw [answers_some hnext, frames_message hnext]
        have ih := ih rest.length (hlen ▸ length_lt_of_front (by decide) hfront) rest rfl
        constructor
        · intro h rest' hbad
          refine ih.1 (fun n => ?_) rest' ?_
          · have hn := h (n + 1)
            rw [List.takeD_succ, List.takeD_succ] at hn
            exact (List.cons.inj hn).2
          · cases hbad with
            | here whole bad => rw [hfront] at whole; cases whole; rw [hbody] at bad; cases bad
            | later whole good behind => rw [hfront] at whole; cases whole; exact behind
        · intro h n
          cases n with
          | zero => rfl
          | succ n =>
            rw [List.takeD_succ, List.takeD_succ]
            exact congrArg _ (ih.2 (fun rest' hbad => h rest' (.later hfront hbody hbad)) n)
      | error e =>
        rw [hbody] at hnext
        rw [answers_some hnext, frames_last hnext fun message h => by cases h]
        have hiff : (∀ rest', Undecodable decode bytes rest' → rest' = [] ∧ ending = .closed) ↔ rest = [] ∧ ending = .closed := by
          refine ⟨fun h => h rest (.here hfront hbody), fun h rest' hbad => ?_⟩
          cases hbad with
          | here whole bad => rw [hfront] at whole; cases whole; exact h
          | later whole good behind => rw [hfront] at whole; cases whole; rw [hbody] at good; cases good
        rw [hiff]
        constructor
        · -- the answer behind it would have to be none
          intro h
          obtain ⟨later, hlater⟩ := head_answers decode ending rest
          have htwo := h 2
          rw [hlater] at htwo
          simp only [List.takeD_succ, List.tail_cons, List.head?_cons, Option.getD_some, List.head?_nil, Option.getD_none,
            List.takeD_zero, List.cons.injEq, and_true, true_and] at htwo
          exact next_none_iff.1 htwo
        · rintro ⟨rfl, rfl⟩ n
          have hend : answers decode .closed [] = [.ok none] := answers_none rfl
          rw [hend]
          cases n with
          | zero => rfl
          | succ n => cases n <;> simp
    | short =>
      obtain ⟨answer, hnext⟩ : ∃ answer, next decode ending bytes = (answer, none) := by
        simp only [next, hfront]
        cases ending <;> exact ⟨_, rfl⟩
      have hlast : ∀ message, answer ≠ .ok (some message) := by
        rintro message rfl
        simp only [next, hfront] at hnext
        cases ending with
        | broken kind => cases hnext
        | closed =>
          simp only [Prod.mk.injEq, and_true] at hnext
          split at hnext <;> cases hnext
      rw [answers_none hnext, frames_last hnext hlast]
      exact ⟨fun _ rest hbad => absurd hbad (not_undecodable_of_next hnext), fun _ _ => rfl⟩
    | oversized len =>
      have hnext : next decode ending bytes = (.error (.frameTooLarge len), none) := by simp only [next, hfront]
      rw [answers_none hnext, frames_last hnext fun message h => by cases h]
      exact ⟨fun _ rest hbad => absurd hbad (not_undecodable_of_next hnext), fun _ _ => rfl⟩

end Answers

/-! ## However the stream is cut -/

theorem polls_done (n : Nat) (stream : Stream) : polls decode n .done stream = List.replicate n (.ready (.ok none)) := by
  induction n with
  | zero => rfl
  | succ n ih =>
    rw [polls, pollRead_done, List.replicate_succ]
    exact congrArg _ ih

theorem length_readies_le (decode : Blob → Except WireError T) (n : Nat) (progress : Progress) (stream : Stream) :
    (readies (polls decode n progress stream)).length ≤ n := by
  have hlen : ∀ (n : Nat) (progress : Progress) (stream : Stream), (polls decode n progress stream).length = n := by
    intro n
    induction n with
    | zero => exact fun _ _ => rfl
    | succ n ih => exact fun _ _ => congrArg (· + 1) (ih _ _)
  exact (List.length_filterMap_le _ _).trans_eq (hlen n progress stream)

/-- The polls answer what the bytes say, in order, and wait at most as often as the stream makes them. -/
theorem readies_polls (decode : Blob → Except WireError T) : ∀ (n : Nat) {progress : Progress} (stream : Stream), progress ≠ .done →
    n ≤ (readies (polls decode n progress stream)).length + stream.waits ∧
      readies (polls decode n progress stream) =
        (answers decode stream.ending (progress.held ++ stream.rest)).takeD
          (readies (polls decode n progress stream)).length (.ok none)
  | 0, progress, stream, _ => ⟨Nat.zero_le _, rfl⟩
  | n + 1, progress, stream, hlive => by
    have hpolled := polled decode hlive stream
    rw [polls]
    generalize pollRead decode progress stream = r at hpolled
    cases hpolled with
    | @pending progress' stream' live bytes ending waits =>
      obtain ⟨hle, heq⟩ := readies_polls decode n stream' live
      rw [bytes, ending] at heq
      show n + 1 ≤ (readies (polls decode n progress' stream')).length + _ ∧ readies (polls decode n progress' stream') = _
      exact ⟨by omega, heq⟩
    | @ready progress' stream' ending waits behind =>
      show n + 1 ≤ (_ :: readies (polls decode n progress' stream')).length + _ ∧
        _ :: readies (polls decode n progress' stream') =
          List.takeD (_ :: readies (polls decode n progress' stream')).length _ _
      rw [List.length_cons, List.takeD_succ]
      cases hnext : next decode stream.ending (progress.held ++ stream.rest) with
      | mk answer rest =>
        rw [hnext] at behind
        cases rest with
        | none =>
          obtain rfl : progress' = .done := behind
          have hall : readies (polls decode n .done stream') = List.replicate n (.ok none) := by
            rw [polls_done, readies, List.filterMap_replicate_of_isSome rfl]
            rfl
          rw [answers_none hnext, hall, List.length_replicate, List.tail_cons, List.takeD_nil]
          exact ⟨by omega, rfl⟩
        | some rest =>
          obtain ⟨rfl, hrest⟩ := behind
          obtain ⟨hle, heq⟩ := @readies_polls decode n .start stream' fun h => by cases h
          have hbytes : Progress.start.held ++ stream'.rest = rest := by rw [hrest]; rfl
          rw [hbytes, ending] at heq
          rw [answers_some hnext, List.tail_cons]
          exact ⟨by omega, congrArg _ heq⟩

/-- However a stream is cut into reads, a reader answers what its frames are and nothing from then on, exactly
when the bytes behind a body that does not decode, if there is one, are none and the peer closed there. -/
theorem polls_frames_iff (decode : Blob → Except WireError T) (ending : Ending) (bytes : Blob) :
    (∀ stream : Stream, stream.rest = bytes → stream.ending = ending → ∀ n,
      n ≤ (readies (polls decode n .start stream)).length + stream.waits ∧
        readies (polls decode n .start stream) =
          (frames decode ending bytes).takeD (readies (polls decode n .start stream)).length (.ok none)) ↔
      ∀ rest, Undecodable decode bytes rest → rest = [] ∧ ending = .closed := by
  rw [← frames_eq_answers_iff]
  constructor
  · -- a stream that never waits answers every poll
    intro h n
    obtain ⟨stream, hrest, hending, hwaits⟩ : ∃ stream : Stream, stream.rest = bytes ∧ stream.ending = ending ∧ stream.waits = 0 := by
      cases bytes with
      | nil => exact ⟨⟨[], ending⟩, rfl, rfl, rfl⟩
      | cons first more => exact ⟨⟨[.bytes first more], ending⟩, by simp [Stream.rest, Arrival.blob], rfl, by simp [Stream.waits]⟩
    obtain ⟨hle, hframes⟩ := h stream hrest hending n
    obtain ⟨-, hanswers⟩ := @readies_polls T decode n .start stream fun h => by cases h
    have hbytes : Progress.start.held ++ stream.rest = bytes := by rw [hrest]; rfl
    rw [hbytes, hending] at hanswers
    have hlen : (readies (polls decode n .start stream)).length = n := by
      have := length_readies_le decode n .start stream
      omega
    rw [hlen] at hanswers hframes
    exact hanswers.symm.trans hframes
  · intro h stream hrest hending n
    obtain ⟨hle, hanswers⟩ := @readies_polls T decode n .start stream fun h => by cases h
    have hbytes : Progress.start.held ++ stream.rest = bytes := by rw [hrest]; rfl
    rw [hbytes, hending] at hanswers
    exact ⟨hle, hanswers.trans (h _)⟩

end Reader

end IrohLotus.LotusdRpc

/-! ## The samples -/

namespace IrohLotus.LotusdRpc

open Bytes Framing IrohLotus.Wire

/-- A codec that knows one body. -/
def knowsOne (body : Blob) : Except WireError Unit := if body = [1] then .ok () else .error .decode

/-- A frame whose body does not decode, and one whose body does. -/
def spoiled : Stream := ⟨[.bytes 0 [0, 0, 1, 0xff, 0, 0, 0, 1, 1]], .closed⟩

/-- Behind the error the reader answers the next frame, where it should answer nothing. -/
theorem polls_spoiled : readies (polls knowsOne 2 .start spoiled) = [.error (.codec .decode), .ok (some ())] ∧
    readies (polls knowsOne 2 .start spoiled) ≠ (frames knowsOne .closed spoiled.rest).takeD 2 (.ok none) := by
  have hfirst : next knowsOne .closed spoiled.rest = (.error (.codec .decode), some [0, 0, 0, 1, 1]) := by decide +kernel
  have hsecond : next knowsOne .closed [0, 0, 0, 1, 1] = (.ok (some ()), some []) := by decide +kernel
  have hread : readies (polls knowsOne 2 .start spoiled) = [.error (.codec .decode), .ok (some ())] := by
    obtain ⟨hle, hread⟩ := @readies_polls Unit knowsOne 2 .start spoiled fun h => by cases h
    have hlen : (readies (polls knowsOne 2 .start spoiled)).length = 2 := by
      have hmost := length_readies_le knowsOne 2 .start spoiled
      have hwaits : spoiled.waits = 0 := by decide
      omega
    have hanswers : answers knowsOne spoiled.ending (Progress.start.held ++ spoiled.rest) =
        .error (.codec .decode) :: .ok (some ()) :: answers knowsOne .closed [] := by
      show answers knowsOne .closed spoiled.rest = _
      rw [answers_some hfirst, answers_some hsecond]
    rw [hlen, hanswers] at hread
    exact hread
  refine ⟨hread, ?_⟩
  rw [hread, frames_last hfirst fun message h => by cases h]
  decide

end IrohLotus.LotusdRpc
