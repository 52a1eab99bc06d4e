/-
Frames on the peer wire (`sync::frame`): a message's canonical CBOR behind its length, and the codec
that puts them on a byte stream and takes them off it. However the stream is cut into chunks, what is
taken off is what was put on.
-/
import IrohLotus.Lib.Framing
import IrohLotus.Sync.Session
import IrohLotus.Wire.RoundTrip

namespace IrohLotus.Sync

open Bytes Serde Framing IrohLotus.Wire

/-! ## Message bodies -/

namespace Message

def VARIANTS : List Name :=
  [⟨1, "Hello"⟩, ⟨2, "FindSplit"⟩, ⟨3, "Split"⟩, ⟨4, "NoSplit"⟩, ⟨5, "Envelopes"⟩, ⟨6, "CaughtUp"⟩, ⟨7, "Announce"⟩]

/-- A one-pair map under the variant's tag; a struct is the map of its fields. -/
def serialize : Message → Tree
  | .hello version head => serializeVariant false ⟨1, "Hello"⟩
    (record false [(⟨1, "version"⟩, .int version.toNat), (⟨2, "head"⟩, head.serialize false)])
  | .findSplit locator => serializeVariant false ⟨2, "FindSplit"⟩
    (record false [(⟨1, "locator"⟩, .seq (locator.map fun digest => digest.serialize false))])
  | .split at' => serializeVariant false ⟨3, "Split"⟩ (record false [(⟨1, "at"⟩, at'.serialize false)])
  | .noSplit => serializeVariant false ⟨4, "NoSplit"⟩ (record false [])
  | .envelopes batch => serializeVariant false ⟨5, "Envelopes"⟩
    (record false [(⟨1, "batch"⟩, .seq (batch.map fun envelope => envelope.serialize false))])
  | .caughtUp => serializeVariant false ⟨6, "CaughtUp"⟩ (record false [])
  | .announce head => serializeVariant false ⟨7, "Announce"⟩ (record false [(⟨1, "head"⟩, head.serialize false)])

/-- A struct without fields asks for none, so any map will do. -/
def readUnit : Tree → Option Unit
  | .map _ => some ()
  | _ => none

def deserialize (t : Tree) : Option Message := do
  match ← deserializeVariant false VARIANTS t with
  | (1, value) =>
    let version ← (value.field false ⟨1, "version"⟩).bind readU32
    let head ← (value.field false ⟨2, "head"⟩).bind (EnvelopeDigest.deserialize false)
    pure (.hello version head)
  | (2, value) =>
    let locator ← (value.field false ⟨1, "locator"⟩).bind (Tree.readSeq (EnvelopeDigest.deserialize false))
    pure (.findSplit locator)
  | (3, value) =>
    let at' ← (value.field false ⟨1, "at"⟩).bind (EnvelopeDigest.deserialize false)
    pure (.split at')
  | (4, value) =>
    let _ ← readUnit value
    pure .noSplit
  | (5, value) =>
    let batch ← (value.field false ⟨1, "batch"⟩).bind (Tree.readSeq (Envelope.deserialize false))
    pure (.envelopes batch)
  | (6, value) =>
    let _ ← readUnit value
    pure .caughtUp
  | (7, value) =>
    let head ← (value.field false ⟨1, "head"⟩).bind (EnvelopeDigest.deserialize false)
    pure (.announce head)
  | _ => none

section

variable [Cbor2]

def encode (message : Message) : Except WireError Blob := Cbor2.toCanonicalVec message.serialize

def decode (bytes : Blob) : Except WireError Message := do
  let t ← Cbor2.fromSlice bytes
  (deserialize t).elim (.error .decode) .ok

end

end Message

/-! ## Bodies read back -/

namespace Message

/-- The maps in the envelopes a message carries are in the order a map keeps its keys. -/
def Ordered : Message → Prop
  | .envelopes batch => ∀ envelope ∈ batch, envelope.payload.Ordered
  | _ => True

theorem reads_unit : Reads (record false []) readUnit () := by
  intro t ht
  cases ht
  rfl

/-- A message reads back as it comes off the stream. -/
theorem reads_message {message : Message} (h : message.Ordered) : Reads message.serialize deserialize message.received := by
  intro t ht
  unfold deserialize
  cases message with
  | hello version head =>
    obtain ⟨value, hvalue, hr⟩ := deserializeVariant_of_reordered VARIANTS (by decide) (by decide) (by decide) ht
    have hversion := hr.readField ⟨1, "version"⟩ rfl rfl (reads_u32 version)
    have hhead := hr.readField ⟨2, "head"⟩ rfl rfl (reads_envelopeDigest head)
    simp only [hvalue, hversion, hhead, Option.bind_eq_bind, Option.bind_some]
    rfl
  | findSplit locator =>
    obtain ⟨value, hvalue, hr⟩ := deserializeVariant_of_reordered VARIANTS (by decide) (by decide) (by decide) ht
    have hlocator := hr.readField ⟨1, "locator"⟩ rfl rfl (reads_seq (f := id) fun digest _ => reads_envelopeDigest digest)
    simp only [hvalue, hlocator, Option.bind_eq_bind, Option.bind_some, List.map_id]
    rfl
  | split at' =>
    obtain ⟨value, hvalue, hr⟩ := deserializeVariant_of_reordered VARIANTS (by decide) (by decide) (by decide) ht
    have hat := hr.readField ⟨1, "at"⟩ rfl rfl (reads_envelopeDigest at')
    simp only [hvalue, hat, Option.bind_eq_bind, Option.bind_some]
    rfl
  | noSplit =>
    obtain ⟨value, hvalue, hr⟩ := deserializeVariant_of_reordered VARIANTS (by decide) (by decide) (by decide) ht
    simp only [hvalue, reads_unit _ hr, Option.bind_eq_bind, Option.bind_some]
    rfl
  | envelopes batch =>
    obtain ⟨value, hvalue, hr⟩ := deserializeVariant_of_reordered VARIANTS (by decide) (by decide) (by decide) ht
    have hbatch := hr.readField ⟨1, "batch"⟩ rfl rfl (reads_seq fun envelope he => reads_envelope (h envelope he))
    simp only [hvalue, hbatch, Option.bind_eq_bind, Option.bind_some]
    rfl
  | caughtUp =>
    obtain ⟨value, hvalue, hr⟩ := deserializeVariant_of_reordered VARIANTS (by decide) (by decide) (by decide) ht
    simp only [hvalue, reads_unit _ hr, Option.bind_eq_bind, Option.bind_some]
    rfl
  | announce head =>
    obtain ⟨value, hvalue, hr⟩ := deserializeVariant_of_reordered VARIANTS (by decide) (by decide) (by decide) ht
    have hhead := hr.readField ⟨1, "head"⟩ rfl rfl (reads_envelopeDigest head)
    simp only [hvalue, hhead, Option.bind_eq_bind, Option.bind_some]
    rfl

/-- Whatever a message encodes to decodes to the message, as it comes off the stream. -/
theorem decode_of_encode [Cbor2] {message : Message} (h : message.Ordered) {body : Blob} (hbody : message.encode = .ok body) :
    Message.decode body = .ok message.received := by
  obtain ⟨bytes, t, hwrite, hread, ht⟩ := Cbor2.faithful message.serialize
  obtain rfl : bytes = body := Except.ok.inj (hwrite.symm.trans hbody)
  unfold Message.decode
  rw [hread]
  show (deserialize t).elim (Except.error WireError.decode) Except.ok = _
  rw [reads_message h t ht]
  rfl

end Message

/-! ## The codec -/

namespace Codec

/-- What moving frames on and off the wire can fail with. -/
inductive Error where
  | wire (e : WireError)
  | frameTooLarge (len : Nat)
deriving DecidableEq

variable [Cbor2]

/-- Takes a frame off the front of the buffer, once all of it has arrived. -/
def decode (src : Blob) : Except Error (Option Message) × Blob :=
  if src.length < 4 then (.ok none, src)
  else
    let len := toNumber (src.take 4)
    if len > MAX_FRAME_LEN then (.error (.frameTooLarge len), src)
    else
      let frame := 4 + len
      if src.length < frame then (.ok none, src)
      else
        let src := src.drop 4
        let body := src.take len
        (((Message.decode body).map some).mapError .wire, src.drop len)

/-- Puts a frame at the end of the buffer. -/
def encode (message : Message) (dst : Blob) : Except Error Unit × Blob :=
  match message.encode with
  | .error e => (.error (.wire e), dst)
  | .ok body =>
    if body.length ≤ MAX_FRAME_LEN then (.ok (), dst ++ ofNumber 4 body.length ++ body)
    else (.error (.frameTooLarge body.length), dst)

theorem decode_eq (src : Blob) : decode src = match front 4 MAX_FRAME_LEN src with
    | .short => (.ok none, src)
    | .oversized len => (.error (.frameTooLarge len), src)
    | .whole body rest => (((Message.decode body).map some).mapError .wire, rest) := by
  unfold decode front
  dsimp only
  split
  · rfl
  split
  · rfl
  split
  · rfl
  · rw [List.drop_drop]

/-- Only a frame taken off makes the buffer shorter. -/
theorem length_lt_of_decode {src rest : Blob} {message : Message} (h : decode src = (.ok (some message), rest)) :
    rest.length < src.length := by
  rw [decode_eq] at h
  cases hfront : front 4 MAX_FRAME_LEN src with
  | short => rw [hfront] at h; cases h
  | oversized len => rw [hfront] at h; cases h
  | whole body rest' =>
    rw [hfront] at h
    obtain ⟨-, rfl⟩ := Prod.mk.inj h
    exact length_lt_of_front (by decide) hfront

/-- Decodes until the codec answers that it waits for more: the messages, the error that stopped it, and
what is left in the buffer. -/
def drain (src : Blob) : List Message × Option Error × Blob :=
  match _h : decode src with
  | (.ok (some message), rest) =>
    let drained := drain rest
    (message :: drained.1, drained.2)
  | (.ok none, rest) => ([], none, rest)
  | (.error e, rest) => ([], some e, rest)
termination_by src.length
decreasing_by exact length_lt_of_decode _h

/-- Chunks of a stream put into the buffer, which is drained after each. -/
def feed (buffer : Blob) : List Blob → List Message × Option Error × Blob
  | [] => ([], none, buffer)
  | chunk :: chunks =>
    match drain (buffer ++ chunk) with
    | (messages, none, buffer) =>
      let fed := feed buffer chunks
      (messages ++ fed.1, fed.2)
    | (messages, some e, buffer) => (messages, some e, buffer)

/-- The messages put on one buffer, one after another. -/
def encodeAll : List Message → Blob → Except Error Unit × Blob
  | [], dst => (.ok (), dst)
  | message :: messages, dst =>
    match encode message dst with
    | (.ok (), dst) => encodeAll messages dst
    | (.error e, dst) => (.error e, dst)

theorem drain_some {src rest : Blob} {message : Message} (h : decode src = (.ok (some message), rest)) :
    drain src = (message :: (drain rest).1, (drain rest).2) := by
  rw [drain]
  split
  · rename_i heq
    rw [h] at heq
    cases heq
    rfl
  · rename_i heq
    rw [h] at heq
    cases heq
  · rename_i heq
    rw [h] at heq
    cases heq

theorem drain_none {src rest : Blob} (h : decode src = (.ok none, rest)) : drain src = ([], none, rest) := by
  rw [drain]
  split
  · rename_i heq
    rw [h] at heq
    cases heq
  · rename_i heq
    rw [h] at heq
    cases heq
    rfl
  · rename_i heq
    rw [h] at heq
    cases heq

/-! ## What a stream carries -/

/-- The stream is the frames of the messages, one after another, and each body reads back. -/
inductive Carries : List Message → Blob → Prop
  | nil : Carries [] []
  | cons {message : Message} {messages : List Message} {body rest : Blob} (fits : body.length ≤ MAX_FRAME_LEN)
      (readsBack : Message.decode body = .ok message.received) (later : Carries messages rest) :
      Carries (message :: messages) (frame 4 body ++ rest)

/-- A message is put on the buffer as one whole frame, or not at all. -/
theorem encode_cases (message : Message) (dst : Blob) :
    (∃ body, message.encode = .ok body ∧ body.length ≤ MAX_FRAME_LEN ∧
      encode message dst = (.ok (), dst ++ frame 4 body)) ∨ ∃ e, encode message dst = (.error e, dst) := by
  unfold encode
  cases hbody : message.encode with
  | error e => exact .inr ⟨_, rfl⟩
  | ok body =>
    by_cases hfits : body.length ≤ MAX_FRAME_LEN
    · refine .inl ⟨body, rfl, hfits, ?_⟩
      simp only [if_pos hfits, frame, List.append_assoc]
    · refine .inr ⟨.frameTooLarge body.length, ?_⟩
      simp only [if_neg hfits]

theorem encode_fits {message : Message} {body : Blob} (hbody : message.encode = .ok body)
    (hfits : body.length ≤ MAX_FRAME_LEN) (dst : Blob) : encode message dst = (.ok (), dst ++ frame 4 body) := by
  simp only [encode, hbody, if_pos hfits, frame, List.append_assoc]

theorem carries_encodeAll : ∀ {messages : List Message} {dst wire : Blob}, encodeAll messages dst = (.ok (), wire) →
    (∀ message ∈ messages, ∀ body, message.encode = .ok body → Message.decode body = .ok message.received) →
    ∃ stream, wire = dst ++ stream ∧ Carries messages stream
  | [], dst, wire, h, _ => by
    cases h
    exact ⟨[], (List.append_nil _).symm, .nil⟩
  | message :: messages, dst, wire, h, hundoes => by
    obtain ⟨hreads, hundoes⟩ := List.forall_mem_cons.1 hundoes
    rcases encode_cases message dst with ⟨body, hbody, hfits, hrun⟩ | ⟨e, hrun⟩
    · simp only [encodeAll, hrun] at h
      obtain ⟨stream, rfl, hstream⟩ := carries_encodeAll h hundoes
      exact ⟨frame 4 body ++ stream, List.append_assoc _ _ _, .cons hfits (hreads body hbody) hstream⟩
    · simp only [encodeAll, hrun] at h
      cases h

theorem encodeAll_fits : ∀ {messages : List Message} (dst : Blob),
    (∀ message ∈ messages, ∃ body, message.encode = .ok body ∧ body.length ≤ MAX_FRAME_LEN) →
    ∃ wire, encodeAll messages dst = (.ok (), wire)
  | [], dst, _ => ⟨dst, rfl⟩
  | message :: messages, dst, h => by
    obtain ⟨⟨body, hbody, hfits⟩, h⟩ := List.forall_mem_cons.1 h
    simp only [encodeAll, encode_fits hbody hfits]
    exact encodeAll_fits _ h

/-- However much of the stream has arrived, draining takes off the messages that are whole and waits for
the rest; nothing is waited for once all of it has arrived. -/
theorem drain_of_carries {messages : List Message} {stream : Blob} (h : Carries messages stream) :
    ∀ {src later : Blob}, src ++ later = stream →
      ∃ arrived waiting left, messages = arrived ++ waiting ∧ drain src = (arrived.map Message.received, none, left) ∧
        Carries waiting (left ++ later) ∧ (later = [] → waiting = []) := by
  induction h with
  | nil =>
    intro src later hsrc
    obtain ⟨rfl, rfl⟩ := List.append_eq_nil_iff.1 hsrc
    have hdecode : decode [] = (.ok none, []) := rfl
    exact ⟨[], [], [], rfl, drain_none hdecode, .nil, fun _ => rfl⟩
  | @cons message messages body rest hfits hreads hlater ih =>
    intro src later hsrc
    by_cases hwhole : ∃ more, src = frame 4 body ++ more
    · obtain ⟨more, rfl⟩ := hwhole
      rw [List.append_assoc] at hsrc
      obtain ⟨arrived, waiting, left, rfl, hdrain, hcarries, hnone⟩ := ih (List.append_cancel_left hsrc)
      have hdecode : decode (frame 4 body ++ more) = (.ok (some message.received), more) := by
        rw [decode_eq, front_frame hfits (by decide)]
        simp only [hreads]
        rfl
      refine ⟨message :: arrived, waiting, left, rfl, ?_, hcarries, hnone⟩
      rw [drain_some hdecode, hdrain]
      rfl
    · -- only part of the first frame is there
      rcases List.append_eq_append_iff.1 hsrc with ⟨missing, hframe, hmissing⟩ | ⟨more, hmore, -⟩
      · have hne : missing ≠ [] := by
          rintro rfl
          rw [List.append_nil] at hframe
          exact hwhole ⟨[], by rw [List.append_nil, hframe]⟩
        have hdecode : decode src = (.ok none, src) := by
          rw [decode_eq, front_of_part hne hframe.symm hfits (by decide)]
        refine ⟨[], message :: messages, src, rfl, drain_none hdecode, ?_, ?_⟩
        · rw [hsrc]
          exact .cons hfits hreads hlater
        · intro hnil
          rw [hnil] at hmissing
          exact absurd (List.append_eq_nil_iff.1 hmissing.symm).1 hne
      · exact absurd ⟨more, hmore⟩ hwhole

/-- Whatever is left in the buffer, the chunks to come bring what it waits for. -/
theorem feed_of_carries : ∀ {chunks : List Blob} {buffer : Blob} {messages : List Message},
    Carries messages (buffer ++ chunks.flatten) → (chunks = [] → messages = []) →
      feed buffer chunks = (messages.map Message.received, none, [])
  | [], buffer, messages, h, hnone => by
    obtain rfl := hnone rfl
    rw [List.flatten_nil, List.append_nil] at h
    cases h
    rfl
  | chunk :: chunks, buffer, messages, h, _ => by
    rw [List.flatten_cons, ← List.append_assoc] at h
    obtain ⟨arrived, waiting, left, rfl, hdrain, hcarries, hnone⟩ := drain_of_carries h rfl
    have hfeed := feed_of_carries hcarries fun hchunks => hnone (by rw [hchunks, List.flatten_nil])
    simp only [feed, hdrain, hfeed, List.map_append]

theorem Carries.eq_nil {messages : List Message} (h : Carries messages []) : messages = [] := by
  generalize hstream : ([] : Blob) = stream at h
  cases h with
  | nil => rfl
  | @cons message messages body rest _ _ _ =>
    have hlen := congrArg List.length hstream
    rw [List.length_append, length_frame, List.length_nil] at hlen
    omega

/-- However the frames of messages are cut into chunks, the codec takes off the messages that were put on,
in order, and nothing is left; while it waits it takes nothing, and what it puts on is a whole frame or
nothing. -/
theorem decodes_chunks :
    (∀ messages : List Message, (∀ message ∈ messages, ∃ body, message.encode = .ok body ∧ body.length ≤ MAX_FRAME_LEN) →
      (∀ message ∈ messages, ∀ body, message.encode = .ok body → Message.decode body = .ok message.received) →
      ∃ wire, encodeAll messages [] = (.ok (), wire) ∧
        ∀ chunks : List Blob, chunks.flatten = wire → feed [] chunks = (messages.map Message.received, none, [])) ∧
    (∀ src : Blob, (decode src).1 = .ok none → (decode src).2 = src) ∧
    ∀ (message : Message) (dst : Blob),
      (∃ body, message.encode = .ok body ∧ body.length ≤ MAX_FRAME_LEN ∧
        encode message dst = (.ok (), dst ++ frame 4 body)) ∨ ∃ e, encode message dst = (.error e, dst) := by
  refine ⟨fun messages hfits hundoes => ?_, fun src hnone => ?_, encode_cases⟩
  · obtain ⟨wire, hwire⟩ := encodeAll_fits [] hfits
    refine ⟨wire, hwire, fun chunks hchunks => ?_⟩
    obtain ⟨stream, rfl, hstream⟩ := carries_encodeAll hwire hundoes
    subst hchunks
    refine feed_of_carries (by rwa [List.nil_append]) fun hnil => ?_
    rw [hnil] at hstream
    exact hstream.eq_nil
  · rw [decode_eq] at hnone ⊢
    cases hfront : front 4 MAX_FRAME_LEN src with
    | short => rfl
    | oversized len => simp [hfront] at hnone
    | whole body rest =>
      rw [hfront] at hnone
      cases hbody : Message.decode body with
      | ok message =>
        simp only [hbody] at hnone
        cases hnone
      | error e =>
        simp only [hbody] at hnone
        cases hnone

end Codec

end IrohLotus.Sync

/-! ## The samples -/

namespace IrohLotus.Sync.Codec

open Bytes IrohLotus.Wire IrohLotus.Wire.Sample

/-- What one side opens with, and a batch of one envelope. -/
def greeted : List Message := [.hello 1 secondDigest, .envelopes [first]]

theorem ordered_greeted : ∀ message ∈ greeted, message.Ordered := by
  have hfirst : first.payload.Ordered := trivial
  intro message hmem
  rcases List.mem_pair.1 hmem with rfl | rfl
  · trivial
  · intro envelope he
    rw [List.mem_singleton.1 he]
    exact hfirst

theorem decodes_chunks_greeted : ∃ wire, encodeAll greeted [] = (.ok (), wire) ∧
    ∀ chunks : List Blob, chunks.flatten = wire → feed [] chunks = (greeted, none, []) := by
  refine decodes_chunks.1 greeted ?_ ?_
  · intro message hmem
    rcases List.mem_pair.1 hmem with rfl | rfl
    · exact ⟨_, rfl, by decide +kernel⟩
    · exact ⟨_, rfl, by decide +kernel⟩
  · intro message hmem body hbody
    exact Message.decode_of_encode (ordered_greeted message hmem) hbody

end IrohLotus.Sync.Codec
