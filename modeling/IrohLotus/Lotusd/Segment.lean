/-
Segments fit the wire: what `Core::segment` answers under its two budgets, and the frame the server
makes of it. A batch within `SEGMENT_BYTE_BUDGET` leaves the frame room for the heads around it; only a
first envelope beyond the budget can be more, and that one goes alone.
-/
import IrohLotus.Lotusd.Answer
import IrohLotus.Sync.Frame
import IrohLotus.Sync.Server

namespace IrohLotus.Wire

open Serde

variable [Cbor2]

/-! ## Sizes on the wire -/

/-- How many bytes a tree is written in. -/
def size (t : Tree) : Nat := (Cbor2.toCanonicalVec t).toOption.elim 0 List.length

/-- The writer puts a head before the items of an array and the entries of a map, and a small number is
its head. -/
structure Headed : Prop where
  int : ∀ n : Nat, n < 24 → size (.int n) = 1
  array : ∀ items, size (.seq items) = (Cbor.head 4 items.length).length + (items.map size).sum
  map : ∀ entries, size (.map entries) = (Cbor.head 5 entries.length).length + (entries.map fun e => size e.1 + size e.2).sum

/-- The length of an envelope's encoding is what the writer makes of it. -/
abbrev written : Encoding where
  length portion := size (Envelope.serialize false ⟨portion, .unchecked⟩)

theorem exists_encode (message : Sync.Message) : ∃ body, message.encode = .ok body ∧ body.length = size message.serialize := by
  obtain ⟨body, -, hbody, -⟩ := Cbor2.faithful message.serialize
  refine ⟨body, hbody, ?_⟩
  unfold size
  rw [hbody]
  rfl

namespace Headed

variable (headed : Headed)
include headed

/-- A map has at least its head. -/
theorem size_map_pos (entries : List (Tree × Tree)) : 0 < size (.map entries) := by
  have hlen := List.length_pos_iff.2 (Cbor.head_ne_nil 5 entries.length)
  rw [headed.map]
  omega

/-- Around a batch stand the tag of the message, its one field, and three heads. -/
theorem size_envelopes_le {batch : List Envelope} (hcap : batch.length < 2 ^ 16) :
    size (Sync.Message.envelopes batch).serialize ≤ 7 + (batch.map fun e => size (e.serialize false)).sum := by
  have hhead : (Cbor.head 4 batch.length).length ≤ 3 := Cbor.length_head_le hcap
  have hone : (Cbor.head 5 1).length = 1 := Cbor.length_head_of_lt (by decide)
  show size (.map [(.int 5, .map [(.int 1, .seq (batch.map fun e => e.serialize false))])]) ≤ _
  have h5 : size (.int 5) = 1 := headed.int 5 (by decide)
  have h1 : size (.int 1) = 1 := headed.int 1 (by decide)
  rw [headed.map, List.map_singleton, List.sum_singleton, headed.map, List.map_singleton, List.sum_singleton, headed.array,
    List.length_map, List.map_map]
  simp only [List.length_singleton, hone, h5, h1]
  have hsum : (batch.map (size ∘ fun e => e.serialize false)).sum = (batch.map fun e => size (e.serialize false)).sum := rfl
  omega

end Headed

end IrohLotus.Wire

namespace IrohLotus.Lotusd

open Std Outcome Forest IrohLotus.Wire IrohLotus.Storage IrohLotus.State IrohLotus.Sync

section Segment

variable [Externals] {s : MemStorage}

/-! ## The loop -/

/-- The envelopes of the first of these digests, in their order. -/
def Front (s : MemStorage) (digests : List EnvelopeDigest) (batch : List Envelope) : Prop :=
  ∃ taken, taken <+: digests ∧ List.Forall₂ (fun d e => s.envelope d = some e) taken batch

omit [Externals] in
theorem Front.nil (digests : List EnvelopeDigest) : Front s digests [] := ⟨[], List.nil_prefix, .nil⟩

omit [Externals] in
theorem Front.cons {d : EnvelopeDigest} {digests : List EnvelopeDigest} {e : Envelope} {batch : List Envelope}
    (he : s.envelope d = some e) (h : Front s digests batch) : Front s (d :: digests) (e :: batch) := by
  obtain ⟨taken, htaken, hbatch⟩ := h
  exact ⟨d :: taken, List.cons_prefix_cons.2 ⟨rfl, htaken⟩, .cons he hbatch⟩

/-- The digest leads to an envelope that encodes. -/
def Encodes (s : MemStorage) (d : EnvelopeDigest) : Prop := ∃ e, s.envelope d = some e ∧ e.digest = .ok d

variable [Encoding]

/-- What an envelope costs a segment. -/
abbrev cost (e : Envelope) : Nat := Encoding.length e.toSignedPortion

theorem encodedLen_eq_cost {e : Envelope} {d : EnvelopeDigest} (h : e.digest = .ok d) : e.encodedLen.toOption = some (cost e) := by
  unfold Envelope.encodedLen
  unfold Envelope.digest SignedPortion.digest at h
  cases hh : Externals.hash e.toSignedPortion with
  | error err => rw [hh] at h; cases h
  | ok b => rfl

/-- Behind the first envelope, the loop stays within what is left of the budget. -/
theorem fill_within : ∀ {digests : List EnvelopeDigest}, (∀ d ∈ digests, Encodes s d) → ∀ (budget : Nat) {segment : List Envelope},
    segment ≠ [] → ∃ batch, fill s budget segment digests = .ok (segment ++ batch) ∧ Front s digests batch ∧
      (batch.map cost).sum ≤ budget
  | [], _, budget, segment, _ => ⟨[], by rw [List.append_nil]; rfl, .nil [], Nat.zero_le _⟩
  | d :: digests, h, budget, segment, hsegment => by
    obtain ⟨e, he, hdigest⟩ := h d List.mem_cons_self
    have hsome : segment.isEmpty = false := List.isEmpty_eq_false_iff.2 hsegment
    unfold fill
    simp only [he, encodedLen_eq_cost hdigest, Res.expect_some, Res.ok_bind, hsome, Bool.not_false, Bool.true_and,
      decide_eq_true_eq]
    by_cases hfull : cost e > budget
    · rw [if_pos hfull]
      exact ⟨[], by rw [List.append_nil]; rfl, .nil _, Nat.zero_le _⟩
    · rw [if_neg hfull]
      have hne : segment ++ [e] ≠ [] := List.append_ne_nil_of_right_ne_nil _ (List.cons_ne_nil _ _)
      obtain ⟨batch, hfill, hfront, hsum⟩ := fill_within (fun x hx => h x (List.mem_cons_of_mem _ hx)) (budget - cost e) hne
      refine ⟨e :: batch, ?_, hfront.cons he, ?_⟩
      · rw [hfill, List.append_assoc, List.singleton_append]
      · rw [List.map_cons, List.sum_cons]
        omega

/-- The first goes whatever it costs; with it the batch is within the budget, or it is alone. -/
theorem fill_cases (hcost : ∀ e : Envelope, 0 < cost e) {digests : List EnvelopeDigest} (h : ∀ d ∈ digests, Encodes s d)
    (budget : Nat) : ∃ batch, fill s budget [] digests = .ok batch ∧ Front s digests batch ∧ (batch = [] → digests = []) ∧
      ∀ e rest, batch = e :: rest → if cost e > budget then rest = [] else (batch.map cost).sum ≤ budget := by
  cases digests with
  | nil => exact ⟨[], rfl, .nil [], fun _ => rfl, fun e rest h => by cases h⟩
  | cons d digests =>
    obtain ⟨e, he, hdigest⟩ := h d List.mem_cons_self
    obtain ⟨batch, hfill, hfront, hsum⟩ :=
      fill_within (fun x hx => h x (List.mem_cons_of_mem _ hx)) (budget - cost e) (List.cons_ne_nil e [])
    refine ⟨e :: batch, ?_, hfront.cons he, fun hnil => absurd hnil (List.cons_ne_nil _ _), fun e' rest hbatch => ?_⟩
    · unfold fill
      simp only [he, encodedLen_eq_cost hdigest, Res.expect_some, Res.ok_bind, List.isEmpty_nil, Bool.not_true, Bool.false_and,
        Bool.false_eq_true, if_false]
      exact hfill
    · cases hbatch
      by_cases hover : cost e > budget
      · rw [if_pos hover]
        -- nothing is left of the budget, and no envelope is free
        cases batch with
        | nil => rfl
        | cons f rest =>
          have hpos := hcost f
          rw [List.map_cons, List.sum_cons] at hsum
          omega
      · rw [if_neg hover, List.map_cons, List.sum_cons]
        omega

/-! ## The segment -/

omit [Encoding] in
/-- The digests above `after` on a walk lead to envelopes that encode. -/
theorem encodes_of_climbs (content : ∀ d e, s.envelope d = some e → e.digest = .ok d) {after head : EnvelopeDigest}
    {digests : List EnvelopeDigest} (h : Climbs s.parent after digests head) : ∀ d ∈ digests, Encodes s d := by
  induction h with
  | nil => exact fun d hd => absurd hd List.not_mem_nil
  | @cons a c t cs hc _ ih =>
    intro d hd
    rcases List.mem_cons.1 hd with rfl | hd
    · obtain ⟨e, he, -⟩ := s.parent_eq_some.1 hc
      exact ⟨e, he, content _ e he⟩
    · exact ih d hd

/-- The envelopes that follow `after` on the walk, parent-first and without a gap. -/
def Follows (s : MemStorage) (walk : List EnvelopeDigest) (after : EnvelopeDigest) (batch : List Envelope) : Prop :=
  ∃ taken, List.Forall₂ (fun d e => s.envelope d = some e) taken batch ∧ (batch ≠ [] → after :: taken <:+: walk.reverse)

/-- A segment is what follows `after`, as much as goes under both budgets. -/
theorem Core.segment_cases {W : World} {base : EnvelopeDigest} {core : Core} (hco : Coherent W base core.storage)
    (hcost : ∀ e : Envelope, 0 < cost e) (after : EnvelopeDigest) :
    ∃ walk batch tip, core.walkCanonical = .ok walk ∧ core.segment after = .ok batch ∧
      Follows core.storage walk after batch ∧ Linked after batch tip ∧ batch.length ≤ MAX_BATCH_ENVELOPES ∧
      (batch = [] ↔ after = core.head ∨ after ∉ walk) ∧
      ∀ e rest, batch = e :: rest →
        if cost e > SEGMENT_BYTE_BUDGET then rest = [] else (batch.map cost).sum ≤ SEGMENT_BYTE_BUDGET := by
  obtain ⟨walk, hwalk, hline⟩ := core.walkCanonical_eq_ok hco.acyclic
  obtain ⟨batch, tip, hbatch, hsegment⟩ := core.segment_eq_ok hco after
  refine ⟨walk, batch, tip, hwalk, hbatch, ?_⟩
  have hrun := hbatch
  unfold Core.segment at hrun
  rw [hwalk, Res.ok_bind] at hrun
  cases hnewer : newerThan after walk with
  | none =>
    rw [hnewer] at hrun
    cases hrun
    refine ⟨⟨[], .nil, fun hne => absurd rfl hne⟩, hsegment.linked, hsegment.cap, ?_, fun e rest h => by cases h⟩
    exact iff_of_true rfl (.inr (newerThan_eq_none hnewer))
  | some newer =>
    rw [hnewer] at hrun
    obtain ⟨older, hsplit⟩ := newerThan_eq_some hnewer
    have hclimbs := hline.climbs hsplit
    have hencodes := encodes_of_climbs (fun d e he => (hco.content d e he).2) hclimbs
    obtain ⟨batch', hfill, ⟨taken, htaken, hfront⟩, hempty, hbudget⟩ :=
      fill_cases hcost (fun d hd => hencodes d (List.mem_of_mem_take hd)) SEGMENT_BYTE_BUDGET
    obtain rfl : batch' = batch := Except.ok.inj (hfill.symm.trans hrun)
    have hmem : after ∈ walk := by simp [hsplit]
    refine ⟨⟨taken, hfront, fun _ => ?_⟩, hsegment.linked, hsegment.cap, ⟨fun hnil => ?_, fun hend => ?_⟩, hbudget⟩
    · -- parent-first, the walk goes on from `after` with what is newer
      obtain ⟨beyond, hbeyond⟩ := htaken.trans (List.take_prefix _ _)
      refine ⟨older.reverse, beyond, ?_⟩
      rw [hsplit, List.reverse_append, List.reverse_cons, ← hbeyond]
      simp
    · exact .inl (hsegment.ended (hline.mem_iff.1 hmem) hnil)
    · rcases hend with rfl | hoff
      · -- nothing is newer than the head
        have hnone : newerThan core.head walk = some [] := by
          cases hline with
          | top h => exact if_pos rfl
          | child h rest => exact if_pos rfl
        rw [hnewer] at hnone
        cases hnone
        cases hfill
        rfl
      · exact absurd hmem hoff

end Segment

/-! ## The frame -/

variable [Externals] [Cbor2] {contents : Set SignedPortion} {core : Core}

omit [Cbor2] in
/-- A segment meets the assertions the server makes on it. -/
theorem returns_step_segment {head after tip : EnvelopeDigest} {batch : List Envelope} (hlinked : Linked after batch tip)
    (hcap : batch.length ≤ MAX_BATCH_ENVELOPES) (sent : Nat) :
    ∃ state effects, Server.step head (.awaitSegment after sent) (.answer (.segment batch)) = .ok (state, effects) := by
  unfold Server.step
  cases batch with
  | nil => exact ⟨_, _, rfl⟩
  | cons e rest =>
    dsimp only
    rw [Server.segmentTip_of_linked hlinked (List.cons_ne_nil _ _) hcap]
    exact ⟨_, _, rfl⟩

/-- Segments fit the wire. For every reachable core and every digest, the segment is what follows it on
the canonical walk, parent-first and without a gap, at most `MAX_BATCH_ENVELOPES` of it and none exactly
at the head or off the walk; the server passes it on; and as a message it goes in one frame, but for one
envelope that alone is over `SEGMENT_BYTE_BUDGET`. -/
theorem Core.segment_fits (laws : DigestLaws contents) (reachable : Reachable contents core.chain core.storage)
    (headed : Headed) (after : EnvelopeDigest) (sent : Nat) (dst : Bytes.Blob) :
    ∃ walk batch, core.walkCanonical = .ok walk ∧ @Core.segment _ written core after = .ok batch ∧
      Follows core.storage walk after batch ∧ batch.length ≤ MAX_BATCH_ENVELOPES ∧
      (batch = [] ↔ after = core.head ∨ after ∉ walk) ∧
      (∃ state effects, Server.step core.head (.awaitSegment after sent) (.answer (.segment batch)) = .ok (state, effects)) ∧
      ∀ first rest, batch = first :: rest →
        if size (first.serialize false) > SEGMENT_BYTE_BUDGET then rest = []
        else ∃ body, (Message.envelopes batch).encode = .ok body ∧ body.length ≤ MAX_FRAME_LEN ∧
          (Codec.encode (.envelopes batch) dst).1 = .ok () := by
  let _ := written
  obtain ⟨W, -, hgood⟩ := reachable.good laws
  have hcost : ∀ e : Envelope, 0 < cost e := fun e => headed.size_map_pos _
  obtain ⟨walk, batch, tip, hwalk, hbatch, hfollows, hlinked, hcap, hempty, hbudget⟩ :=
    Core.segment_cases hgood.coherent hcost after
  refine ⟨walk, batch, hwalk, hbatch, hfollows, hcap, hempty, returns_step_segment hlinked hcap sent, fun first rest hcons => ?_⟩
  have hbudget : if size (first.serialize false) > SEGMENT_BYTE_BUDGET then rest = []
      else (batch.map fun e => size (e.serialize false)).sum ≤ SEGMENT_BYTE_BUDGET := hbudget first rest hcons
  by_cases hover : size (first.serialize false) > SEGMENT_BYTE_BUDGET
  · rw [if_pos hover]
    rwa [if_pos hover] at hbudget
  · rw [if_neg hover]
    rw [if_neg hover] at hbudget
    obtain ⟨body, hbody, hlen⟩ := exists_encode (.envelopes batch)
    have hsize := headed.size_envelopes_le (hcap.trans_lt (by decide : MAX_BATCH_ENVELOPES < 2 ^ 16))
    -- seven bytes around a batch within the budget
    have hfits : body.length ≤ MAX_FRAME_LEN := by
      unfold SEGMENT_BYTE_BUDGET MAX_FRAME_LEN at hbudget
      unfold MAX_FRAME_LEN
      omega
    refine ⟨body, hbody, hfits, ?_⟩
    unfold Codec.encode
    rw [hbody]
    dsimp only
    rw [if_pos hfits]

end IrohLotus.Lotusd

/-! ## The samples -/

namespace IrohLotus.Lotusd

open Std Outcome IrohLotus.Wire IrohLotus.Wire.Sample IrohLotus.Storage IrohLotus.State IrohLotus.Sync

/-- Deterministic CBOR puts heads where canonical CBOR does. -/
theorem headed_cbor2 : @Headed cbor2 where
  int _ hn := Cbor.length_head_of_lt hn
  array items := Cbor.length_write_seq items
  map entries := Cbor.length_write_map entries

/-- On a chain of three, the two that follow `genesis`, as they are in the log. -/
theorem segment_fits_linear :
    @Core.segment _ (@written cbor2) ⟨⟨genesisDigest, ⟨secondDigest⟩⟩, linearStore, genesisDigest⟩ genesisDigest =
        .ok [first.setVerificationStatus (.allMatched 0), second.setVerificationStatus (.allMatched 0)] ∧
      ∃ body, (Message.envelopes [first.setVerificationStatus (.allMatched 0),
        second.setVerificationStatus (.allMatched 0)]).encode = .ok body ∧ body.length ≤ MAX_FRAME_LEN := by
  let core : Core := ⟨⟨genesisDigest, ⟨secondDigest⟩⟩, linearStore, genesisDigest⟩
  obtain ⟨walk, batch, -, hbatch, -, -, -, -, hfits⟩ :=
    @Core.segment_fits _ cbor2 _ core sample_laws reachable_linearStore headed_cbor2 genesisDigest 0 []
  have hrun : @Core.segment _ (@written cbor2) core genesisDigest =
      .ok [first.setVerificationStatus (.allMatched 0), second.setVerificationStatus (.allMatched 0)] := by
    decide +kernel
  rw [hrun] at hbatch
  cases hbatch
  have hfirst := hfits _ _ rfl
  have hsmall : ¬ size (Envelope.serialize false (first.setVerificationStatus (.allMatched 0))) > SEGMENT_BYTE_BUDGET := by
    decide +kernel
  rw [if_neg hsmall] at hfirst
  obtain ⟨body, hbody, hlen, -⟩ := hfirst
  exact ⟨hrun, body, hbody, hlen⟩

end IrohLotus.Lotusd
