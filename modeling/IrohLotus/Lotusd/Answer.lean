/-
How the core answers a session machine (`Core::sync_answer`): whether the log has an envelope, the
locator sampled from the canonical path, the split a peer's locator has on it, and the segment of it
after a digest.

The walk reads parents alone, so on a log that was pruned it goes on to the digest the root's `prev`
names, which the log does not hold.
-/
import IrohLotus.Lotusd.Core
import IrohLotus.Sync.Locator

namespace IrohLotus.Lotusd

open Std Outcome Forest IrohLotus.Wire IrohLotus.Storage IrohLotus.State IrohLotus.Sync

/-! ## The model -/

/-- The walk of `walk_canonical` from `digest` on: one parent read a hop, no envelope decoded. -/
def walkFrom (s : MemStorage) : Nat → EnvelopeDigest → Res Error (List EnvelopeDigest)
  | 0, _ => .error .hang
  | fuel + 1, digest =>
    match s.parent digest with
    | none => pure [digest]
    | some parent => do
      let rest ← walkFrom s fuel parent
      pure (digest :: rest)

/-- The digests of a walk above `after`, if it comes by there. -/
def newerThan (after : EnvelopeDigest) : List EnvelopeDigest → Option (List EnvelopeDigest)
  | [] => none
  | digest :: walk => if digest = after then some [] else (newerThan after walk).map (digest :: ·)

section Fill

variable [Externals] [Encoding]

/-- The loop of `segment`, with what is left of the byte budget. The first envelope goes regardless
of its size. -/
def fill (s : MemStorage) : Nat → List Envelope → List EnvelopeDigest → Res Error (List Envelope)
  | _, segment, [] => pure segment
  | budget, segment, digest :: digests => do
    let envelope ← Res.expect (s.envelope digest) "the canonical walk visits only stored envelopes"
    let cost ← Res.expect envelope.encodedLen.toOption "a stored envelope re-encodes"
    if !segment.isEmpty && decide (cost > budget) then pure segment
    else fill s (budget - cost) (segment ++ [envelope]) digests

end Fill

namespace Core

def walkCanonical (core : Core) : Res Error (List EnvelopeDigest) :=
  walkFrom core.storage (core.storage.envelopes.size + 2) core.head

variable [Externals] [Encoding]

/-- The canonical path just after `after`, parent-first, within the segment budgets; empty when
`after` is the head, or has left the canonical path. -/
def segment (core : Core) (after : EnvelopeDigest) : Res Error (List Envelope) := do
  let walk ← core.walkCanonical
  match newerThan after walk with
  | none => pure []
  | some newer => fill core.storage SEGMENT_BYTE_BUDGET [] (newer.reverse.take MAX_BATCH_ENVELOPES)

/-- Answers one query of a session machine. -/
def syncAnswer (core : Core) : Query → Res Error Answer
  | .containsEnvelope digest => pure (.contains (core.storage.envelope digest).isSome)
  | .locator => do
    let walk ← core.walkCanonical
    pure (.locator (sample walk))
  | .splitPoint entries => do
    let walk ← core.walkCanonical
    pure (.splitPoint (Sync.splitPoint entries walk))
  | .segment after => do
    let batch ← core.segment after
    pure (.segment batch)

end Core

/-! ## The walk -/

section Walk

variable {s : MemStorage}

theorem walkFrom_eq_ok (hac : Acyclic s.parent) : ∀ {fuel : Nat} {d : EnvelopeDigest},
    (above s.parent s.digests d).card + 1 ≤ fuel → ∃ path, walkFrom s fuel d = .ok path ∧ Lineage s.parent d path
  | 0, d, h => by omega
  | fuel + 1, d, h => by
    unfold walkFrom
    cases hp : s.parent d with
    | none => exact ⟨[d], rfl, .top hp⟩
    | some p =>
      have hlt := above_lt hac hp (s.mem_digests.2 (s.stored_of_parent hp))
      have hle : (above s.parent s.digests p).card + 1 ≤ fuel := by omega
      obtain ⟨path, hpath, hline⟩ := walkFrom_eq_ok hac hle
      exact ⟨d :: path, by simp only [hpath, Res.ok_bind]; rfl, .child hp hline⟩

theorem Core.walkCanonical_eq_ok {core : Core} (hac : Acyclic core.storage.parent) :
    ∃ path, core.walkCanonical = .ok path ∧ Lineage core.storage.parent core.head path := by
  refine walkFrom_eq_ok hac ?_
  have hle : (above core.storage.parent core.storage.digests core.head).card ≤ core.storage.envelopes.size :=
    card_above_le.trans core.storage.card_digests_le
  omega

theorem newerThan_eq_some {after : EnvelopeDigest} : ∀ {path newer : List EnvelopeDigest},
    newerThan after path = some newer → ∃ older, path = newer ++ after :: older
  | [], _, h => by cases h
  | d :: path, newer, h => by
    unfold newerThan at h
    by_cases hd : d = after
    · rw [if_pos hd] at h
      cases h
      exact ⟨path, by rw [hd]; rfl⟩
    · rw [if_neg hd] at h
      obtain ⟨rest, hrest, rfl⟩ := Option.map_eq_some_iff.1 h
      obtain ⟨older, rfl⟩ := newerThan_eq_some hrest
      exact ⟨older, rfl⟩

theorem newerThan_eq_none {after : EnvelopeDigest} : ∀ {path : List EnvelopeDigest},
    newerThan after path = none → after ∉ path
  | [], _ => List.not_mem_nil
  | d :: path, h => by
    unfold newerThan at h
    by_cases hd : d = after
    · rw [if_pos hd] at h; cases h
    · rw [if_neg hd, Option.map_eq_none_iff] at h
      intro hmem
      rcases List.mem_cons.1 hmem with heq | hmem
      · exact hd heq.symm
      · exact newerThan_eq_none h hmem

end Walk

/-! ## The segment -/

section Segment

variable [Externals] {s : MemStorage}

/-- What a core answers as the segment after `after`: a linked run of its log up to `tip`, which
stays on the canonical path as long as `after` is on it, and is empty only at the head. -/
structure IsSegment (s : MemStorage) (head after tip : EnvelopeDigest) (batch : List Envelope) : Prop where
  linked : Linked after batch tip
  cap : batch.length ≤ MAX_BATCH_ENVELOPES
  stored : ∀ e ∈ batch, ∃ d, s.envelope d = some e ∧ Desc s.parent d head
  onPath : Desc s.parent after head → Desc s.parent tip head
  ended : Desc s.parent after head → batch = [] → after = head

variable [Encoding]

/-- The loop takes a front part of the digests it climbs, at least the first. -/
theorem fill_eq_ok (content : ∀ d e, s.envelope d = some e → e.digest = .ok d) {head after : EnvelopeDigest}
    {digests : List EnvelopeDigest} (h : Climbs s.parent after digests head) : ∀ (budget : Nat) (segment : List Envelope),
      ∃ batch tip, fill s budget segment digests = .ok (segment ++ batch) ∧ Linked after batch tip ∧
        batch.length ≤ digests.length ∧ (∀ e ∈ batch, ∃ d, s.envelope d = some e ∧ Desc s.parent d head) ∧
        Desc s.parent tip head ∧
        (segment = [] → batch = [] → digests = []) := by
  induction h with
  | @nil a =>
    intro budget segment
    refine ⟨[], a, ?_, .nil, Nat.le_refl 0, nofun, Desc.refl, fun _ _ => rfl⟩
    rw [List.append_nil]; rfl
  | @cons a c t cs hc rest ih =>
    intro budget segment
    obtain ⟨e, he, hprev⟩ := s.parent_eq_some.1 hc
    have hdigest := content c e he
    obtain ⟨cost, hcost⟩ : ∃ cost, e.encodedLen.toOption = some cost := by
      unfold Envelope.encodedLen
      unfold Envelope.digest SignedPortion.digest at hdigest
      cases hh : Externals.hash e.toSignedPortion with
      | error err => rw [hh] at hdigest; cases hdigest
      | ok b => exact ⟨_, rfl⟩
    unfold fill
    simp only [he, hcost, Res.expect_some, Res.ok_bind]
    by_cases hfull : (!segment.isEmpty && decide (cost > budget)) = true
    · rw [if_pos hfull]
      refine ⟨[], a, by rw [List.append_nil]; rfl, .nil, Nat.zero_le _, nofun, (Desc.of_child hc).trans rest.desc, ?_⟩
      intro hseg
      rw [hseg] at hfull
      simp at hfull
    · rw [if_neg hfull]
      obtain ⟨batch, tip, hfill, hlinked, hlen, hstored, hdesc, -⟩ := ih (budget - cost) (segment ++ [e])
      refine ⟨e :: batch, tip, ?_, .cons hprev hdigest hlinked, Nat.succ_le_succ hlen, ?_, hdesc, fun _ => nofun⟩
      · rw [hfill, List.append_assoc, List.singleton_append]
      · intro x hx
        rcases List.mem_cons.1 hx with rfl | hx
        · exact ⟨c, he, rest.desc⟩
        · exact hstored x hx

/-- A core on a coherent log always has a segment to answer with. -/
theorem Core.segment_eq_ok {W : World} {base : EnvelopeDigest} {core : Core} (hco : Coherent W base core.storage)
    (after : EnvelopeDigest) :
    ∃ batch tip, core.segment after = .ok batch ∧ IsSegment core.storage core.head after tip batch := by
  obtain ⟨path, hwalk, hline⟩ := core.walkCanonical_eq_ok hco.acyclic
  unfold Core.segment
  rw [hwalk, Res.ok_bind]
  cases hnewer : newerThan after path with
  | none =>
    have hoff : ¬ Desc core.storage.parent after core.head := fun h => newerThan_eq_none hnewer (hline.mem_iff.2 h)
    exact ⟨[], after, rfl, .nil, Nat.zero_le _, nofun, fun h => absurd h hoff, fun h => absurd h hoff⟩
  | some newer =>
    obtain ⟨older, hsplit⟩ := newerThan_eq_some hnewer
    have hclimbs := hline.climbs hsplit
    obtain ⟨mid, hfront, hback⟩ := hclimbs.take MAX_BATCH_ENVELOPES
    obtain ⟨batch, tip, hfill, hlinked, hlen, hstored, hdesc, hempty⟩ :=
      fill_eq_ok (fun d e he => (hco.content d e he).2) hfront SEGMENT_BYTE_BUDGET []
    refine ⟨batch, tip, hfill, hlinked, hlen.trans (List.length_take_le _ _), fun e he => ?_,
      fun _ => hdesc.trans hback.desc, fun _ hnil => ?_⟩
    · obtain ⟨d, hd, hdm⟩ := hstored e he
      exact ⟨d, hd, hdm.trans hback.desc⟩
    · have hnone := hempty rfl hnil
      have hrev : newer.reverse = [] := by
        rcases List.take_eq_nil_iff.1 hnone with h | h
        · simp [MAX_BATCH_ENVELOPES] at h
        · exact h
      rw [hrev] at hclimbs
      cases hclimbs
      rfl

end Segment

end IrohLotus.Lotusd
