/-
One order behind the heads of all nodes. What two envelopes compete by where their paths part is decided by
the envelopes alone: the weight each was accepted with, then the digest. So every node of one `Init` stands
at the greatest envelope of its log in one order that no node's log enters into.
-/
import IrohLotus.Lib.ForkOrder
import IrohLotus.Lotusd.Honest

namespace IrohLotus.State.World

open Forest IrohLotus.Wire IrohLotus.Storage

variable [Externals] {W : World} {base d : EnvelopeDigest} {s : MemStorage}

/-- The envelope was accepted on the state of its parent. -/
def Accepted (W : World) (d : EnvelopeDigest) (e : Envelope) : Prop :=
  e.toSignedPortion ∈ W.contents ∧ ∃ p v v', W.StateOf p v ∧ Accepts p v e d v'

theorem Accepted.unique {e e' : Envelope} (h : W.Accepted d e) (h' : W.Accepted d e') : e = e' := by
  obtain ⟨content, p, v, v', hv, hacc⟩ := h
  obtain ⟨content', p', w, w', hw, hacc'⟩ := h'
  obtain rfl : p = p' := by
    have hp := prev_of_accepts content hacc
    rw [prev_of_accepts content' hacc'] at hp
    exact (Option.some.inj hp).symm
  obtain rfl := hv.unique hw
  exact (hacc.unique hacc' (W.laws.collisionFree _ content _ content' d hacc.digest hacc'.digest)).1

open Classical in
/-- The weight an envelope is accepted with. -/
noncomputable def weight (W : World) (d : EnvelopeDigest) : UInt32 :=
  if h : ∃ e, W.Accepted d e then h.choose.verificationStatus.signatureWeight else 0

/-- What siblings compete by. -/
noncomputable def rank (W : World) (d : EnvelopeDigest) : ℕ ×ₗ ℕ := toLex ((W.weight d).toNat, d.hash.toNat)

theorem weight_of_accepted {e : Envelope} (h : W.Accepted d e) : W.weight d = e.verificationStatus.signatureWeight := by
  have hex : ∃ e, W.Accepted d e := ⟨e, h⟩
  unfold weight
  rw [dif_pos hex, hex.choose_spec.unique h]

/-- A log ranks its envelopes as the world does. -/
theorem rank_eq (h : Coherent W base s) (hd : s.Stored d) (hne : d ≠ base) : s.rank d = W.rank d := by
  obtain ⟨e, he⟩ := hd
  obtain ⟨p, v, v', -, hv, hacc⟩ := h.accepted d e he hne
  have haccepted : W.Accepted d e := ⟨(h.content d e he).1, p, v, v', hv, hacc⟩
  unfold MemStorage.rank rank
  rw [weight_of_accepted haccepted]
  unfold MemStorage.weight
  rw [he]
  rfl

/-- What the log prefers, the world prefers. -/
theorem before_of_log (h : Coherent W base s) {a b : EnvelopeDigest} (hbase : s.parent base = none)
    (hab : Before s.parent s.rank a b) : Before W.prev W.rank a b := by
  refine hab.mono h.extends fun c p hc => rank_eq h (s.stored_of_parent hc) ?_
  rintro rfl
  rw [hbase] at hc
  cases hc

end IrohLotus.State.World

namespace IrohLotus.Lotusd

open Std Outcome Forest IrohLotus.Wire IrohLotus.Storage IrohLotus.State

variable [Externals] {W : World} {core core' : Core} {d : EnvelopeDigest}

/-- A node stands at the greatest envelope of its log. -/
theorem Core.Full.before_head (h : core.Full W) (hd : core.storage.Stored d) : Before W.prev W.rank d core.head :=
  World.before_of_log h.coherent h.top (h.tip.before core.storage.rank_injective h.good.acyclic (h.coherent.desc hd))

theorem Core.Full.head_stored (h : core.Full W) : core.storage.Stored core.head := h.good.head_stored

/-- Two nodes that have stored each other's heads stand at one. -/
theorem Core.Full.eq_head (h : core.Full W) (h' : core'.Full W) (hhas : core.storage.Stored core'.head)
    (hhas' : core'.storage.Stored core.head) : core.head = core'.head :=
  (h'.before_head hhas').antisymm World.acyclic (h.before_head hhas)

/-- There is one order, the same for every node grown from an `Init`, in which an envelope comes before what
builds on it and each node stands at the greatest envelope of its log. So nothing a node does takes its head
back, and nodes whose logs hold each other's heads agree. -/
theorem Core.Grown.head_greatest {contents : Set SignedPortion} (laws : DigestLaws contents) {start : Envelope}
    (content : start.toSignedPortion ∈ contents) : ∃ before : EnvelopeDigest → EnvelopeDigest → Prop,
    (∀ a, before a a) ∧ (∀ a b c, before a b → before b c → before a c) ∧ (∀ a b, before a b → before b a → a = b) ∧
      ∀ core : Core, core.Grown contents start → core.storage.Stored core.head ∧
        (∀ d, core.storage.Stored d → before d core.head) ∧ (∀ a b, Desc core.storage.parent a b → before a b) ∧
          ∀ core' : Core, core.Moves contents core' → before core.head core'.head := by
  by_cases hsome : ∃ core : Core, core.Grown contents start
  · obtain ⟨core₀, h₀⟩ := hsome
    obtain ⟨W, rfl, hfull⟩ := h₀.exists_world laws content
    refine ⟨Before W.prev W.rank, fun _ => .refl, fun _ _ _ h h' => h.trans h', fun _ _ h h' => h.antisymm World.acyclic h', ?_⟩
    intro core hcore
    have h := hfull core hcore
    refine ⟨h.head_stored, fun d hd => h.before_head hd, fun a b hab => .inl (hab.mono h.coherent.extends), fun core' move => ?_⟩
    obtain ⟨hfull', hgrows⟩ := h.moves move
    exact hfull'.before_head (hgrows.stored h.head_stored)
  · exact ⟨Eq, fun _ => rfl, fun _ _ _ h h' => h.trans h', fun _ _ h _ => h, fun core hcore => absurd ⟨core, hcore⟩ hsome⟩

end IrohLotus.Lotusd

/-! ## The samples -/

namespace IrohLotus.Lotusd

open IrohLotus.Wire IrohLotus.Wire.Sample IrohLotus.State

/-- A node that goes on from genesis does not come back to it. -/
theorem head_greatest_linear : ∃ before : EnvelopeDigest → EnvelopeDigest → Prop,
    before genesisDigest linearCore.head ∧ ¬ before linearCore.head genesisDigest := by
  have hgenesis : genesis.toSignedPortion ∈ table.map Prod.fst := by decide +kernel
  have hmem : ∀ e ∈ [first, second], e.toSignedPortion ∈ table.map Prod.fst := by decide +kernel
  obtain ⟨before, -, -, antisymm, hnodes⟩ := Core.Grown.head_greatest sample_laws hgenesis
  obtain ⟨-, -, -, hmoves⟩ := hnodes genesisCore grown_genesisCore
  have hforward : before genesisDigest linearCore.head := hmoves linearCore (.insertBatch hmem)
  have hne : genesisDigest ≠ linearCore.head := by decide +kernel
  exact ⟨before, hforward, fun hback => hne (antisymm _ _ hforward hback)⟩

end IrohLotus.Lotusd
