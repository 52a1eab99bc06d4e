/-
Two nodes of one `Init` that pull from each other in turn agree. A session brings the puller the
server's canonical path, or finds its head in the log already, and nothing else; the logs may go on
differing in forks that lost, but no such fork can decide a choice on the path the second session
brings over.
-/
import IrohLotus.Lotusd.Honest

/-! ## Two logs of one world -/

namespace IrohLotus.State

open Forest IrohLotus.Wire IrohLotus.Storage

variable [Externals] {W : World} {base d x p : EnvelopeDigest} {s t : MemStorage}

/-- What leads up to a stored envelope is stored. -/
theorem Coherent.stored_of_prev (h : Coherent W base s) (hd : s.Stored d) (hxd : Desc W.prev x d)
    (hx : Desc W.prev base x) : s.Stored x := by
  obtain ⟨hbx, -⟩ := Desc.of_extends World.acyclic h.extends (h.desc hd) hxd hx
  exact s.stored_of_desc h.base_stored hbx

/-- A log that has an envelope's digest has the envelope, with its parent and its rank. -/
theorem Coherent.same_at (hs : Coherent W base s) (ht : Coherent W base t) (hx : s.parent x = some p) (hd : t.Stored x)
    (hp : s.Stored p) : t.parent x = some p ∧ t.rank x = s.rank x := by
  obtain ⟨e, he⟩ := s.stored_of_parent hx
  obtain ⟨e', he'⟩ := hd
  have hne : x ≠ base := by
    rintro rfl
    exact hs.not_desc_base hp hx
  obtain rfl := hs.envelope_unique ht he he' hne hne
  refine ⟨?_, ?_⟩
  · rw [t.parent_of_envelope he', ← s.parent_of_envelope he]; exact hx
  · simp only [MemStorage.rank, MemStorage.weight, he, he']

end IrohLotus.State

namespace IrohLotus.Lotusd

open Std Outcome Forest IrohLotus.Wire IrohLotus.Storage IrohLotus.State IrohLotus.Sync

/-! ## What a session brings -/

variable [Externals] [Encoding]

/-- The puller's driver has an outcome to return. -/
def Pull.Complete (p : Pull) : Prop := ∃ outcome, Effect.done outcome ∈ p.puller.effects

/-- What a session has brought `here` from a node `there` that stood still. -/
structure Pull.Brought (W : World) (here there : Core) (p : Pull) : Prop where
  honest : p.Honest True W there.head
  still : p.there = there
  gained : ∀ x, p.here.storage.Stored x → here.storage.Stored x ∨ Desc there.storage.parent x there.head

section Brought

variable {W : World} {here there : Core} {p q : Pull}

theorem Pull.Brought.step (h : p.Brought W here there) (step : Pull.Step there.head p q) : q.Brought W here there := by
  refine ⟨h.honest.step step, step.there_eq.trans h.still, fun x hx => ?_⟩
  rcases step.here_cases with hsame | ⟨batch, pending, insert, front, hins⟩
  · rw [hsame] at hx
    exact h.gained x hx
  · obtain ⟨hbatch, -, hstored, -⟩ := h.honest.ingest front
    rw [hins] at hstored
    rcases (hstored x).1 hx with hx | ⟨e, he, hex⟩
    · exact h.gained x hx
    · obtain ⟨-, d, hd, hdesc⟩ := hbatch e he
      rw [hd] at hex; cases hex
      rw [h.still] at hdesc
      exact .inr (hdesc trivial)

/-- Every state of a session between nodes of one world that stand still. -/
theorem Pull.brought (hhere : here.Full W) (hthere : there.Full W) {pullerHead : EnvelopeDigest}
    (steps : Relation.ReflTransGen (Pull.Step there.head) (Pull.opening here there pullerHead) p) :
    p.Brought W here there := by
  induction steps with
  | refl => exact ⟨⟨hhere, hthere, Pull.opening_talks here there pullerHead⟩, rfl, fun _ hx => .inl hx⟩
  | tail _ step ih => exact ih.step step

omit [Encoding] in
/-- Once the session is complete the puller has the server's head. -/
theorem Pull.Brought.head_stored (h : p.Brought W here there) (complete : p.Complete) : p.here.storage.Stored there.head := by
  obtain ⟨outcome, hdone⟩ := complete
  have htalks := h.honest.talks
  unfold Pull.Talks at htalks
  have hended := htalks.ended
  rw [← mem_endings_done] at hdone
  generalize endings p.puller.effects = pulled at hended hdone
  generalize endings p.server.effects = served at hended
  cases hended with
  | neither => simp at hdone
  | refused => simp at hdone
  | served => simp at hdone
  | current had => exact had
  | parted unsplit => exact unsplit.elim
  | synced reached ended =>
    have hcursor := ended trivial
    rw [h.still] at hcursor
    rw [← hcursor]; exact reached

end Brought

/-! ## Both ways -/

omit [Encoding] in
/-- Of two nodes the first of which has the canonical path of the second, let the second take the
canonical path of the first and nothing else: it ends up at the first's head. -/
theorem Core.Full.same_head {W : World} {a b m : Core} (ha : a.Full W) (hb : b.Full W) (hm : m.Full W)
    (hhas : a.storage.Stored b.head) (hgot : m.storage.Stored a.head)
    (hfrom : ∀ x, m.storage.Stored x → b.storage.Stored x ∨ Desc a.storage.parent x a.head) : m.head = a.head := by
  have hca := ha.coherent
  have hcb := hb.coherent
  have hcm := hm.coherent
  have hparent : ∀ {core : Core}, core.Full W → ∀ {x p}, core.storage.parent x = some p → core.storage.Stored p := by
    intro core hcore x p hp
    refine hcore.coherent.parent_stored hp ?_
    rintro rfl
    rw [hcore.top] at hp; cases hp
  have hrise : ∀ {core : Core}, core.Full W → ∀ {x}, core.storage.Stored x → Desc W.prev W.genesis x := fun hcore _ hx =>
    (hcore.coherent.desc hx).mono hcore.coherent.extends
  refine Tip.unique m.storage.rank_injective hm.tip ?_
  refine Tip.exchange World.acyclic hca.extends hcb.extends (fun x p hx hx' => ?_) b.storage.rank_injective ha.tip hb.tip
    (fun c x hc => hcb.desc (b.storage.stored_of_parent hc)) (fun x p hx hxb => ?_) (fun x p hx hxa => ?_) (fun c x hc => ?_)
  · exact (hcb.same_at hca hx' (a.storage.stored_of_parent hx) (hparent hb hx')).2
  · -- the path of the second is in the log of the first
    have hstored := hca.stored_of_prev hhas (hxb.mono hcb.extends) (hrise hb (b.storage.stored_of_parent hx))
    exact (hcb.same_at hca hx hstored (hparent hb hx)).1
  · have hstored := hcm.stored_of_prev hgot (hxa.mono hca.extends) (hrise ha (a.storage.stored_of_parent hx))
    exact hca.same_at hcm hx hstored (hparent ha hx)
  · have hc' := m.storage.stored_of_parent hc
    rcases hfrom c hc' with hcs | hca'
    · obtain ⟨hp, hr⟩ := hcm.same_at hcb hc hcs (hparent hm hc)
      exact .inl ⟨hp, hr.symm⟩
    · obtain ⟨hp, hr⟩ := hcm.same_at hca hc (ha.stored_of_desc hca') (hparent hm hc)
      exact .inr ⟨hp, hr.symm⟩

/-- Two nodes of one `Init`: when the first has pulled from the second and then the second from the
first, they have one head and one checkpoint; and neither session can end in a breach, without common
history or in a refused ingest. -/
theorem Pull.two_way {contents : Set SignedPortion} (laws : DigestLaws contents) {start : Envelope}
    (content : start.toSignedPortion ∈ contents) {a b : Core} (ha : a.Grown contents start) (hb : b.Grown contents start)
    {p : Pull} (first : Relation.ReflTransGen (Pull.Step b.head) (Pull.opening a b a.head) p) :
    p.Survives b.head ∧ (p.Complete → ∀ q,
      Relation.ReflTransGen (Pull.Step p.here.head) (Pull.opening b p.here b.head) q →
        q.Survives p.here.head ∧ (q.Complete → q.here.head = p.here.head ∧
          ∃ state, q.here.chain.checkpoint q.here.storage = .ok state ∧
            p.here.chain.checkpoint p.here.storage = .ok state)) := by
  obtain ⟨W, rfl, hfull⟩ := ha.exists_world laws content
  have hp := Pull.brought (hfull a ha) (hfull b hb) first
  refine ⟨hp.honest.survives_of_honest, fun hcomplete q second => ?_⟩
  have hq := Pull.brought (hfull b hb) hp.honest.here second
  refine ⟨hq.honest.survives_of_honest, fun hcomplete' => ?_⟩
  have hhead := Core.Full.same_head hp.honest.here (hfull b hb) hq.honest.here (hp.head_stored hcomplete)
    (hq.head_stored hcomplete') hq.gained
  exact ⟨hhead, hq.honest.here.good.same_checkpoint hp.honest.here.good hhead⟩

end IrohLotus.Lotusd

/-! ## The samples -/

namespace IrohLotus.Lotusd

open Std Outcome Forest IrohLotus.Wire IrohLotus.Wire.Sample IrohLotus.Storage IrohLotus.State IrohLotus.Sync

/-- A node on the other side of the fork. -/
def otherCore : Core := (genesisCore.insertBatch [other]).2

theorem grown_otherCore : otherCore.Grown Sample.contents genesis := by
  have hmem : ∀ e ∈ [other], e.toSignedPortion ∈ table.map Prod.fst := by decide +kernel
  exact .moves grown_genesisCore (.insertBatch hmem)

/-- Either pulls from the other in turn. -/
def firstPull : Pull := (Pull.opening linearCore otherCore linearCore.head).drive otherCore.head 20

def secondPull : Pull := (Pull.opening otherCore firstPull.here otherCore.head).drive firstPull.here.head 20

theorem two_way_forked : firstPull.puller.pending = [.done (.synced otherDigest 1)] ∧
    secondPull.puller.pending = [.done (.synced secondDigest 2)] ∧ secondPull.here.head = firstPull.here.head := by
  have hgenesis : genesis.toSignedPortion ∈ table.map Prod.fst := by decide +kernel
  have hfirst : Pull.Complete firstPull := ⟨.synced otherDigest 1, by decide +kernel⟩
  have hsecond : Pull.Complete secondPull := ⟨.synced secondDigest 2, by decide +kernel⟩
  obtain ⟨-, hthen⟩ := Pull.two_way sample_laws hgenesis grown_linearCore grown_otherCore (Pull.drive_steps 20 _)
  exact ⟨by decide +kernel, by decide +kernel, ((hthen hfirst secondPull (Pull.drive_steps 20 _)).2 hsecond).1⟩

end IrohLotus.Lotusd
