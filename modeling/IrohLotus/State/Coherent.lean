/-
The invariant of a chain's store. Everything in the log descends from a base through the log, was
accepted on the state of its parent with the status it is stored with, and every version held is
the state of an envelope in the log. What `insert` writes keeps it.
-/
import IrohLotus.State.Chain
import IrohLotus.State.World

namespace IrohLotus.Storage.MemStorage

open Std IrohLotus.Wire

variable (s : MemStorage)

/-! ## Reading the log as a forest -/

/-- The log holds an envelope under `d`. -/
def Stored (d : EnvelopeDigest) : Prop := ∃ e, s.envelope d = some e

/-- The store holds a version at `d`. -/
def Held (d : EnvelopeDigest) : Prop := ∃ v, s.versions[d]? = some v

/-- The verified signature weight an envelope is stored with. -/
def weight (d : EnvelopeDigest) : UInt32 := (s.envelope d).elim 0 fun e => e.verificationStatus.signatureWeight

/-- What children compete by: signature weight, then digest. -/
def rank (d : EnvelopeDigest) : ℕ ×ₗ ℕ := toLex ((s.weight d).toNat, d.hash.toNat)

/-- The digests of the log. -/
def digests : Finset EnvelopeDigest := s.envelopes.keys.toFinset

/-- Every version held stands on the version of its parent, down to `base`. -/
def HeldFrom (base : EnvelopeDigest) : Prop := ∀ d p, s.Held d → d ≠ base → s.parent d = some p → s.Held p

theorem rank_injective : Function.Injective s.rank := by
  intro a b h
  have h : ((s.weight a).toNat, a.hash.toNat) = ((s.weight b).toNat, b.hash.toNat) := toLex.injective h
  have := BitVec.eq_of_toNat_eq (Prod.mk.inj h).2
  cases a; cases b; simp_all

theorem mem_digests {d : EnvelopeDigest} : d ∈ s.digests ↔ s.Stored d := by
  simp only [digests, List.mem_toFinset, ExtTreeMap.mem_keys, ExtTreeMap.mem_iff_isSome_getElem?, Stored, envelope,
    loggedEnvelope, Option.map_eq_some_iff, Option.isSome_iff_exists]
  constructor
  · rintro ⟨entry, h⟩; exact ⟨_, entry, h, rfl⟩
  · rintro ⟨e, entry, h, -⟩; exact ⟨entry, h⟩

theorem card_digests_le : s.digests.card ≤ s.envelopes.size := by
  rw [← ExtTreeMap.length_keys]; exact List.toFinset_card_le _

theorem held_iff {d : EnvelopeDigest} : s.containsVersion d = true ↔ s.Held d := s.containsVersion_iff d

theorem not_held_iff {d : EnvelopeDigest} : s.containsVersion d = false ↔ ¬ s.Held d := by
  rw [← held_iff, Bool.not_eq_true]

theorem stored_of_parent {c p : EnvelopeDigest} (h : s.parent c = some p) : s.Stored c := by
  obtain ⟨e, he, -⟩ := s.parent_eq_some.1 h
  exact ⟨e, he⟩

theorem parent_of_envelope {d : EnvelopeDigest} {e : Envelope} (h : s.envelope d = some e) : s.parent d = e.prev := by
  simp only [parent, h, Option.bind_some]

/-- Two stores with one log: only their versions may differ. -/
structure SameLog (s t : MemStorage) : Prop where
  envelopes : t.envelopes = s.envelopes
  childIndex : t.childIndex = s.childIndex

/-- Every version `s` holds is held by `t`. -/
def Grows (s t : MemStorage) : Prop := ∀ (d : EnvelopeDigest) v, s.versions[d]? = some v → t.versions[d]? = some v

/-- Every envelope in the log of `s` is in the log of `t`. -/
def LogGrows (s t : MemStorage) : Prop := ∀ d e, s.envelope d = some e → t.envelope d = some e

theorem LogGrows.extends {s t : MemStorage} (h : LogGrows s t) : Forest.Extends s.parent t.parent := by
  intro c p hc
  obtain ⟨e, he, hp⟩ := s.parent_eq_some.1 hc
  rw [t.parent_of_envelope (h c e he)]; exact hp

theorem LogGrows.stored {s t : MemStorage} (h : LogGrows s t) {d : EnvelopeDigest} (hd : s.Stored d) : t.Stored d := by
  obtain ⟨e, he⟩ := hd
  exact ⟨e, h d e he⟩

theorem LogGrows.rank {s t : MemStorage} (h : LogGrows s t) {d : EnvelopeDigest} (hd : s.Stored d) : t.rank d = s.rank d := by
  obtain ⟨e, he⟩ := hd
  simp only [MemStorage.rank, weight, he, h d e he]

theorem Grows.held {s t : MemStorage} (h : Grows s t) {d : EnvelopeDigest} (hd : s.Held d) : t.Held d := by
  obtain ⟨v, hv⟩ := hd
  exact ⟨v, h d v hv⟩

namespace SameLog

variable {s t u : MemStorage}

theorem refl : SameLog s s := ⟨rfl, rfl⟩

theorem trans (h : SameLog s t) (h' : SameLog t u) : SameLog s u :=
  ⟨h'.envelopes.trans h.envelopes, h'.childIndex.trans h.childIndex⟩

theorem envelope (h : SameLog s t) : t.envelope = s.envelope := by
  funext d; simp only [MemStorage.envelope, loggedEnvelope, h.envelopes]

theorem parent (h : SameLog s t) : t.parent = s.parent := by
  funext d; simp only [MemStorage.parent, h.envelope]

theorem rank (h : SameLog s t) : t.rank = s.rank := by
  funext d; simp only [MemStorage.rank, weight, h.envelope]

theorem indexed (h : SameLog s t) (hi : s.Indexed) : t.Indexed := by
  intro p c
  rw [h.parent, ← hi p c]
  simp only [childSet, h.childIndex]

end SameLog

theorem sameLog_install (d : EnvelopeDigest) (v : Version) : s.SameLog (s.install d v) := ⟨rfl, rfl⟩

theorem grows_install {d : EnvelopeDigest} (h : ¬ s.Held d) (v : Version) : s.Grows (s.install d v) := by
  intro d' w hw
  rw [versions_install, if_neg]
  · exact hw
  · rintro rfl; exact h ⟨w, hw⟩

theorem held_install {s : MemStorage} {d y : EnvelopeDigest} {v : Version} : (s.install d v).Held y ↔ s.Held y ∨ y = d := by
  unfold Held
  rw [versions_install]
  by_cases hdy : d = y
  · subst hdy; simp
  · simp [if_neg hdy, Ne.symm hdy]

theorem HeldFrom.install {s : MemStorage} {base d p : EnvelopeDigest} (h : s.HeldFrom base) (hd : s.parent d = some p)
    (hp : s.Held p) (hfresh : ¬ s.Held d) (v : Version) : (s.install d v).HeldFrom base := by
  have hgrow := s.grows_install hfresh v
  intro c q hc hne hq
  by_cases hcd : c = d
  · subst hcd
    have hpq : q = p := Option.some.inj (hq.symm.trans hd)
    rw [hpq]; exact hgrow.held hp
  · exact hgrow.held (h c q ((held_install.1 hc).resolve_right hcd) hne hq)

theorem HeldFrom.put {s : MemStorage} {base d p : EnvelopeDigest} {e : Envelope} (h : s.HeldFrom base)
    (hstored : s.Held d → s.Stored d) (hfresh : s.envelope d = none) (hprev : e.prev = some p) (hp : s.Held p) (v : Version) :
    ((s.install d v).putEnvelope d e).HeldFrom base := by
  have hd : ¬ s.Held d := by
    intro hd
    obtain ⟨e', he'⟩ := hstored hd
    rw [hfresh] at he'; cases he'
  have hgrow : s.Grows ((s.install d v).putEnvelope d e) := s.grows_install hd v
  intro c q hc hne hq
  rw [parent_putEnvelope] at hq
  by_cases hcd : d = c
  · rw [if_pos hcd, hprev] at hq
    cases hq
    exact hgrow.held hp
  · rw [if_neg hcd] at hq
    exact hgrow.held (h c q ((held_install.1 hc).resolve_right (Ne.symm hcd)) hne hq)

theorem HeldFrom.of_desc {s : MemStorage} {base d h : EnvelopeDigest} (hfrom : s.HeldFrom base) (hac : Forest.Acyclic s.parent)
    (hbase : Forest.Desc s.parent base d) (hd : Forest.Desc s.parent d h) (hh : s.Held h) : s.Held d := by
  induction hd with
  | refl => exact hh
  | @tail p h hdp hp ih =>
    refine ih (hfrom h p hh ?_ hp)
    rintro rfl
    exact hac.not_desc_parent hp (hbase.trans hdp)

/-- Walking down from a stored node stays in the log. -/
theorem stored_of_desc {a d : EnvelopeDigest} (ha : s.Stored a) (hd : Forest.Desc s.parent a d) : s.Stored d := by
  rcases Relation.ReflTransGen.cases_tail hd with rfl | ⟨p, -, hp⟩
  · exact ha
  · exact s.stored_of_parent hp

end IrohLotus.Storage.MemStorage

namespace IrohLotus.State

open Std Outcome Forest IrohLotus.Wire IrohLotus.Storage

variable [Externals]

/-! ## The invariant -/

/-- The store of a chain over the world `W` whose log starts at `base`. -/
structure Coherent (W : World) (base : EnvelopeDigest) (s : MemStorage) : Prop where
  indexed : s.Indexed
  content : ∀ d e, s.envelope d = some e → e.toSignedPortion ∈ W.contents ∧ e.digest = .ok d
  accepted : ∀ d e, s.envelope d = some e → d ≠ base →
    ∃ p v v', s.Stored p ∧ W.StateOf p v ∧ Accepts p v e d v'
  base_stored : s.Stored base
  base_held : s.Held base
  versions : ∀ d v, s.versions[d]? = some v → s.Stored d ∧ W.StateOf d v

namespace Coherent

variable {W : World} {base : EnvelopeDigest} {s : MemStorage} (h : Coherent W base s)

include h

theorem prev_eq {d : EnvelopeDigest} {e : Envelope} (he : s.envelope d = some e) : W.prev d = e.prev :=
  World.prev_eq (h.content d e he).1 (h.content d e he).2

theorem «extends» : Extends s.parent W.prev := by
  intro c p hc
  obtain ⟨e, he, hp⟩ := s.parent_eq_some.1 hc
  rw [h.prev_eq he]; exact hp

theorem acyclic : Acyclic s.parent := World.acyclic.mono h.extends

theorem parent_stored {d p : EnvelopeDigest} (hp : s.parent d = some p) (hne : d ≠ base) : s.Stored p := by
  obtain ⟨e, he, hprev⟩ := s.parent_eq_some.1 hp
  obtain ⟨q, v, v', hq, -, hacc⟩ := h.accepted d e he hne
  rw [hacc.prev] at hprev; cases hprev
  exact hq

theorem exists_parent {d : EnvelopeDigest} (hd : s.Stored d) (hne : d ≠ base) :
    ∃ p, s.parent d = some p ∧ s.Stored p := by
  obtain ⟨e, he⟩ := hd
  obtain ⟨p, v, v', hp, -, hacc⟩ := h.accepted d e he hne
  exact ⟨p, by rw [s.parent_of_envelope he, hacc.prev], hp⟩

/-- Everything in the log descends from the base. -/
theorem desc {d : EnvelopeDigest} (hd : s.Stored d) : Desc s.parent base d := by
  induction d using h.acyclic.induction with
  | _ d ih =>
    by_cases hne : d = base
    · subst hne; exact Desc.refl
    · obtain ⟨p, hp, hps⟩ := h.exists_parent hd hne
      exact (ih p hp hps).child hp

/-- Everything in the log has a state. -/
theorem exists_state {d : EnvelopeDigest} (hd : s.Stored d) : ∃ v, W.StateOf d v := by
  by_cases hne : d = base
  · subst hne
    obtain ⟨v, hv⟩ := h.base_held
    exact ⟨v, (h.versions d v hv).2⟩
  · obtain ⟨e, he⟩ := hd
    obtain ⟨p, v, v', -, hv, hacc⟩ := h.accepted d e he hne
    exact ⟨v', World.StateOf.child hv (h.content d e he).1 hacc⟩

/-- The base is below nothing in the log. -/
theorem not_desc_base {d : EnvelopeDigest} (hd : s.Stored d) : s.parent base ≠ some d := by
  intro hp
  exact h.acyclic.not_desc_parent hp (h.desc hd)

theorem parent_eq {d : EnvelopeDigest} (hd : s.Stored d) : s.parent d = W.prev d := by
  obtain ⟨e, he⟩ := hd
  rw [s.parent_of_envelope he, h.prev_eq he]

/-- Between two envelopes of the log, the log holds what lies in between. -/
theorem desc_of_prev {a d : EnvelopeDigest} (ha : s.Stored a) (hd : s.Stored d) (hdesc : Desc W.prev a d) :
    Desc s.parent a d := by
  induction hdesc with
  | refl => exact Desc.refl
  | @tail p d hap hp ih =>
    have hps : s.parent d = some p := by rw [h.parent_eq hd]; exact hp
    by_cases hne : d = base
    · -- the base is an ancestor of `a`, so `a` cannot be strictly above it
      subst hne
      exact absurd (((h.desc ha).mono h.extends).trans hap) (World.acyclic.not_desc_parent hp)
    · exact (ih (h.parent_stored hps hne)).child hps

/-- What the version held at an envelope's parent says of it. -/
theorem accepted_at {d p : EnvelopeDigest} {e : Envelope} {v : Version} (he : s.envelope d = some e) (hne : d ≠ base)
    (hp : e.prev = some p) (hv : s.versions[p]? = some v) : ∃ v', Accepts p v e d v' ∧ W.StateOf d v' := by
  obtain ⟨q, w, v', -, hw, hacc⟩ := h.accepted d e he hne
  obtain rfl : q = p := by
    have := hacc.prev
    rw [hp] at this; exact (Option.some.inj this).symm
  obtain rfl := hw.unique (h.versions q v hv).2
  exact ⟨v', hacc, World.StateOf.child hw (h.content d e he).1 hacc⟩

end Coherent

/-- Over one world, two logs hold an envelope with the same status. -/
theorem Coherent.envelope_unique {W : World} {base base' d : EnvelopeDigest} {s t : MemStorage} {e e' : Envelope}
    (hs : Coherent W base s) (ht : Coherent W base' t) (he : s.envelope d = some e) (he' : t.envelope d = some e')
    (hne : d ≠ base) (hne' : d ≠ base') : e = e' := by
  obtain ⟨p, v, w, -, hv, hacc⟩ := hs.accepted d e he hne
  obtain ⟨p', v', w', -, hv', hacc'⟩ := ht.accepted d e' he' hne'
  have content := hs.content d e he
  have content' := ht.content d e' he'
  have hsame := W.laws.collisionFree _ content.1 _ content'.1 d content.2 content'.2
  obtain rfl : p' = p := by
    have := World.prev_of_accepts content.1 hacc
    rw [World.prev_of_accepts content'.1 hacc'] at this
    exact Option.some.inj this
  obtain rfl := hv.unique hv'
  exact (hacc.unique hacc' hsame).1

/-! ## Judging against a version held -/

section Judging

variable {s : MemStorage} {p d : EnvelopeDigest} {v v' : Version} {e : Envelope}

theorem verifyEnvelope_only (hv : s.versions[p]? = some v) (e : Envelope) :
    (Ledger.mk p).verifyEnvelope s e = (Ledger.mk p).verifyEnvelope (only p v) e :=
  Ledger.verifyEnvelope_congr (by rw [versions_only]; exact hv) e

theorem checked_only (hv : s.versions[p]? = some v) (e : Envelope) :
    (Ledger.mk p).checked s e = (Ledger.mk p).checked (only p v) e :=
  Ledger.checked_congr (by rw [versions_only]; exact hv) e

theorem apply_cases_at (hv : s.versions[p]? = some v) (e : Envelope) :
    (∃ head op v', (Ledger.mk p).checked s e = .ok (head, op) ∧ op.update (E := ApplyError) v = .ok v' ∧
      (Ledger.mk p).apply e s = (.ok ⟨head⟩, s.install head v')) ∨
    ∃ err, err ≠ .storage ∧ (Ledger.mk p).checked s e = .error (.error err) ∧
      (Ledger.mk p).apply e s = (.error (.error err), s) :=
  @Ledger.apply_cases _ s ⟨p⟩ v hv e

/-- An accepted envelope applies where its parent's state is held. -/
theorem Accepts.apply (h : Accepts p v e d v') (hv : s.versions[p]? = some v) :
    (Ledger.mk p).apply e s = (.ok ⟨d⟩, s.install d v') := by
  obtain ⟨op, hc, hu⟩ := h.checked
  exact Ledger.apply_eq_ok hv (by rw [checked_only hv]; exact hc) hu

end Judging

/-! ## What writes keep -/

namespace Coherent

variable {W : World} {base : EnvelopeDigest} {s : MemStorage} (h : Coherent W base s)

include h

/-- Installing the state of an envelope in the log. -/
theorem install {d : EnvelopeDigest} {v : Version} (hd : s.Stored d) (hv : W.StateOf d v) :
    Coherent W base (s.install d v) where
  indexed := h.indexed.install d v
  content := h.content
  accepted := h.accepted
  base_stored := h.base_stored
  base_held := by
    obtain ⟨w, hw⟩ := h.base_held
    unfold MemStorage.Held
    rw [MemStorage.versions_install]
    split
    · exact ⟨v, rfl⟩
    · exact ⟨w, hw⟩
  versions := by
    intro d' v' hv'
    rw [MemStorage.versions_install] at hv'
    split at hv'
    · rename_i heq
      cases hv'; subst heq
      exact ⟨hd, hv⟩
    · exact h.versions d' v' hv'

/-- The log with one new envelope, accepted on a version held, and its state beside it. -/
theorem put {p d : EnvelopeDigest} {e : Envelope} {v v' : Version} (hd : s.envelope d = none)
    (hv : s.versions[p]? = some v) (content : e.toSignedPortion ∈ W.contents) (hacc : Accepts p v e d v') :
    Coherent W base ((s.install d v').putEnvelope d e) := by
  obtain ⟨hps, hpv⟩ := h.versions p v hv
  have hstored : ∀ d', s.Stored d' → ((s.install d v').putEnvelope d e).Stored d' := by
    rintro d' ⟨e', he'⟩
    unfold MemStorage.Stored
    rw [MemStorage.envelope_putEnvelope]
    split
    · exact ⟨e, rfl⟩
    · exact ⟨e', he'⟩
  have hnew : ((s.install d v').putEnvelope d e).Stored d := ⟨e, by rw [MemStorage.envelope_putEnvelope, if_pos rfl]⟩
  refine ⟨?_, ?_, ?_, hstored base h.base_stored, ?_, ?_⟩
  · refine (h.indexed.install d v').putEnvelope fun e' he' => ?_
    rw [MemStorage.envelope_install, hd] at he'; cases he'
  · intro d' e' he'
    rw [MemStorage.envelope_putEnvelope] at he'
    split at he'
    · rename_i heq
      cases he'; subst heq
      exact ⟨content, hacc.digest⟩
    · exact h.content d' e' he'
  · intro d' e' he' hne
    rw [MemStorage.envelope_putEnvelope] at he'
    split at he'
    · rename_i heq
      cases he'; subst heq
      exact ⟨p, v, v', hstored p hps, hpv, hacc⟩
    · obtain ⟨q, w, w', hq, hw, hacc'⟩ := h.accepted d' e' he' hne
      exact ⟨q, w, w', hstored q hq, hw, hacc'⟩
  · obtain ⟨w, hw⟩ := h.base_held
    unfold MemStorage.Held
    rw [MemStorage.versions_putEnvelope, MemStorage.versions_install]
    split
    · exact ⟨v', rfl⟩
    · exact ⟨w, hw⟩
  · intro d' w hw
    rw [MemStorage.versions_putEnvelope, MemStorage.versions_install] at hw
    split at hw
    · rename_i heq
      cases hw; subst heq
      exact ⟨hnew, World.StateOf.child hpv content hacc⟩
    · exact ⟨hstored d' (h.versions d' w hw).1, (h.versions d' w hw).2⟩

/-- To the fork choice, a new envelope is a leaf added to the log. -/
theorem addLeaf {p d : EnvelopeDigest} {e : Envelope} {v v' : Version} (hd : s.envelope d = none)
    (hv : s.versions[p]? = some v) (content : e.toSignedPortion ∈ W.contents) (hacc : Accepts p v e d v') :
    AddLeaf s.parent ((s.install d v').putEnvelope d e).parent s.rank ((s.install d v').putEnvelope d e).rank p d := by
  have hprev := World.prev_of_accepts content hacc
  have hp := (h.versions p v hv).1
  refine ⟨by simp [MemStorage.parent, hd], fun c hc => ?_, World.acyclic.ne_parent hprev |>.symm, ?_, ?_, ?_⟩
  · -- only the base's parent can be missing from the log, and then `d` would be its own ancestor
    obtain rfl : c = base := by
      by_contra hne
      obtain ⟨e', he'⟩ := h.parent_stored hc hne
      rw [hd] at he'; cases he'
    have hdesc : Desc W.prev c d := ((h.desc hp).mono h.extends).child hprev
    exact World.acyclic.not_desc_parent (h.extends c d hc) hdesc
  · rw [MemStorage.parent_putEnvelope, if_pos rfl, hacc.prev]
  · intro c hc
    rw [MemStorage.parent_putEnvelope, if_neg (Ne.symm hc)]; rfl
  · intro c hc
    simp only [MemStorage.rank, MemStorage.weight, MemStorage.envelope_putEnvelope, if_neg (Ne.symm hc)]; rfl

end Coherent

end IrohLotus.State
