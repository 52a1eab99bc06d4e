/-
What the envelopes of a run determine, before any store: each content names its parent, and each
accepted envelope has one state, the fold of the messages on its path. The assumptions on digests
are about the contents that occur in the run, since no digest is collision-free on all of them.
-/
import IrohLotus.Lib.Forest
import IrohLotus.State.Rules
import IrohLotus.Wire.Sample

namespace IrohLotus.State

open Std Outcome Forest IrohLotus.Wire IrohLotus.Storage

variable [Externals]

/-! ## Contents -/

/-- Two contents of `contents` with one digest are one content. -/
def CollisionFree (contents : Set SignedPortion) : Prop :=
  ∀ a ∈ contents, ∀ b ∈ contents, ∀ d, a.digest = .ok d → b.digest = .ok d → a = b

/-- `p` is named as the previous digest by the content whose digest is `c`. -/
def Names (contents : Set SignedPortion) (p c : EnvelopeDigest) : Prop :=
  ∃ e ∈ contents, e.digest = .ok c ∧ e.payload.prevDigest = some p

/-- What a run relies on from the digest: no collisions, and no content among its own ancestors. -/
structure DigestLaws (contents : Set SignedPortion) : Prop where
  collisionFree : CollisionFree contents
  acyclic : WellFounded (Names contents)

/-! ## Acceptance -/

/-- On the state `v` of its parent `p`, the envelope verifies to the status it carries, passes every
check, has the digest `d` and makes the state `v'`. -/
structure Accepts (p : EnvelopeDigest) (v : Version) (e : Envelope) (d : EnvelopeDigest) (v' : Version) : Prop where
  verified : (Ledger.mk p).verifyEnvelope (only p v) e = .ok e.verificationStatus
  checked : ∃ op, (Ledger.mk p).checked (only p v) e = .ok (d, op) ∧ op.update (E := ApplyError) v = .ok v'

theorem verifyEnvelope_setVerificationStatus (ledger : Ledger) (s : MemStorage) (e : Envelope) (status : VerificationStatus) :
    ledger.verifyEnvelope s (e.setVerificationStatus status) = ledger.verifyEnvelope s e := rfl

namespace Accepts

variable {p d d' : EnvelopeDigest} {v v' v'' : Version} {e e' : Envelope}

theorem prev (h : Accepts p v e d v') : e.prev = some p := by
  obtain ⟨op, hc, -⟩ := h.checked
  exact (Ledger.checked_eq_ok hc).1

theorem digest (h : Accepts p v e d v') : e.digest = .ok d := by
  obtain ⟨op, hc, -⟩ := h.checked
  exact (Ledger.checked_eq_ok hc).2.1

theorem ruled (h : Accepts p v e d v') (hv : Ruled v) : Ruled v' := by
  obtain ⟨op, hc, hu⟩ := h.checked
  exact Ledger.checked_ruled (versions_only p v) hv hc hu

/-- One content is accepted with one status and makes one state. -/
theorem unique (h : Accepts p v e d v') (h' : Accepts p v e' d' v'') (he : e.toSignedPortion = e'.toSignedPortion) :
    e = e' ∧ v' = v'' := by
  have hs : e = e'.setVerificationStatus e.verificationStatus := Envelope.eq_setVerificationStatus he
  have hstatus : e.verificationStatus = e'.verificationStatus := by
    have hv := h.verified
    rw [hs, verifyEnvelope_setVerificationStatus, h'.verified] at hv
    exact (Except.ok.inj hv).symm
  obtain rfl : e = e' := by rw [hs, hstatus]; rfl
  obtain ⟨op, hc, hu⟩ := h.checked
  obtain ⟨op', hc', hu'⟩ := h'.checked
  rw [hc] at hc'; cases hc'
  rw [hu] at hu'; cases hu'
  exact ⟨rfl, rfl⟩

end Accepts

/-! ## The world of a run -/

/-- The contents of a run with what is relied on from their digests, and where its state starts: at
the checkpoint an `Init` carries, or at one that was adopted. -/
structure World where
  contents : Set SignedPortion
  laws : DigestLaws contents
  genesis : EnvelopeDigest
  state : Version
  ruled : Ruled state
  initial : ∀ e ∈ contents, e.digest = .ok genesis → ∀ msg, e.payload = .init msg →
    validateCheckpoint msg.state = .ok () ∧ state = msg.state.namespaces

namespace World

variable (W : World)

open Classical in
/-- The parent the content with digest `d` names. -/
noncomputable def prev (d : EnvelopeDigest) : Option EnvelopeDigest :=
  if h : ∃ e ∈ W.contents, e.digest = .ok d then h.choose.payload.prevDigest else none

variable {W}

theorem prev_eq {e : SignedPortion} {d : EnvelopeDigest} (he : e ∈ W.contents) (hd : e.digest = .ok d) :
    W.prev d = e.payload.prevDigest := by
  have hex : ∃ e ∈ W.contents, e.digest = .ok d := ⟨e, he, hd⟩
  unfold prev
  rw [dif_pos hex, W.laws.collisionFree _ hex.choose_spec.1 e he d hex.choose_spec.2 hd]

theorem names_of_prev {p d : EnvelopeDigest} (h : W.prev d = some p) : Names W.contents p d := by
  unfold prev at h
  split at h
  · rename_i hex
    exact ⟨hex.choose, hex.choose_spec.1, hex.choose_spec.2, h⟩
  · cases h

theorem prev_of_names {p d : EnvelopeDigest} (h : Names W.contents p d) : W.prev d = some p := by
  obtain ⟨e, he, hd, hp⟩ := h
  rw [prev_eq he hd]; exact hp

theorem acyclic : Acyclic W.prev := Subrelation.wf (fun h => names_of_prev h) W.laws.acyclic

/-- The state an accepted envelope's path folds to. -/
inductive StateOf (W : World) : EnvelopeDigest → Version → Prop
  | genesis : StateOf W W.genesis W.state
  | child {p d : EnvelopeDigest} {v v' : Version} {e : Envelope} (parent : StateOf W p v)
    (content : e.toSignedPortion ∈ W.contents) (accepts : Accepts p v e d v') : StateOf W d v'

variable {d p : EnvelopeDigest} {v v' : Version}

theorem prev_of_accepts {e : Envelope} (content : e.toSignedPortion ∈ W.contents) (h : Accepts p v e d v') :
    W.prev d = some p := by
  rw [prev_eq content h.digest]; exact h.prev

theorem StateOf.desc (h : W.StateOf d v) : Desc W.prev W.genesis d := by
  induction h with
  | genesis => exact Desc.refl
  | child _ content accepts ih => exact ih.child (prev_of_accepts content accepts)

theorem StateOf.ruled (h : W.StateOf d v) : Ruled v := by
  induction h with
  | genesis => exact W.ruled
  | child _ _ accepts ih => exact accepts.ruled ih

theorem StateOf.ne_genesis {e : Envelope} (h : W.StateOf p v) (content : e.toSignedPortion ∈ W.contents)
    (accepts : Accepts p v e d v') : d ≠ W.genesis := by
  rintro rfl
  exact acyclic.not_desc_parent (prev_of_accepts content accepts) h.desc

/-- A digest has one state. -/
theorem StateOf.unique (h : W.StateOf d v) (h' : W.StateOf d v') : v = v' := by
  induction h generalizing v' with
  | genesis =>
    generalize hg : W.genesis = g at h'
    cases h' with
    | genesis => rfl
    | child parent content accepts => exact absurd hg.symm (parent.ne_genesis content accepts)
  | @child p d v w e parent content accepts ih =>
    cases h' with
    | genesis => exact absurd rfl (parent.ne_genesis content accepts)
    | @child p' _ v₁ _ e' parent' content' accepts' =>
      have hsame := W.laws.collisionFree _ content _ content' d accepts.digest accepts'.digest
      obtain rfl : p = p' := by
        have := prev_of_accepts content accepts
        rw [prev_of_accepts content' accepts'] at this
        exact (Option.some.inj this).symm
      obtain rfl := ih parent'
      exact (accepts.unique accepts' hsame).2

/-- An `Init` that has a state is genesis. -/
theorem StateOf.init_eq {e : SignedPortion} {msg : InitMsg} (h : W.StateOf d v) (content : e ∈ W.contents)
    (hd : e.digest = .ok d) (hmsg : e.payload = .init msg) :
    d = W.genesis ∧ validateCheckpoint msg.state = .ok () ∧ v = msg.state.namespaces := by
  cases h with
  | genesis =>
    obtain ⟨hcheck, hstate⟩ := W.initial e content hd msg hmsg
    exact ⟨rfl, hcheck, hstate⟩
  | child parent content' accepts =>
    have hprev := prev_of_accepts content' accepts
    rw [prev_eq content hd, hmsg] at hprev
    cases hprev

/-- The state of a digest that is not genesis was made by accepting its content on its parent's. -/
theorem StateOf.exists_parent (h : W.StateOf d v) (hne : d ≠ W.genesis) :
    ∃ p w e, W.StateOf p w ∧ e.toSignedPortion ∈ W.contents ∧ Accepts p w e d v := by
  cases h with
  | genesis => exact absurd rfl hne
  | @child p _ w _ e parent content accepts => exact ⟨p, w, e, parent, content, accepts⟩

/-- So was the state of anything strictly below a digest that has one. -/
theorem StateOf.exists_parent_of_desc {a : EnvelopeDigest} (h : W.StateOf d v) (ha : ∃ w, W.StateOf a w)
    (hdesc : Desc W.prev a d) (hne : d ≠ a) :
    ∃ p w e, W.StateOf p w ∧ e.toSignedPortion ∈ W.contents ∧ Accepts p w e d v := by
  refine h.exists_parent ?_
  rintro rfl
  obtain ⟨w, hw⟩ := ha
  exact hne (acyclic.antisymm hw.desc hdesc)

end World

end IrohLotus.State

/-! ## The samples -/

namespace IrohLotus.State

open Std Outcome Forest IrohLotus.Wire IrohLotus.Wire.Sample

/-- The parent a sample names comes before it in the table. -/
theorem sample_names {p c : EnvelopeDigest} (h : Names Sample.contents p c) :
    (table.map Prod.snd).idxOf p < (table.map Prod.snd).idxOf c := by
  have hrow : ∀ e ∈ table.map Prod.fst, (e.digest.toOption.elim true fun c => e.payload.prevDigest.elim true fun p =>
      (table.map Prod.snd).idxOf p < (table.map Prod.snd).idxOf c) = true := by
    decide +kernel
  obtain ⟨e, he, hd, hp⟩ := h
  have := hrow e he
  rw [hd, hp] at this
  exact of_decide_eq_true this

theorem sample_laws : DigestLaws Sample.contents where
  collisionFree := by
    have hall : ∀ a ∈ table.map Prod.fst, ∀ b ∈ table.map Prod.fst, a.digest = b.digest → a = b := by
      decide +kernel
    intro a ha b hb d hda hdb
    exact hall a ha b hb (hda.trans hdb.symm)
  acyclic := Subrelation.wf (fun h => sample_names h) (measure fun d => (table.map Prod.snd).idxOf d).wf

end IrohLotus.State
