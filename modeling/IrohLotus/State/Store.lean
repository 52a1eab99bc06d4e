/-
What `store_batch` does to a coherent store. One envelope is refused, was there already, has its
version derived again, or is stored as a new leaf with its state; in a batch it fares as it would
alone, because the trial the batch carries stands where the store could be opened anyway.
-/
import IrohLotus.State.Walk

namespace IrohLotus.State.Chain

open Std Outcome Forest IrohLotus.Wire IrohLotus.Storage

variable [Externals]

/-! ## One envelope -/

section Judge

variable {s t : MemStorage} {e : Envelope} {p d : EnvelopeDigest} {ledger next : Ledger}

omit [Externals] in
theorem read_held (hd : s.Held d) : Action.read (E := Error) (fun s => pure (s.containsVersion d)) s = (.ok true, s) := by
  rw [Action.read, s.held_iff.2 hd]; rfl

omit [Externals] in
theorem read_not_held (hd : ¬ s.Held d) :
    Action.read (E := Error) (fun s => pure (s.containsVersion d)) s = (.ok false, s) := by
  rw [Action.read, s.not_held_iff.2 hd]; rfl

/-- An envelope whose version is held and whose record is in the log changes nothing. -/
theorem judge_held (hd : s.Held d) (parent : Option Ledger) : judge e p d true parent s = (.ok (some ⟨d⟩), s) := by
  have hopen : Action.read (fun s => Ledger.open s d) s = (.ok ⟨d⟩, s) := by
    rw [Action.read, ledger_open_eq_ok hd]
  unfold judge
  cases parent <;>
  · simp only [pure_bind]
    rw [Action.bind_ok (read_held hd)]
    simp only [Bool.not_true, Bool.false_and, if_true, Bool.false_eq_true, if_false]
    rw [Action.bind_ok hopen]; rfl

/-- Without its parent's version a stored envelope is left as it is. -/
theorem judge_stored_orphan (hd : ¬ s.Held d) : judge e p d true none s = (.ok none, s) := by
  unfold judge
  simp only [pure_bind]
  rw [Action.bind_ok (read_not_held hd)]; rfl

/-- Without its parent's version a new envelope is refused. -/
theorem judge_new_orphan (hd : ¬ s.Held d) : judge e p d false none s = (.error (.error (.unknownParent p)), s) := by
  unfold judge
  simp only [pure_bind]
  rw [Action.bind_ok (read_not_held hd)]; rfl

/-- A stored envelope without a version has it derived again, if it applies as it arrived. -/
theorem judge_stored_ok (hd : ¬ s.Held d) (happ : ledger.apply e s = (.ok next, t)) :
    judge e p d true (some ledger) s = (.ok (some next), t) := by
  unfold judge
  simp only [pure_bind]
  rw [Action.bind_ok (read_not_held hd), if_neg Bool.false_ne_true, Action.bind_ok (Action.attempt_ok happ)]; rfl

/-- A stored envelope that does not apply as it arrived is left as it is. -/
theorem judge_stored_error {err : ApplyError} (hd : ¬ s.Held d) (herr : err ≠ .storage)
    (happ : ledger.apply e s = (.error (.error err), s)) : judge e p d true (some ledger) s = (.ok none, s) := by
  unfold judge
  simp only [pure_bind]
  rw [Action.bind_ok (read_not_held hd), if_neg Bool.false_ne_true, Action.bind_ok (Action.attempt_error happ)]
  cases err <;> first | exact absurd rfl herr | rfl

theorem judge_new_unverified {err : ApplyError} (hver : ledger.verifyEnvelope s e = .error (.error err)) :
    judge e p d false (some ledger) s = (.error (.error (.apply err)), s) := by
  have hread : Action.read (fun s => (ledger.verifyEnvelope s e).mapErr Error.apply) s =
      (.error (.error (.apply err)), s) := by
    rw [Action.read, hver]; rfl
  unfold judge
  simp only
  rw [Action.bind_error hread]

/-- A new envelope is verified, then judged with the status it verified to. -/
theorem judge_new_verified {status : VerificationStatus} (hd : ¬ s.Held d)
    (hver : ledger.verifyEnvelope s e = .ok status) : judge e p d false (some ledger) s = (do
      match ← Action.attempt (ledger.apply (e.setVerificationStatus status)) with
      | .ok ledger => do
        Action.write fun s => pure (s.putEnvelope d (e.setVerificationStatus status))
        pure (some ledger)
      | .error .storage => Action.fail .storage
      | .error err => Action.fail (.apply err) : Action MemStorage Error (Option Ledger)) s := by
  have hread : Action.read (fun s => (ledger.verifyEnvelope s e).mapErr Error.apply) s = (.ok status, s) := by
    rw [Action.read, hver]; rfl
  unfold judge
  simp only
  rw [Action.bind_ok hread]
  simp only [pure_bind]
  rw [Action.bind_ok (read_not_held hd), if_neg Bool.false_ne_true]
  rfl

theorem judge_new_ok {status : VerificationStatus} (hd : ¬ s.Held d) (hver : ledger.verifyEnvelope s e = .ok status)
    (happ : ledger.apply (e.setVerificationStatus status) s = (.ok next, t)) :
    judge e p d false (some ledger) s = (.ok (some next), t.putEnvelope d (e.setVerificationStatus status)) := by
  rw [judge_new_verified hd hver, Action.bind_ok (Action.attempt_ok happ)]; rfl

theorem judge_new_error {status : VerificationStatus} {err : ApplyError} (hd : ¬ s.Held d)
    (hver : ledger.verifyEnvelope s e = .ok status) (herr : err ≠ .storage)
    (happ : ledger.apply (e.setVerificationStatus status) s = (.error (.error err), s)) :
    judge e p d false (some ledger) s = (.error (.error (.apply err)), s) := by
  rw [judge_new_verified hd hver, Action.bind_ok (Action.attempt_error happ)]
  cases err <;> first | exact absurd rfl herr | rfl

end Judge

/-! ## One envelope of a batch -/

/-- The trial a batch carries stands at the last envelope, whose version is held. -/
def Footed (s : MemStorage) (batch : Batch) : Prop :=
  ∀ ledger, batch.trial = some ledger → batch.last = some ledger.head ∧ s.Held ledger.head

/-- The envelope chains onto the last one of the batch, if there was one. -/
def Chains (batch : Batch) (e : Envelope) : Prop := ∀ l, batch.last = some l → e.prev = some l

/-- The ledger the store itself could open at `p`. -/
def ledgerAt (s : MemStorage) (p : EnvelopeDigest) : Option Ledger := if s.containsVersion p then some ⟨p⟩ else none

section StoreOne

variable {s : MemStorage} {batch : Batch} {e : Envelope} {p d : EnvelopeDigest}

omit [Externals] in
theorem footed_start : Footed s Batch.start := nofun

omit [Externals] in
theorem chains_start : Chains Batch.start e := nofun

omit [Externals] in
theorem ledgerAt_held (h : s.Held p) : ledgerAt s p = some ⟨p⟩ := by
  unfold ledgerAt; rw [if_pos (s.held_iff.2 h)]

omit [Externals] in
theorem ledgerAt_not_held (h : ¬ s.Held p) : ledgerAt s p = none := by
  unfold ledgerAt; rw [if_neg (mt s.held_iff.1 h)]

omit [Externals] in
/-- The trial of a batch is what the store could open anyway. -/
theorem footing_eq_ok (hf : Footed s batch) (hc : Chains batch e) (hp : e.prev = some p) :
    footing batch s p = .ok (ledgerAt s p) := by
  unfold footing
  cases htrial : batch.trial with
  | some ledger =>
    obtain ⟨hlast, hheld⟩ := hf ledger htrial
    obtain rfl : ledger.head = p := by
      have := hc _ hlast
      rw [hp] at this; exact (Option.some.inj this).symm
    rw [ledgerAt_held hheld]; rfl
  | none =>
    by_cases hheld : s.Held p
    · rw [ledgerAt_held hheld]
      simp only [s.held_iff.2 hheld, if_true, ledger_open_eq_ok hheld]; rfl
    · rw [ledgerAt_not_held hheld]
      simp only [s.not_held_iff.2 hheld]; rfl

omit [Externals] in
theorem read_prev (hp : e.prev = some p) :
    Action.ofRes (Res.okOr e.prev (Error.apply .unexpectedInit)) s = (.ok p, s) := by
  rw [hp]; rfl

omit [Externals] in
theorem Chains.filter (hc : Chains batch e) (hp : e.prev = some p) : batch.last.filter (· ≠ p) = none := by
  cases hl : batch.last with
  | none => rfl
  | some l =>
    have := hc l hl
    rw [hp] at this; cases this
    simp

/-- An envelope that chains onto the batch is judged against what the store holds. -/
theorem storeOne_eq (hf : Footed s batch) (hc : Chains batch e) (hp : e.prev = some p) (hd : e.digest = .ok d) :
    storeOne batch e s = (do
      let trial ← judge e p d (s.envelope d).isSome (ledgerAt s p)
      pure { trial, last := some d, allDuplicates := batch.allDuplicates && (s.envelope d).isSome } :
        Action MemStorage Error Batch) s := by
  have hdigest : Action.ofRes (Res.ofExcept Error.wire e.digest) s = (.ok d, s) := by
    rw [hd]; rfl
  have hstored : Action.read (E := Error) (fun s => pure (s.envelope d).isSome) s = (.ok (s.envelope d).isSome, s) := rfl
  have hfoot : Action.read (fun s => footing batch s p) s = (.ok (ledgerAt s p), s) := by
    rw [Action.read, footing_eq_ok hf hc hp]
  unfold storeOne
  rw [Action.bind_ok (read_prev hp)]
  simp only [hc.filter hp]
  rw [Action.bind_ok hdigest, Action.bind_ok hstored, Action.bind_ok hfoot]

theorem storeOne_init (hp : e.prev = none) : storeOne batch e s = (.error (.error (.apply .unexpectedInit)), s) := by
  have hprev : Action.ofRes (Res.okOr e.prev (Error.apply .unexpectedInit)) s =
      (.error (.error (.apply .unexpectedInit)), s) := by
    rw [hp]; rfl
  unfold storeOne
  rw [Action.bind_error hprev]

theorem storeOne_wire {err : WireError} (hc : Chains batch e) (hp : e.prev = some p) (hd : e.digest = .error err) :
    storeOne batch e s = (.error (.error (.wire err)), s) := by
  have hdigest : Action.ofRes (Res.ofExcept Error.wire e.digest) s = (.error (.error (.wire err)), s) := by
    rw [hd]; rfl
  unfold storeOne
  rw [Action.bind_ok (read_prev hp)]
  simp only [hc.filter hp]
  rw [Action.bind_error hdigest]

theorem storeOne_mismatch {l : EnvelopeDigest} (hl : batch.last = some l) (hp : e.prev = some p) (hne : l ≠ p) :
    storeOne batch e s = (.error (.error (.apply (.chainMismatch l p))), s) := by
  have hfilter : batch.last.filter (· ≠ p) = some l := by
    rw [hl]; simp [hne]
  unfold storeOne
  rw [Action.bind_ok (read_prev hp)]
  simp only [hfilter]
  rfl

end StoreOne

/-! ## What a coherent store makes of an envelope -/

/-- What storing envelopes of `W` can write: a version that was missing, or a new envelope accepted
on the version its parent holds, together with its own. -/
inductive Wrote (W : World) (s : MemStorage) : MemStorage → Prop
  | version {d : EnvelopeDigest} {v : Version} (stored : s.Stored d) (fresh : ¬ s.Held d) (state : W.StateOf d v) :
    Wrote W s (s.install d v)
  | envelope {p d : EnvelopeDigest} {v v' : Version} {e : Envelope} (fresh : s.envelope d = none)
    (parent : s.versions[p]? = some v) (content : e.toSignedPortion ∈ W.contents) (accepts : Accepts p v e d v') :
    Wrote W s ((s.install d v').putEnvelope d e)

section Coherent

variable {W : World} {base : EnvelopeDigest} {s t : MemStorage} {e : Envelope} {p d : EnvelopeDigest}

/-- The message alone says what an envelope makes of its parent's state. -/
theorem update_of_accepts {e' : Envelope} {v v' w : Version} {op : NamespaceOp} (hv : s.versions[p]? = some v)
    (hc : (Ledger.mk p).checked s e = .ok (d, op)) (hu : op.update (E := ApplyError) v = .ok v') (hacc : Accepts p v e' d w)
    (hsame : e.toSignedPortion = e'.toSignedPortion) : v' = w := by
  obtain ⟨op', hc', hu'⟩ := hacc.checked
  obtain ⟨-, -, -, hm, -⟩ := Ledger.checked_eq_ok hc
  obtain ⟨-, -, -, hm', -⟩ := Ledger.checked_eq_ok hc'
  have hop := (Ledger.validateMsg_eq_ok (E := ApplyError) hv hm).1
  have hop' := (Ledger.validateMsg_eq_ok (E := ApplyError) (versions_only p v) hm').1
  rw [← hsame, hop] at hop'
  cases hop'
  rw [hu] at hu'
  cases hu'
  rfl

/-- What an envelope in the log makes of its parent's state does not depend on the status it is
judged with. -/
theorem state_of_checked (hco : Coherent W base s) (content : e.toSignedPortion ∈ W.contents) {v v' : Version}
    {op : NamespaceOp} (hv : s.versions[p]? = some v) (hc : (Ledger.mk p).checked s e = .ok (d, op))
    (hu : op.update (E := ApplyError) v = .ok v') (hstored : s.Stored d) (hheld : ¬ s.Held d) : W.StateOf d v' := by
  obtain ⟨e', he'⟩ := hstored
  obtain ⟨hp, hd, -⟩ := Ledger.checked_eq_ok hc
  obtain ⟨content', hd'⟩ := hco.content d e' he'
  have hsame := W.laws.collisionFree _ content _ content' d hd hd'
  have hne : d ≠ base := by rintro rfl; exact hheld hco.base_held
  have hp' : e'.prev = some p := by
    rw [← hp]; simp only [Envelope.prev, hsame]
  obtain ⟨w, hacc, hw⟩ := hco.accepted_at he' hne hp' hv
  rw [update_of_accepts hv hc hu hacc hsame]
  exact hw

/-- The fate of a new envelope whose parent's version is held is decided by acceptance. -/
theorem judge_new {v : Version} (hv : s.versions[p]? = some v) (hheld : ¬ s.Held d) (hd : e.digest = .ok d) :
    (∃ err, judge e p d false (some ⟨p⟩) s = (.error (.error (.apply err)), s) ∧
      ∀ status v', ¬ Accepts p v (e.setVerificationStatus status) d v') ∨
    ∃ v' status, judge e p d false (some ⟨p⟩) s =
        (.ok (some ⟨d⟩), (s.install d v').putEnvelope d (e.setVerificationStatus status)) ∧
      Accepts p v (e.setVerificationStatus status) d v' := by
  have hret : Ledger.Judged ((Ledger.mk p).verifyEnvelope s e) := Ledger.returns_verifyEnvelope hv e
  have hverified : ∀ status v', Accepts p v (e.setVerificationStatus status) d v' →
      (Ledger.mk p).verifyEnvelope s e = .ok status := by
    intro status v' hacc
    rw [verifyEnvelope_only hv]; exact hacc.verified
  rcases hver : (Ledger.mk p).verifyEnvelope s e with (err | _ | _) | status
  · refine .inl ⟨_, judge_new_unverified hver, fun status v' hacc => ?_⟩
    have := hverified status v' hacc
    rw [hver] at this; cases this
  · rw [hver] at hret; exact hret.elim
  · rw [hver] at hret; exact hret.elim
  · rcases apply_cases_at hv (e.setVerificationStatus status) with ⟨head, op, v', hc, hu, happ⟩ | ⟨err, herr, hc, happ⟩
    · obtain rfl : head = d := by
        have := (Ledger.checked_eq_ok hc).2.1
        rw [Envelope.digest_setVerificationStatus, hd] at this; exact (Except.ok.inj this).symm
      refine .inr ⟨v', status, judge_new_ok hheld hver happ, ?_, op, ?_, hu⟩
      · rw [← verifyEnvelope_only hv]; exact hver
      · rw [← checked_only hv]; exact hc
    · refine .inl ⟨_, judge_new_error hheld hver herr happ, fun status' v' hacc => ?_⟩
      have := hverified status' v' hacc
      rw [hver] at this; cases this
      obtain ⟨op, hc', -⟩ := hacc.checked
      rw [checked_only hv, hc'] at hc; cases hc

/-- The four fates of an envelope: refused, there already, given its version again, or new. -/
theorem judge_cases (hco : Coherent W base s) (content : e.toSignedPortion ∈ W.contents) (hd : e.digest = .ok d) :
    (∃ err, judge e p d (s.envelope d).isSome (ledgerAt s p) s = (.error (.error err), s) ∧ s.envelope d = none ∧
      ∀ v status v', s.versions[p]? = some v → ¬ Accepts p v (e.setVerificationStatus status) d v') ∨
    (∃ trial, judge e p d (s.envelope d).isSome (ledgerAt s p) s = (.ok trial, s) ∧ s.Stored d ∧
      ∀ ledger, trial = some ledger → ledger = ⟨d⟩ ∧ s.Held d) ∨
    (∃ v', judge e p d (s.envelope d).isSome (ledgerAt s p) s = (.ok (some ⟨d⟩), s.install d v') ∧ s.Stored d ∧
      ¬ s.Held d ∧ W.StateOf d v' ∧ s.Held p) ∨
    ∃ v v' status, judge e p d (s.envelope d).isSome (ledgerAt s p) s =
        (.ok (some ⟨d⟩), (s.install d v').putEnvelope d (e.setVerificationStatus status)) ∧
      s.envelope d = none ∧ s.versions[p]? = some v ∧ Accepts p v (e.setVerificationStatus status) d v' := by
  cases henv : s.envelope d with
  | some e' =>
    have hstored : s.Stored d := ⟨e', henv⟩
    rw [Option.isSome_some]
    by_cases hheld : s.Held d
    · exact .inr (.inl ⟨_, judge_held hheld _, hstored, fun ledger hl => by cases hl; exact ⟨rfl, hheld⟩⟩)
    · by_cases hpheld : s.Held p
      · rw [ledgerAt_held hpheld]
        obtain ⟨v, hv⟩ := hpheld
        rcases apply_cases_at hv e with ⟨head, op, v', hc, hu, happ⟩ | ⟨err, herr, -, happ⟩
        · obtain rfl : head = d := by
            have := (Ledger.checked_eq_ok hc).2.1
            rw [hd] at this; exact (Except.ok.inj this).symm
          exact .inr (.inr (.inl ⟨v', judge_stored_ok hheld happ, hstored, hheld,
            state_of_checked hco content hv hc hu hstored hheld, v, hv⟩))
        · exact .inr (.inl ⟨none, judge_stored_error hheld herr happ, hstored, nofun⟩)
      · rw [ledgerAt_not_held hpheld]
        exact .inr (.inl ⟨none, judge_stored_orphan hheld, hstored, nofun⟩)
  | none =>
    have hheld : ¬ s.Held d := by
      rintro ⟨v, hv⟩
      obtain ⟨e', he'⟩ := (hco.versions d v hv).1
      rw [henv] at he'; cases he'
    rw [Option.isSome_none]
    by_cases hpheld : s.Held p
    · rw [ledgerAt_held hpheld]
      obtain ⟨v, hv⟩ := hpheld
      rcases judge_new hv hheld hd with ⟨err, hj, hno⟩ | ⟨v', status, hj, hacc⟩
      · refine .inl ⟨.apply err, hj, rfl, fun w status v' hw => ?_⟩
        rw [hv] at hw; cases hw
        exact hno status v'
      · exact .inr (.inr (.inr ⟨v, v', status, hj, rfl, hv, hacc⟩))
    · rw [ledgerAt_not_held hpheld]
      refine .inl ⟨_, judge_new_orphan hheld, rfl, fun v status v' hv => absurd ⟨v, hv⟩ hpheld⟩

namespace Wrote

variable (h : Wrote W s t)

include h

theorem coherent (hco : Coherent W base s) : Coherent W base t := by
  cases h with
  | version stored _ state => exact hco.install stored state
  | envelope fresh parent content accepts => exact hco.put fresh parent content accepts

theorem logGrows : s.LogGrows t := by
  cases h with
  | version => exact fun _ _ he => he
  | @envelope p d v v' e fresh parent content accepts =>
    intro d' e' he'
    rw [MemStorage.envelope_putEnvelope, if_neg]
    · exact he'
    · rintro rfl; rw [fresh] at he'; cases he'

theorem grows (hco : Coherent W base s) : s.Grows t := by
  cases h with
  | version _ fresh _ => exact s.grows_install fresh _
  | @envelope p d v v' e fresh parent content accepts =>
    refine s.grows_install ?_ v'
    rintro ⟨w, hw⟩
    obtain ⟨e', he'⟩ := (hco.versions d w hw).1
    rw [fresh] at he'; cases he'

/-- The path stays held: a new envelope comes with its version. -/
theorem pathHeld (hco : Coherent W base s) (hpath : PathHeld base s) : PathHeld base t := by
  intro y hy
  cases h with
  | version stored fresh state => exact (s.grows_install fresh _).held (hpath y hy)
  | @envelope p d v v' e fresh parent content accepts =>
    have hg : s.Grows ((s.install d v').putEnvelope d e) := (Wrote.envelope fresh parent content accepts).grows hco
    rcases (hco.addLeaf fresh parent content accepts).canonical hy with hy | ⟨rfl, -⟩
    · exact hg.held (hpath y hy)
    · exact ⟨v', by rw [MemStorage.versions_putEnvelope, MemStorage.versions_install, if_pos rfl]⟩

end Wrote

/-- One envelope of a batch on a coherent store: refused with nothing written, or its digest is all
the log can have gained and the batch still stands on a version held. -/
theorem storeOne_cases {batch : Batch} (hco : Coherent W base s) (hf : Footed s batch)
    (content : e.toSignedPortion ∈ W.contents) :
    (∃ err, storeOne batch e s = (.error (.error err), s)) ∨
    ∃ batch' d t, storeOne batch e s = (.ok batch', t) ∧ (t = s ∨ Wrote W s t) ∧ Footed t batch' ∧
      e.digest = .ok d ∧ batch'.last = some d ∧ (∀ x, t.Stored x ↔ s.Stored x ∨ x = d) ∧
      (s.HeldFrom base → t.HeldFrom base) := by
  cases hp : e.prev with
  | none => exact .inl ⟨_, storeOne_init hp⟩
  | some p =>
    by_cases hc : Chains batch e
    · cases hd : e.digest with
      | error err => exact .inl ⟨_, storeOne_wire hc hp hd⟩
      | ok d =>
        have hsame : s.Stored d → ∀ x, s.Stored x ↔ s.Stored x ∨ x = d := by
          intro hstored x
          refine ⟨.inl, ?_⟩
          rintro (hx | rfl)
          · exact hx
          · exact hstored
        rw [storeOne_eq hf hc hp hd]
        rcases judge_cases (p := p) hco content hd with
          ⟨err, hj, -, -⟩ | ⟨trial, hj, hstored, htrial⟩ | ⟨v', hj, hstored, hheld, hstate, hpheld⟩ |
          ⟨v, v', status, hj, hfresh, hv, hacc⟩
        · exact .inl ⟨err, Action.bind_error hj _⟩
        · refine .inr ⟨_, d, s, Action.bind_ok hj _, .inl rfl, fun ledger hl => ?_, rfl, rfl, hsame hstored, id⟩
          obtain ⟨rfl, hheld⟩ := htrial ledger hl
          exact ⟨rfl, hheld⟩
        · refine .inr ⟨_, d, _, Action.bind_ok hj _, .inr (.version hstored hheld hstate), fun ledger hl => ?_, rfl, rfl,
            hsame hstored, fun h => h.install ?_ hpheld hheld v'⟩
          · cases hl
            exact ⟨rfl, v', by rw [MemStorage.versions_install, if_pos rfl]⟩
          · rw [hco.parent_eq hstored, World.prev_eq content hd]; exact hp
        · refine .inr ⟨_, d, _, Action.bind_ok hj _, .inr (.envelope hfresh hv content hacc), fun ledger hl => ?_, rfl, rfl,
            fun x => ?_, fun h => h.put (fun ⟨w, hw⟩ => (hco.versions d w hw).1) hfresh hacc.prev ⟨v, hv⟩ v'⟩
          · cases hl
            exact ⟨rfl, v', by rw [MemStorage.versions_putEnvelope, MemStorage.versions_install, if_pos rfl]⟩
          · simp only [MemStorage.Stored, MemStorage.envelope_putEnvelope, MemStorage.envelope_install]
            by_cases hx : d = x
            · subst hx; simp
            · simp [if_neg hx, Ne.symm hx]
    · obtain ⟨l, hl, hne⟩ : ∃ l, batch.last = some l ∧ e.prev ≠ some l := by
        unfold Chains at hc
        push Not at hc
        exact hc
      refine .inl ⟨_, storeOne_mismatch hl hp ?_⟩
      rintro rfl; exact hne hp

/-- Where the version of its parent is held, an envelope is refused only for what it says itself. -/
theorem storeOne_held {batch : Batch} {err : Error} (hco : Coherent W base s) (hf : Footed s batch) (hc : Chains batch e)
    (content : e.toSignedPortion ∈ W.contents) (hp : e.prev = some p) (hd : e.digest = .ok d) (hheld : s.Held p)
    (h : storeOne batch e s = (.error (.error err), t)) : ∃ a, err = .apply a := by
  rw [storeOne_eq hf hc hp hd] at h
  cases henv : s.envelope d with
  | some e' =>
    rcases judge_cases (p := p) hco content hd with ⟨_, -, hnone, -⟩ | ⟨_, hj, -⟩ | ⟨_, hj, -⟩ | ⟨_, _, _, hj, -⟩
    · rw [henv] at hnone; cases hnone
    all_goals rw [Action.bind_ok hj] at h; cases h
  | none =>
    have hdheld : ¬ s.Held d := by
      rintro ⟨v, hv⟩
      obtain ⟨e', he'⟩ := (hco.versions d v hv).1
      rw [henv] at he'; cases he'
    rw [henv, ledgerAt_held hheld] at h
    obtain ⟨v, hv⟩ := hheld
    rcases judge_new hv hdheld hd with ⟨a, hj, -⟩ | ⟨v', status, hj, -⟩
    · rw [Option.isSome_none, Action.bind_error hj] at h
      cases h
      exact ⟨a, rfl⟩
    · rw [Option.isSome_none, Action.bind_ok hj] at h
      cases h

end Coherent

end IrohLotus.State.Chain
