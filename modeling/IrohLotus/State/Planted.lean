/-
What a node reopened in the middle of a compaction works on: below its root the log has holes, and
versions whose envelopes are gone, but from the root on it is whole. Inserting keeps it so, and so
does compacting at a cut above the root, finished or stopped anywhere.
-/
import IrohLotus.State.Failure

namespace IrohLotus.State

open Std Outcome Forest IrohLotus.Wire IrohLotus.Storage

variable [Externals]

/-- The store `s` over the world `W` is whole from `root` on: what descends from it is in the log with
everything in between, and is held only where it is in the log. -/
structure Planted (W : World) (root : EnvelopeDigest) (s : MemStorage) : Prop extends Sound W.contents s where
  accepted : ∀ d e, s.envelope d = some e → d ≠ W.genesis → ∃ p v v', W.StateOf p v ∧ Accepts p v e d v'
  states : ∀ (d : EnvelopeDigest) v, s.versions[d]? = some v → W.StateOf d v
  root_stored : s.Stored root
  linked : ∀ d p, s.Stored d → Desc W.prev root d → d ≠ root → W.prev d = some p → s.Stored p
  held_stored : ∀ d, s.Held d → Desc W.prev root d → s.Stored d

namespace Planted

variable {W : World} {root d p : EnvelopeDigest} {s t : MemStorage} {e : Envelope} {v : Version} (h : Planted W root s)

include h

theorem parent_eq (hd : s.Stored d) : s.parent d = W.prev d := by
  obtain ⟨e, he⟩ := hd
  rw [s.parent_of_envelope he, World.prev_eq (h.content d e he).1 (h.content d e he).2]; rfl

theorem «extends» : Extends s.parent W.prev := by
  intro c p hc
  rw [← h.parent_eq (s.stored_of_parent hc)]; exact hc

theorem acyclic : Acyclic s.parent := World.acyclic.mono h.extends

/-- From the root on, the log holds what lies on the way to an envelope of it. -/
theorem desc_of_prev (hd : s.Stored d) (hroot : Desc W.prev root d) {a : EnvelopeDigest} (ha : Desc W.prev root a)
    (hdesc : Desc W.prev a d) : Desc s.parent a d := by
  induction hdesc with
  | refl => exact Desc.refl
  | @tail p d hap hp ih =>
    have hne : d ≠ root := by
      rintro rfl
      exact World.acyclic.not_desc_parent hp (ha.trans hap)
    have hps : s.parent d = some p := (h.parent_eq hd).trans hp
    exact (ih (h.linked d p hd hroot hne hp) (hroot.of_parent hne hp)).child hps

/-- An envelope of the log was accepted on whatever version its parent holds. -/
theorem accepted_at (he : s.envelope d = some e) (hp : e.prev = some p) (hv : s.versions[p]? = some v) :
    ∃ v', Accepts p v e d v' ∧ W.StateOf d v' := by
  have hprev : W.prev d = some p := (World.prev_eq (h.content d e he).1 (h.content d e he).2).trans hp
  have hne : d ≠ W.genesis := by
    rintro rfl
    exact World.acyclic.not_desc_parent hprev (h.states p v hv).desc
  obtain ⟨q, w, v', hw, hacc⟩ := h.accepted d e he hne
  obtain rfl : q = p := Option.some.inj (hacc.prev.symm.trans hp)
  obtain rfl := hw.unique (h.states q v hv)
  exact ⟨v', hacc, hw.child (h.content d e he).1 hacc⟩

/-! ## Judging an envelope -/

/-- A version whose envelope is gone is the one the envelope makes of its parent's. -/
theorem accepts_dangling {status : VerificationStatus} {w : Version} (content : e.toSignedPortion ∈ W.contents)
    (hp : e.prev = some p) (hd : e.digest = .ok d) (hv : s.versions[p]? = some v) (hw : s.versions[d]? = some w)
    (hver : (Ledger.mk p).verifyEnvelope s e = .ok status) : Accepts p v (e.setVerificationStatus status) d w := by
  have hprev : W.prev d = some p := (World.prev_eq content hd).trans hp
  have hne : d ≠ W.genesis := by
    rintro rfl
    exact World.acyclic.not_desc_parent hprev (h.states p v hv).desc
  obtain ⟨q, v', e', hv', content', hacc⟩ := (h.states d w hw).exists_parent hne
  have hsame := W.laws.collisionFree _ content' _ content d hacc.digest hd
  obtain rfl : q = p := Option.some.inj ((World.prev_of_accepts content' hacc).symm.trans hprev)
  obtain rfl := hv'.unique (h.states q v hv)
  have heq : e' = e.setVerificationStatus e'.verificationStatus := Envelope.eq_setVerificationStatus hsame
  have hstatus : status = e'.verificationStatus := by
    have hver' := hacc.verified
    rw [heq, verifyEnvelope_setVerificationStatus, ← verifyEnvelope_only hv, hver] at hver'
    exact Except.ok.inj hver'
  rw [hstatus, ← heq]
  exact hacc

/-- What storing an envelope does: it is refused with nothing written, or written as one of `W`, and
then a trial it leaves stands on a version. -/
theorem judge_wrote (content : e.toSignedPortion ∈ W.contents) (hp : e.prev = some p) (hd : e.digest = .ok d) :
    (∃ err, Chain.judge e p d (s.envelope d).isSome (Chain.ledgerAt s p) s = (.error (.error err), s)) ∨
    ∃ trial t, Chain.judge e p d (s.envelope d).isSome (Chain.ledgerAt s p) s = (.ok trial, t) ∧
      (t = s ∨ Chain.Wrote W s t) ∧ ∀ ledger, trial = some ledger → ledger = ⟨d⟩ ∧ t.Held d := by
  cases henv : s.envelope d with
  | some e' =>
    rw [Option.isSome_some]
    by_cases hheld : s.Held d
    · exact .inr ⟨_, s, Chain.judge_held hheld _, .inl rfl, fun l hl => by cases hl; exact ⟨rfl, hheld⟩⟩
    · by_cases hpheld : s.Held p
      · rw [Chain.ledgerAt_held hpheld]
        obtain ⟨v, hv⟩ := hpheld
        rcases apply_cases_at hv e with ⟨head, op, v', hc, hu, happ⟩ | ⟨err, herr, -, happ⟩
        · obtain rfl : head = d := Except.ok.inj ((Ledger.checked_eq_ok hc).2.1.symm.trans hd)
          obtain ⟨content', hd'⟩ := h.content head e' henv
          have hsame := W.laws.collisionFree _ content _ content' head hd hd'
          have hp' : e'.prev = some p := by
            rw [← hp]; simp only [Envelope.prev, hsame]
          obtain ⟨w, hacc, hw⟩ := h.accepted_at henv hp' hv
          obtain rfl := Chain.update_of_accepts hv hc hu hacc hsame
          refine .inr ⟨_, _, Chain.judge_stored_ok hheld happ, .inr (.version ⟨e', henv⟩ hheld hw), fun l hl => ?_⟩
          cases hl
          exact ⟨rfl, v', by rw [MemStorage.versions_install, if_pos rfl]⟩
        · exact .inr ⟨none, s, Chain.judge_stored_error hheld herr happ, .inl rfl, fun l hl => by cases hl⟩
      · rw [Chain.ledgerAt_not_held hpheld]
        exact .inr ⟨none, s, Chain.judge_stored_orphan hheld, .inl rfl, fun l hl => by cases hl⟩
  | none =>
    rw [Option.isSome_none]
    by_cases hpheld : s.Held p
    · rw [Chain.ledgerAt_held hpheld]
      obtain ⟨v, hv⟩ := hpheld
      by_cases hheld : s.Held d
      · obtain ⟨w, hw⟩ := hheld
        have hret : Ledger.Judged ((Ledger.mk p).verifyEnvelope s e) := Ledger.returns_verifyEnvelope hv e
        rcases hver : (Ledger.mk p).verifyEnvelope s e with (err | _ | _) | status
        · exact .inl ⟨_, Chain.judge_new_unverified hver⟩
        · rw [hver] at hret; exact hret.elim
        · rw [hver] at hret; exact hret.elim
        · have hacc := h.accepts_dangling content hp hd hv hw hver
          have hsame : s.install d w = s := s.install_same hw
          refine .inr ⟨_, _, Chain.judge_dangling ⟨w, hw⟩ hver, .inr ?_, fun l hl => ?_⟩
          · have hwrote : Chain.Wrote W s ((s.install d w).putEnvelope d (e.setVerificationStatus status)) :=
              .envelope henv hv content hacc
            rw [hsame] at hwrote
            exact hwrote
          · cases hl
            exact ⟨rfl, w, by rw [MemStorage.versions_putEnvelope]; exact hw⟩
      · rcases Chain.judge_new hv hheld hd with ⟨err, hj, -⟩ | ⟨v', status, hj, hacc⟩
        · exact .inl ⟨_, hj⟩
        · refine .inr ⟨_, _, hj, .inr (.envelope henv hv content hacc), fun l hl => ?_⟩
          cases hl
          exact ⟨rfl, v', by rw [MemStorage.versions_putEnvelope, MemStorage.versions_install, if_pos rfl]⟩
    · rw [Chain.ledgerAt_not_held hpheld]
      by_cases hheld : s.Held d
      · exact .inr ⟨_, s, Chain.judge_dangling_orphan hheld, .inl rfl, fun l hl => by cases hl; exact ⟨rfl, hheld⟩⟩
      · exact .inl ⟨_, Chain.judge_new_orphan hheld⟩

/-! ## What a write keeps -/

theorem wrote (hw : Chain.Wrote W s t) : Planted W root t := by
  cases hw with
  | @version d v stored fresh state =>
    refine ⟨⟨h.indexed.install d v, h.content⟩, h.accepted, fun x w hw => ?_, h.root_stored, h.linked, fun x hx hroot => ?_⟩
    · rw [MemStorage.versions_install] at hw
      split at hw
      · rename_i heq
        cases hw; subst heq
        exact state
      · exact h.states x w hw
    · rcases MemStorage.held_install.1 hx with hx | rfl
      · exact h.held_stored x hx hroot
      · exact stored
  | @envelope p d v v' e fresh parent content accepts =>
    have hstate := h.states p v parent
    have hprev := World.prev_of_accepts content accepts
    have hstored : ∀ x, s.Stored x → ((s.install d v').putEnvelope d e).Stored x := by
      rintro x ⟨e', he'⟩
      unfold MemStorage.Stored
      rw [MemStorage.envelope_putEnvelope]
      split
      · exact ⟨e, rfl⟩
      · exact ⟨e', he'⟩
    have hnew : ((s.install d v').putEnvelope d e).Stored d := ⟨e, by rw [MemStorage.envelope_putEnvelope, if_pos rfl]⟩
    have hof : ∀ x, ((s.install d v').putEnvelope d e).Stored x → s.Stored x ∨ x = d := by
      rintro x ⟨e', he'⟩
      rw [MemStorage.envelope_putEnvelope] at he'
      split at he'
      · rename_i heq
        exact .inr heq.symm
      · exact .inl ⟨e', he'⟩
    refine ⟨⟨?_, fun x e' he' => ?_⟩, fun x e' he' hne => ?_, fun x w hw => ?_, hstored root h.root_stored,
      fun x q hx hroot hne hq => ?_, fun x hx hroot => ?_⟩
    · refine (h.indexed.install d v').putEnvelope fun e' he' => ?_
      rw [MemStorage.envelope_install, fresh] at he'; cases he'
    · rw [MemStorage.envelope_putEnvelope] at he'
      split at he'
      · rename_i heq
        cases he'; subst heq
        exact ⟨content, accepts.digest⟩
      · exact h.content x e' he'
    · rw [MemStorage.envelope_putEnvelope] at he'
      split at he'
      · rename_i heq
        cases he'; subst heq
        exact ⟨p, v, v', hstate, accepts⟩
      · exact h.accepted x e' he' hne
    · rw [MemStorage.versions_putEnvelope, MemStorage.versions_install] at hw
      split at hw
      · rename_i heq
        cases hw; subst heq
        exact hstate.child content accepts
      · exact h.states x w hw
    · rcases hof x hx with hx | rfl
      · exact hstored q (h.linked x q hx hroot hne hq)
      · obtain rfl : p = q := Option.some.inj (hprev.symm.trans hq)
        exact hstored p (h.held_stored p ⟨v, parent⟩ (hroot.of_parent hne hprev))
    · have hx : (s.install d v').Held x := hx
      rcases MemStorage.held_install.1 hx with hx | rfl
      · exact hstored x (h.held_stored x hx hroot)
      · exact hnew

/-- To the fork choice, a new envelope that descends from the root is a leaf added to the log. -/
theorem addLeaf {v' : Version} (fresh : s.envelope d = none) (hroot : Desc W.prev root d)
    (content : e.toSignedPortion ∈ W.contents) (accepts : Accepts p v e d v') :
    AddLeaf s.parent ((s.install d v').putEnvelope d e).parent s.rank ((s.install d v').putEnvelope d e).rank p d := by
  have hprev := World.prev_of_accepts content accepts
  refine ⟨by simp [MemStorage.parent, fresh], fun c hc => ?_, (World.acyclic.ne_parent hprev).symm, ?_, fun c hc => ?_,
    fun c hc => ?_⟩
  · have hcd : W.prev c = some d := h.extends c d hc
    have hne : c ≠ root := by
      rintro rfl
      exact World.acyclic.not_desc_parent hcd hroot
    obtain ⟨e', he'⟩ := h.linked c d (s.stored_of_parent hc) (hroot.child hcd) hne hcd
    rw [fresh] at he'; cases he'
  · rw [MemStorage.parent_putEnvelope, if_pos rfl, accepts.prev]
  · rw [MemStorage.parent_putEnvelope, if_neg (Ne.symm hc)]; rfl
  · simp only [MemStorage.rank, MemStorage.weight, MemStorage.envelope_putEnvelope, if_neg (Ne.symm hc)]; rfl

/-- The walk from the root cannot see one that does not. -/
theorem agree_stray {v' : Version} (fresh : s.envelope d = none) (hroot : ¬ Desc W.prev root d)
    (content : e.toSignedPortion ∈ W.contents) (accepts : Accepts p v e d v') :
    Agree s.parent ((s.install d v').putEnvelope d e).parent s.rank ((s.install d v').putEnvelope d e).rank root := by
  have hprev := World.prev_of_accepts content accepts
  intro x hx c
  by_cases hcd : d = c
  · subst hcd
    have hnone : s.parent d = none := by simp [MemStorage.parent, fresh]
    rw [hnone, MemStorage.parent_putEnvelope, if_pos rfl, accepts.prev]
    refine ⟨⟨fun hpx => (by cases hpx), fun hpx => ?_⟩, fun hpx => by cases hpx⟩
    cases hpx
    exact absurd ((hx.desc.mono h.extends).child hprev) hroot
  · rw [MemStorage.parent_putEnvelope, if_neg hcd]
    refine ⟨Iff.rfl, fun _ => ?_⟩
    simp only [MemStorage.rank, MemStorage.weight, MemStorage.envelope_putEnvelope, if_neg hcd]; rfl

/-- The path from the root stays held. -/
theorem pathHeld (hw : Chain.Wrote W s t) (hpath : Chain.PathHeld root s) : Chain.PathHeld root t := by
  intro y hy
  cases hw with
  | version stored fresh state => exact MemStorage.held_install.2 (.inl (hpath y hy))
  | @envelope p d v v' e fresh parent content accepts =>
    have hheld : ∀ y, s.Held y ∨ y = d → ((s.install d v').putEnvelope d e).Held y :=
      fun y hy => MemStorage.held_install.2 hy
    by_cases hroot : Desc W.prev root d
    · rcases (h.addLeaf fresh hroot content accepts).canonical hy with hy | ⟨rfl, -⟩
      · exact hheld y (.inl (hpath y hy))
      · exact hheld y (.inr rfl)
    · exact hheld y (.inl (hpath y ((h.agree_stray fresh hroot content accepts).canonical.2 hy)))

end Planted

/-! ## A chain on such a store -/

/-- A chain on a store that is whole from its root on: the path from there is held, and ends at the
head. -/
structure Stands (W : World) (chain : Chain) (s : MemStorage) : Prop where
  planted : Planted W chain.root s
  pathHeld : Chain.PathHeld chain.root s
  tip : Tip s.parent s.rank chain.root chain.head

/-- A store that holds its root alone. -/
theorem Good.stands {W : World} {chain : Chain} {s : MemStorage} (h : Good W chain s) (hroot : chain.root = W.genesis) :
    Stands W chain s := by
  refine ⟨⟨⟨h.coherent.indexed, h.coherent.content⟩, fun d e he hne => ?_, fun d v hv => (h.coherent.versions d v hv).2,
    h.coherent.base_stored, fun d p hd _ hne hp => ?_, fun d ⟨v, hv⟩ _ => (h.coherent.versions d v hv).1⟩, h.pathHeld, h.tip⟩
  · obtain ⟨p, v, v', -, hv, hacc⟩ := h.coherent.accepted d e he (hroot ▸ hne)
    exact ⟨p, v, v', hv, hacc⟩
  · exact h.coherent.parent_stored ((h.coherent.parent_eq hd).trans hp) hne

namespace Stands

variable {W : World} {chain chain' : Chain} {s s' t : MemStorage} {cut : EnvelopeDigest}

theorem tick (h : Stands W chain s) (clock : StoredAt) : Stands W chain { s with clock } :=
  ⟨⟨⟨h.planted.indexed, h.planted.content⟩, h.planted.accepted, h.planted.states, h.planted.root_stored, h.planted.linked,
    h.planted.held_stored⟩, h.pathHeld, h.tip⟩

theorem insertBatch {es : List Envelope} {r : Res Error Insert} (h : Stands W chain s)
    (content : ∀ e ∈ es, e.toSignedPortion ∈ W.contents) (run : chain.insertBatch es s = (r, chain', s')) :
    Stands W chain' s' ∧ chain'.root = chain.root := by
  have hkeep : Chain.JudgeKeeps W.contents fun t => Planted W chain.root t ∧ Chain.PathHeld chain.root t := by
    rintro u e p d ⟨hu, hpath⟩ he hp hd
    rcases hu.judge_wrote he hp hd with ⟨err, hj⟩ | ⟨trial, t, hj, rfl | hw, htrial⟩
    · exact ⟨_, u, hj, ⟨hu, hpath⟩, .inl ⟨err, rfl⟩⟩
    · exact ⟨_, t, hj, ⟨hu, hpath⟩, .inr ⟨trial, rfl, htrial⟩⟩
    · exact ⟨_, t, hj, ⟨hu.wrote hw, hu.pathHeld hw hpath⟩, .inr ⟨trial, rfl, htrial⟩⟩
  obtain ⟨rs, t, hstore, ⟨ht, hpath⟩, hrs⟩ :=
    hkeep.storeBatch ⟨h.planted, h.pathHeld⟩ Chain.footed_start content
  obtain ⟨head, hcanon, htip⟩ := Chain.canonicalize_held ht.indexed ht.acyclic hpath
  have hstands : Stands W { chain with ledger := ⟨head⟩ } t := ⟨ht, hpath, htip⟩
  unfold Chain.insertBatch at run
  rcases hrs with ⟨err, rfl⟩ | ⟨b, rfl⟩
  · rw [Action.attempt_error hstore] at run
    simp only [hcanon] at run
    cases run
    exact ⟨hstands, rfl⟩
  · rw [Action.attempt_ok hstore] at run
    simp only [hcanon] at run
    cases run
    exact ⟨hstands, rfl⟩

/-- What keeps everything from a canonical cut on is whole from the cut on. -/
theorem keeps (h : Stands W chain s) (hcut : Canonical s.parent s.rank chain.root cut) (hk : Keeps s cut t)
    (hi : t.Indexed) (hversions : ∀ (d : EnvelopeDigest) v, t.versions[d]? = some v → s.versions[d]? = some v)
    (hheld : ∀ y, Canonical s.parent s.rank cut y → t.Held y) : Stands W { chain with root := cut } t := by
  have hroot : ∀ d, Desc W.prev cut d → Desc W.prev chain.root d := fun d hd => (hcut.desc.mono h.planted.extends).trans hd
  have hkept : ∀ d, s.Stored d → Desc W.prev cut d → t.Stored d := by
    intro d hd hcd
    have hdesc := h.planted.desc_of_prev hd (hroot d hcd) (hcut.desc.mono h.planted.extends) hcd
    obtain ⟨e, he⟩ := hd
    exact ⟨e, (hk.envelope_kept hdesc).trans he⟩
  have hcuts := s.stored_of_desc h.planted.root_stored hcut.desc
  refine ⟨⟨⟨hi, fun d e he => ?_⟩, fun d e he hne => ?_, fun d v hv => h.planted.states d v (hversions d v hv),
    hkept cut hcuts Desc.refl, fun d p hd hcd hne hp => ?_, fun d ⟨v, hv⟩ hcd => ?_⟩, fun y hy => ?_, ?_⟩
  · exact h.planted.content d e (by rw [← hk.envelope_eq ⟨e, he⟩]; exact he)
  · exact h.planted.accepted d e (by rw [← hk.envelope_eq ⟨e, he⟩]; exact he) hne
  · have hdr : d ≠ chain.root := by
      rintro rfl
      exact hne (World.acyclic.antisymm (hcut.desc.mono h.planted.extends) hcd)
    exact hkept p (h.planted.linked d p (hk.stored hd) (hroot d hcd) hdr hp) (hcd.of_parent hne hp)
  · exact hkept d (h.planted.held_stored d ⟨v, hversions d v hv⟩ (hroot d hcd)) hcd
  · exact hheld y (hk.agree.canonical.2 hy)
  · exact hk.agree.tip.1 (h.tip.of_canonical s.rank_injective hcut)

/-- Compacting at a canonical cut comes to its end, and leaves a chain from the cut on there and
wherever it is stopped. -/
theorem compact (h : Stands W chain s) (hcut : Canonical s.parent s.rank chain.root cut) :
    (∃ n t, chain.compact cut s = (.ok n, { chain with root := cut }, t) ∧ Stands W { chain with root := cut } t) ∧
      ∀ n, Stands W { chain with root := cut } (chain.compactStopped cut n s) := by
  have htip := h.tip.of_canonical s.rank_injective hcut
  have hpath : ∀ y, Canonical s.parent s.rank cut y → s.Held y := fun y hy => h.pathHeld y (hcut.trans hy)
  obtain ⟨t, n, ht, -, -, hlead⟩ := Chain.compactProg_trims h.planted.indexed h.planted.acyclic
    (fun hno : False => hno.elim) htip.canonical.desc
  obtain ⟨hrun, hstop⟩ := hlead.done
  have hdone : Stands W { chain with root := cut } t := by
    refine h.keeps hcut ht.toKeeps ht.indexed (fun d v hv => ?_) fun y hy => ?_
    · by_cases hd : Desc s.parent cut d ∧ Desc s.parent d chain.head
      · rw [← ht.versions_kept d hd.1 hd.2]; exact hv
      · rw [ht.versions_gone d hd] at hv; cases hv
    · obtain ⟨v, hv⟩ := hpath y hy
      exact ⟨v, by rw [ht.versions_kept y hy.desc (htip.of_canonical s.rank_injective hy).canonical.desc]; exact hv⟩
  refine ⟨⟨n, t, by unfold Chain.compact; rw [hrun]; rfl, hdone⟩, fun k => ?_⟩
  have hstop : Trimmed False s cut (chain.compactStopped cut k s) ∨ chain.compactStopped cut k s = t := hstop k
  rcases hstop with ⟨a, hhalf⟩ | rfl
  · refine h.keeps hcut hhalf.toKeeps hhalf.indexed (fun d v hv => ?_) fun y hy => ?_
    · rw [← hhalf.versions]; exact hv
    · obtain ⟨v, hv⟩ := hpath y hy
      exact ⟨v, by rw [hhalf.versions]; exact hv⟩
  · exact hdone

/-- Reopening at the root gives the chain back. -/
theorem «open» (h : Stands W chain s) : Chain.open chain.root s = (.ok chain, s) := by
  obtain ⟨head, hrun, htip⟩ :=
    Chain.open_held h.planted.indexed h.planted.acyclic h.planted.root_stored h.pathHeld
  rw [hrun, Tip.unique s.rank_injective htip h.tip]; rfl

end Stands

end IrohLotus.State
