/-
Compaction preserves behaviour. A chain, the chain compacted at a cut, and one adopted at the cut
hold different logs and versions, so each is compared with an ideal chain that starts at the cut
with everything stored and held: what a chain lacks of the ideal log hangs off a fork it has
already lost, so its walk from the cut cannot tell the difference, after any further inserts.
-/
import IrohLotus.State.Converge

namespace IrohLotus.State

open Std Outcome Forest IrohLotus.Wire IrohLotus.Storage

variable [Externals]

/-! ## Following an ideal log -/

section Follows

variable {W : World} {cut : EnvelopeDigest} {ideal chain : Chain} {C X : MemStorage} {e : Envelope}

/-- `d` hangs off a fork below the cut that was lost in `X`. -/
def Lost (W : World) (cut : EnvelopeDigest) (X : MemStorage) (d : EnvelopeDigest) : Prop :=
  ∃ f x y, X.parent x = some f ∧ X.parent y = some f ∧ X.rank x < X.rank y ∧ Desc W.prev cut f ∧ Desc W.prev x d

/-- What a fork lost stays lost as the log grows. -/
theorem Lost.grow {X' : MemStorage} {d : EnvelopeDigest} (h : Lost W cut X d) (hgrow : X.LogGrows X') :
    Lost W cut X' d := by
  obtain ⟨f, x, y, hx, hy, hlt, hf, hd⟩ := h
  refine ⟨f, x, y, hgrow.extends x f hx, hgrow.extends y f hy, ?_, hf, hd⟩
  rw [hgrow.rank (X.stored_of_parent hx), hgrow.rank (X.stored_of_parent hy)]; exact hlt

theorem Lost.child {p d : EnvelopeDigest} (h : Lost W cut X p) (hp : W.prev d = some p) : Lost W cut X d := by
  obtain ⟨f, x, y, hx, hy, hlt, hf, hd⟩ := h
  exact ⟨f, x, y, hx, hy, hlt, hf, hd.child hp⟩

/-- The chain `X` follows the ideal log `C` from the cut on: what it has there it has as `C` does, and
what it lacks is lost. -/
structure Follows (W : World) (cut : EnvelopeDigest) (C : MemStorage) (chain : Chain) (X : MemStorage) : Prop where
  good : Good W chain X
  through : Canonical X.parent X.rank chain.root cut
  same : ∀ d e, X.envelope d = some e → Desc W.prev cut d → C.envelope d = some e
  lost : ∀ d, C.Stored d → X.Stored d ∨ Lost W cut X d

/-- An ideal chain: it starts at the cut and holds a version wherever it stores an envelope. -/
structure Ideal (W : World) (cut : EnvelopeDigest) (ideal : Chain) (C : MemStorage) : Prop where
  good : Good W ideal C
  root : ideal.root = cut
  allHeld : AllHeld C

theorem Ideal.coherent (h : Ideal W cut ideal C) : Coherent W cut C := h.root ▸ h.good.coherent

namespace Follows

variable (h : Follows W cut C chain X)

include h

theorem cut_stored : X.Stored cut := X.stored_of_desc h.good.coherent.base_stored h.through.desc

/-- From the cut on, the walk of the chain is the walk of the ideal. -/
theorem agree (hC : Ideal W cut ideal C) : Agree X.parent C.parent X.rank C.rank cut := by
  have hX := h.good.coherent
  intro x hx c
  have hxdesc : Desc W.prev cut x := hx.desc.mono hX.extends
  have hxs : X.Stored x := X.stored_of_desc h.cut_stored hx.desc
  have hsame : X.parent c = some x → C.envelope c = X.envelope c := by
    intro hc
    obtain ⟨e, he⟩ := X.stored_of_parent hc
    rw [he, h.same c e he (hxdesc.child (hX.extends c x hc))]
  refine ⟨⟨fun hc => ?_, fun hc => ?_⟩, fun hc => ?_⟩
  · simpa only [MemStorage.parent, hsame hc] using hc
  · have hprev := hC.coherent.extends c x hc
    rcases h.lost c (C.stored_of_parent hc) with hcs | ⟨f, y, z, hy, hz, hlt, hf, hyc⟩
    · rw [hX.parent_eq hcs]; exact hprev
    · by_cases hyc' : c = y
      · subst hyc'; rw [hX.parent_eq (X.stored_of_parent hy)]; exact hprev
      · -- the fork would have been lost by the canonical parent of `c`
        have hys := X.stored_of_parent hy
        have hyx := hX.desc_of_prev hys hxs (hyc.of_parent hyc' hprev)
        have hfs : X.Stored f := by
          refine hX.parent_stored hy ?_
          rintro rfl
          exact World.acyclic.not_desc_parent (hX.extends _ _ hy) ((h.through.desc.mono hX.extends).trans hf)
        exact absurd hyx (hx.not_outranked hX.acyclic (hX.desc_of_prev h.cut_stored hfs hf) hy hz hlt)
  · simp only [MemStorage.rank, MemStorage.weight, hsame hc]

/-- So both stand at one head with one state. -/
theorem same_state (hC : Ideal W cut ideal C) :
    chain.head = ideal.head ∧ ∃ state, chain.checkpoint X = .ok state ∧ ideal.checkpoint C = .ok state := by
  have htip : Tip X.parent X.rank cut chain.head := h.good.tip.of_canonical X.rank_injective h.through
  have htip' := hC.good.tip
  rw [hC.root] at htip'
  have hhead : chain.head = ideal.head := Tip.unique C.rank_injective ((h.agree hC).tip.1 htip) htip'
  obtain ⟨v, hv⟩ := h.good.pathHeld _ h.good.tip.canonical
  obtain ⟨v', hv'⟩ := hC.good.pathHeld _ hC.good.tip.canonical
  have hstate := (h.good.coherent.versions _ _ hv).2
  rw [hhead] at hstate
  obtain rfl := hstate.unique (hC.coherent.versions _ _ hv').2
  exact ⟨hhead, ⟨v⟩, Ledger.checkpoint_eq_ok hv, Ledger.checkpoint_eq_ok hv'⟩

/-- An envelope below the cut that the chain stores and did not is stored by the ideal the same way. -/
theorem same_insert (hC : Ideal W cut ideal C) (content : e.toSignedPortion ∈ W.contents) {d : EnvelopeDigest} {e' : Envelope}
    (hd : (chain.insert e X).2.2.envelope d = some e') (hdesc : Desc W.prev cut d) :
    (ideal.insert e C).2.2.envelope d = some e' := by
  obtain ⟨hgood, hroot, hwrote⟩ := h.good.insert content
  obtain ⟨hgoodC, hrootC, hwroteC⟩ := hC.good.insert content
  rw [hC.root] at hrootC
  have hcoC := hgoodC.coherent
  rw [hrootC] at hcoC
  by_cases hds : X.Stored d
  · obtain ⟨e₀, he₀⟩ := hds
    obtain rfl : e₀ = e' := by
      have := hwrote.logGrows d e₀ he₀
      rw [hd] at this; exact (Option.some.inj this).symm
    exact hwroteC.logGrows d e₀ (h.same d e₀ he₀ hdesc)
  · have hdcut : d ≠ cut := by rintro rfl; exact hds h.cut_stored
    have hdroot : d ≠ (chain.insert e X).2.1.root := by
      rw [hroot]; rintro rfl; exact hds h.good.coherent.base_stored
    obtain ⟨p, v, v', hp, hv, hacc⟩ := hgood.coherent.accepted d e' hd hdroot
    have content' := (hgood.coherent.content d e' hd)
    have hprev := World.prev_of_accepts content'.1 hacc
    have hed : e.digest = .ok d := (Chain.insert_stored h.good content ⟨e', hd⟩).resolve_left hds
    have hsame := W.laws.collisionFree _ content'.1 _ content d content'.2 hed
    -- the parent was there before, below the cut, so the ideal holds its version
    have hps : X.Stored p := by
      refine (Chain.insert_stored h.good content hp).resolve_right fun hep => ?_
      rw [hed] at hep; cases hep
      exact World.acyclic.ne_parent hprev rfl
    obtain ⟨ep, hep⟩ := hps
    obtain ⟨w, hw⟩ := hC.allHeld p ⟨ep, h.same p ep hep (hdesc.of_parent hdcut hprev)⟩
    obtain rfl := hv.unique (hC.coherent.versions p w hw).2
    obtain ⟨e'', he''⟩ := stored_of_accepts hC.good content hw hacc hsame
    rw [he'', hgood.coherent.envelope_unique hcoC hd he'' hdroot hdcut]

/-- An envelope the ideal stores and did not is stored by the chain too, or lost to it. -/
theorem lost_insert (hC : Ideal W cut ideal C) (content : e.toSignedPortion ∈ W.contents) {d : EnvelopeDigest}
    (hd : (ideal.insert e C).2.2.Stored d) :
    (chain.insert e X).2.2.Stored d ∨ Lost W cut (chain.insert e X).2.2 d := by
  obtain ⟨-, -, hwrote⟩ := h.good.insert content
  have hold : ∀ {x}, C.Stored x → (chain.insert e X).2.2.Stored x ∨ Lost W cut (chain.insert e X).2.2 x := by
    intro x hx
    rcases h.lost x hx with hxs | hlost
    · exact .inl (hwrote.logGrows.stored hxs)
    · exact .inr (hlost.grow hwrote.logGrows)
  by_cases hds : C.Stored d
  · exact hold hds
  · by_cases hnew : (chain.insert e X).2.2.Stored d
    · exact .inl hnew
    · obtain ⟨hgoodC, hrootC, -⟩ := hC.good.insert content
      have hdroot : d ≠ (ideal.insert e C).2.1.root := by
        rw [hrootC]; rintro rfl; exact hds hC.good.coherent.base_stored
      obtain ⟨e', he'⟩ := hd
      obtain ⟨p, v, v', hp, hv, hacc⟩ := hgoodC.coherent.accepted d e' he' hdroot
      have content' := hgoodC.coherent.content d e' he'
      have hprev := World.prev_of_accepts content'.1 hacc
      have hed : e.digest = .ok d := (Chain.insert_stored hC.good content ⟨e', he'⟩).resolve_left hds
      have hsame := W.laws.collisionFree _ content'.1 _ content d content'.2 hed
      have hpC : C.Stored p := by
        refine (Chain.insert_stored hC.good content hp).resolve_right fun hep => ?_
        rw [hed] at hep; cases hep
        exact World.acyclic.ne_parent hprev rfl
      -- holding the parent's version, the chain would have stored it as well
      have hnheld : ¬ X.Held p := by
        rintro ⟨w, hw⟩
        obtain rfl := hv.unique (h.good.coherent.versions p w hw).2
        exact hnew (stored_of_accepts h.good content hw hacc hsame)
      refine .inr (Lost.child ?_ hprev)
      rcases h.lost p hpC with hps | hlost
      · have hX := h.good.coherent
        have hpdesc : Desc X.parent cut p := by
          refine hX.desc_of_prev h.cut_stored hps ?_
          exact (hC.coherent.desc hpC).mono hC.coherent.extends
        have htip : Tip X.parent X.rank cut chain.head := h.good.tip.of_canonical X.rank_injective h.through
        rcases htip.fork X.rank_injective hX.acyclic hpdesc with hph | ⟨f, x, y, hx, hy, hlt, hf, hxp, -⟩
        · exact absurd (h.good.pathHeld p (h.good.canonical_iff.2 ⟨h.through.desc.trans hpdesc, hph⟩)) hnheld
        · have hlost : Lost W cut X p := ⟨f, x, y, hx, hy, hlt, hf.mono hX.extends, hxp.mono hX.extends⟩
          exact hlost.grow hwrote.logGrows
      · exact hlost.grow hwrote.logGrows

/-- Inserting an envelope that descends from the cut keeps the chain following. -/
theorem insert (hC : Ideal W cut ideal C) (content : e.toSignedPortion ∈ W.contents)
    (below : ∀ d, e.digest = .ok d → Desc W.prev cut d) :
    Follows W cut (ideal.insert e C).2.2 (chain.insert e X).2.1 (chain.insert e X).2.2 := by
  obtain ⟨hgood, hroot, hwrote⟩ := h.good.insert content
  refine ⟨hgood, ?_, fun d e' hd hdesc => h.same_insert hC content hd hdesc, fun d hd => h.lost_insert hC content hd⟩
  have hX := h.good.coherent
  have hX' := hgood.coherent
  rw [hroot]
  refine h.through.grow hX'.acyclic hwrote.logGrows.extends (fun c p hc => hwrote.logGrows.rank (X.stored_of_parent hc))
    (fun c p hc => ?_) Desc.refl
  have hprev := hX'.extends c p hc
  by_cases hcs : X.Stored c
  · exact .inl (by rw [hX.parent_eq hcs]; exact hprev)
  · right
    have hcd := (Chain.insert_stored h.good content ((chain.insert e X).2.2.stored_of_parent hc)).resolve_left hcs
    have hne : c ≠ cut := by rintro rfl; exact hcs h.cut_stored
    have hps : (chain.insert e X).2.2.Stored p := by
      refine hX'.parent_stored hc ?_
      rw [hroot]; rintro rfl; exact hcs hX.base_stored
    exact hX'.desc_of_prev (hwrote.logGrows.stored h.cut_stored) hps ((below c hcd).of_parent hne hprev)

end Follows

theorem Ideal.insert (hC : Ideal W cut ideal C) (content : e.toSignedPortion ∈ W.contents) :
    Ideal W cut (ideal.insert e C).2.1 (ideal.insert e C).2.2 := by
  obtain ⟨hgood, hroot, hwrote⟩ := hC.good.insert content
  exact ⟨hgood, hroot.trans hC.root, hC.allHeld.wroteAll hC.good.coherent hwrote⟩

theorem Ideal.insertAll : ∀ (es : List Envelope) {ideal : Chain} {C : MemStorage}, Ideal W cut ideal C →
    (∀ e ∈ es, e.toSignedPortion ∈ W.contents) → Ideal W cut (ideal.insertAll es C).1 (ideal.insertAll es C).2
  | [], _, _, h, _ => h
  | e :: es, _, _, h, content =>
    Ideal.insertAll es (h.insert (content e List.mem_cons_self)) fun x hx => content x (List.mem_cons_of_mem _ hx)

/-- After any inserts below the cut. -/
theorem Follows.insertAll : ∀ (es : List Envelope) {ideal chain : Chain} {C X : MemStorage}, Follows W cut C chain X →
    Ideal W cut ideal C → (∀ e ∈ es, e.toSignedPortion ∈ W.contents) →
    (∀ e ∈ es, ∀ d, e.digest = .ok d → Desc W.prev cut d) →
      Follows W cut (ideal.insertAll es C).2 (chain.insertAll es X).1 (chain.insertAll es X).2
  | [], _, _, _, _, h, _, _, _ => h
  | e :: es, _, _, _, _, h, hC, content, below =>
    Follows.insertAll es (h.insert hC (content e List.mem_cons_self) (below e List.mem_cons_self))
      (hC.insert (content e List.mem_cons_self)) (fun x hx => content x (List.mem_cons_of_mem _ hx))
      fun x hx => below x (List.mem_cons_of_mem _ hx)

/-! ## Where the three chains start -/

/-- The versions a log lacks can all be derived. -/
theorem exists_filled {base : EnvelopeDigest} {s : MemStorage} (hco : Coherent W base s) :
    ∀ l : List EnvelopeDigest, (∀ d ∈ l, s.Stored d) →
      ∃ t, Chain.WroteAll W s t ∧ s.SameLog t ∧ ∀ d ∈ l, t.Held d
  | [], _ => ⟨s, .refl, MemStorage.SameLog.refl, nofun⟩
  | d :: l, hl => by
    obtain ⟨t, hw, hsame, hheld⟩ := exists_filled hco l fun x hx => hl x (List.mem_cons_of_mem _ hx)
    have hd : t.Stored d := hw.logGrows.stored (hl d List.mem_cons_self)
    by_cases hdh : t.Held d
    · refine ⟨t, hw, hsame, fun x hx => ?_⟩
      rcases List.mem_cons.1 hx with rfl | hx
      · exact hdh
      · exact hheld x hx
    · obtain ⟨v, hv⟩ := (hw.coherent hco).exists_state hd
      refine ⟨t.install d v, hw.tail (.version hd hdh hv), hsame.trans (t.sameLog_install d v), fun x hx => ?_⟩
      rcases List.mem_cons.1 hx with rfl | hx
      · exact ⟨v, by rw [MemStorage.versions_install, if_pos rfl]⟩
      · exact (t.grows_install hdh v).held (hheld x hx)

/-- Beside a chain from the cut there is an ideal one with the same log. -/
theorem exists_ideal (h : Good W chain X) : ∃ ideal C, Ideal W chain.root ideal C ∧ C.envelope = X.envelope := by
  obtain ⟨C, hw, hsame, hheld⟩ := exists_filled h.coherent X.digests.toList fun d hd =>
    X.mem_digests.1 (Finset.mem_toList.1 hd)
  obtain ⟨ledger, -, hgood⟩ := h.settle hw
  refine ⟨_, C, ⟨hgood, rfl, fun d hd => hheld d ?_⟩, hsame.envelope⟩
  obtain ⟨e, he⟩ := hd
  rw [hsame.envelope] at he
  exact Finset.mem_toList.2 (X.mem_digests.2 ⟨e, he⟩)

/-- A chain whose path goes through the cut follows an ideal that stores the same from there on. -/
theorem follows_start (hC : Ideal W cut ideal C) (h : Good W chain X) (through : Canonical X.parent X.rank chain.root cut)
    (hcut : X.envelope cut = C.envelope cut) (hstored : ∀ d, Desc W.prev cut d → (X.Stored d ↔ C.Stored d)) :
    Follows W cut C chain X := by
  have hdesc : Desc W.prev chain.root cut := through.desc.mono h.coherent.extends
  refine ⟨h, through, fun d e he hd => ?_, fun d hd => .inl ?_⟩
  · by_cases hdc : d = cut
    · subst hdc; rw [← hcut]; exact he
    · have hdr : d ≠ chain.root := by
        rintro rfl; exact hdc (World.acyclic.antisymm hdesc hd)
      obtain ⟨e', he'⟩ := (hstored d hd).1 ⟨e, he⟩
      rw [he', h.coherent.envelope_unique hC.coherent he he' hdr hdc]
  · exact (hstored d ((hC.coherent.desc hd).mono hC.coherent.extends)).2 hd

end Follows

/-- The descendants of the cut a compacted log still holds, in an order that puts parents first. The
statuses they carry are whatever they were sent with. -/
structure Surviving (t : MemStorage) (cut : EnvelopeDigest) (fed : List Envelope) : Prop where
  stored : ∀ e ∈ fed, ∃ d e', d ≠ cut ∧ t.envelope d = some e' ∧ e.toSignedPortion = e'.toSignedPortion
  complete : ∀ d e', t.envelope d = some e' → d ≠ cut → ∃ e ∈ fed, e.toSignedPortion = e'.toSignedPortion
  parentFirst : ParentFirst fed

/-- A chain adopted at the cut and fed what survived stores exactly that. -/
theorem settled_adopted {W : World} {cut : EnvelopeDigest} {t : MemStorage} {e : Envelope} {v : Version} {fed : List Envelope}
    (hco : Coherent W cut t) (he : t.envelope cut = some e) (hv : W.StateOf cut v) (hfed : Surviving t cut fed)
    (clock : StoredAt) :
    ∃ adopted u, (Chain.mk cut ⟨cut⟩).insertAll fed (((MemStorage.empty clock).install cut v).putEnvelope cut e) = (adopted, u) ∧
      Good W adopted u ∧ adopted.root = cut ∧ u.envelope cut = some e ∧ ∀ d, u.Stored d ↔ t.Stored d := by
  have content : ∀ x ∈ fed, x.toSignedPortion ∈ W.contents := by
    intro x hx
    obtain ⟨d, e', -, he', hsame⟩ := hfed.stored x hx
    rw [hsame]; exact (hco.content d e' he').1
  have hdigest : ∀ {x : Envelope} {d e'}, t.envelope d = some e' → x.toSignedPortion = e'.toSignedPortion →
      x.digest = .ok d := by
    intro x d e' he' hsame
    rw [← (hco.content d e' he').2]; simp only [Envelope.digest, hsame]
  have hamong : ∀ d, t.Stored d → d = cut ∨ ∃ x ∈ fed, x.digest = .ok d := by
    rintro d ⟨e', he'⟩
    by_cases hd : d = cut
    · exact .inl hd
    · obtain ⟨x, hx, hsame⟩ := hfed.complete d e' he' hd
      exact .inr ⟨x, hx, hdigest he' hsame⟩
  have hparent : ∀ x ∈ fed, ∀ p w, x.prev = some p → W.StateOf p w → Desc W.prev cut p →
      p = cut ∨ ∃ y ∈ fed, y.digest = .ok p := by
    intro x hx p w hp _ _
    obtain ⟨d, e', hd, he', hsame⟩ := hfed.stored x hx
    have hp' : t.parent d = some p := by
      rw [t.parent_of_envelope he', ← hp]; simp only [Envelope.prev, hsame]
    exact hamong p (hco.parent_stored hp' hd)
  obtain ⟨hs, hroot⟩ := Settled.insertAll (W := W) hfed.parentFirst content hparent fed rfl rfl
    (settled_single clock (hco.content cut e he).2 (hco.content cut e he).1 hv)
  rcases hrun : (Chain.mk cut ⟨cut⟩).insertAll fed (((MemStorage.empty clock).install cut v).putEnvelope cut e) with
    ⟨adopted, u⟩
  rw [hrun] at hs hroot
  subst hroot
  refine ⟨adopted, u, rfl, hs.good, rfl, hs.root, fun d => ⟨fun hd => ?_, fun hd => ?_⟩⟩
  · rcases hs.among d hd with rfl | ⟨x, hx, hxd⟩
    · exact ⟨e, he⟩
    · obtain ⟨d', e', -, he', hsame⟩ := hfed.stored x hx
      have := hdigest he' hsame
      rw [hxd] at this; cases this
      exact ⟨e', he'⟩
  · obtain ⟨w, hw⟩ := hco.exists_state hd
    exact hs.stored d w hw ((hco.desc hd).mono hco.extends) (hamong d hd)

/-! ## Compaction preserves behaviour -/

/-- `adopt` takes the version of any envelope that is not an `Init`. -/
theorem adopt_of_ruled {e : Envelope} {d : EnvelopeDigest} {v : Version} (hinit : ∀ msg, e.payload ≠ .init msg)
    (hd : e.digest = .ok d) (hv : Ruled v) (clock : StoredAt) :
    Chain.adopt e ⟨v⟩ (MemStorage.empty clock) =
      (.ok ⟨d, ⟨d⟩⟩, ((MemStorage.empty clock).install d v).putEnvelope d e) := by
  have hcheck : Action.ofRes ((validateCheckpoint ⟨v⟩).mapErr Error.apply) (MemStorage.empty clock) =
      (.ok (), MemStorage.empty clock) := by
    rw [validateCheckpoint_of_ruled hv]; rfl
  have hdigest : Action.ofRes (Res.ofExcept Error.wire e.digest) (MemStorage.empty clock) =
      (.ok d, MemStorage.empty clock) := by
    rw [hd]; rfl
  have hledger : Ledger.adopt e ⟨v⟩ (MemStorage.empty clock) = (.ok ⟨d⟩, (MemStorage.empty clock).install d v) := by
    unfold Ledger.adopt
    rw [Action.bind_ok hcheck, Action.bind_ok hdigest]; rfl
  cases hp : e.payload with
  | init msg => exact absurd hp (hinit msg)
  | setNamespace _ | setNamespaceKey _ | amendNamespaceKey _ | deleteNamespace _ =>
    simp only [Chain.adopt, hp]
    exact Action.bind_ok hledger _

/-- Two chains on their stores stand at one head with one state. -/
def SameState (a b : Chain × MemStorage) : Prop :=
  a.1.head = b.1.head ∧ ∃ state, a.1.checkpoint a.2 = .ok state ∧ b.1.checkpoint b.2 = .ok state

theorem sameState_of_follows {W : World} {cut : EnvelopeDigest} {ideal c c' : Chain} {C X X' : MemStorage}
    (hC : Ideal W cut ideal C) (h : Follows W cut C c X) (h' : Follows W cut C c' X') : SameState (c, X) (c', X') := by
  obtain ⟨hhead, state, hs, hsC⟩ := h.same_state hC
  obtain ⟨hhead', state', hs', hsC'⟩ := h'.same_state hC
  rw [hsC] at hsC'; cases hsC'
  exact ⟨hhead.trans hhead'.symm, state, hs, hs'⟩

/-- At every cut on the canonical path, the compacted chain and the chain itself stay at one head
with one state through any inserts of envelopes that descend from the cut; and so does a chain
adopted at the cut, unless that is an `Init`, once it was fed what the compacted log kept. -/
theorem Reachable.compact_preserves {contents : Set SignedPortion} (laws : DigestLaws contents) {chain : Chain}
    {s : MemStorage} (h : Reachable contents chain s) {cut : EnvelopeDigest} {e : Envelope} {state : FullCheckpoint}
    (stored : s.envelope cut = some e) (onPath : Desc s.parent cut chain.head)
    (version : (Ledger.mk cut).checkpoint s = .ok state) :
    ∃ n compacted t, chain.compact cut s = (.ok n, compacted, t) ∧
      ∀ es : List Envelope, (∀ x ∈ es, x.toSignedPortion ∈ contents) →
        (∀ x ∈ es, ∀ d, x.digest = .ok d → Relation.ReflTransGen (Names contents) cut d) →
        SameState (chain.insertAll es s) (compacted.insertAll es t) ∧
        ((∀ msg, e.payload ≠ .init msg) → ∀ clock, ∃ adopted u,
          Chain.adopt e state (MemStorage.empty clock) = (.ok adopted, u) ∧ ∀ fed, Surviving t cut fed →
            SameState (chain.insertAll es s)
              ((adopted.insertAll fed u).1.insertAll es (adopted.insertAll fed u).2)) := by
  obtain ⟨W, rfl, hg⟩ := h.good laws
  have hcut : Canonical s.parent s.rank chain.root cut := hg.canonical_iff.2 ⟨hg.coherent.desc ⟨e, stored⟩, onPath⟩
  rcases Chain.compact_cases hg.coherent.indexed hg.acyclic fun _ => hg.recoverable hcut with
    ⟨hno, -⟩ | ⟨-, n, t, hct, -, hrun⟩
  · exact absurd onPath hno
  refine ⟨n, _, t, hrun, fun es content below => ?_⟩
  have hgt := hg.compacted hcut hct
  have het : t.envelope cut = some e := by rw [hct.keeps.envelope_kept Desc.refl]; exact stored
  obtain ⟨ideal, C, hC, hlog⟩ := exists_ideal hgt
  have hstoredC : ∀ d, C.Stored d ↔ t.Stored d := fun d => by simp only [MemStorage.Stored, hlog]
  have below : ∀ x ∈ es, ∀ d, x.digest = .ok d → Desc W.prev cut d := fun x hx d hd =>
    Relation.ReflTransGen.mono (fun _ _ hn => World.prev_of_names hn) _ _ (below x hx d hd)
  have hA : Follows W cut C chain s := by
    refine follows_start hC hg hcut (by rw [hlog, het, stored]) fun d hd => ?_
    rw [hstoredC, hct.stored_iff]
    exact ⟨fun hds => ⟨hds, hg.coherent.desc_of_prev ⟨e, stored⟩ hds hd⟩, And.left⟩
  have hB : Follows W cut C { chain with root := cut } t :=
    follows_start hC hgt Canonical.refl (by rw [hlog]) fun d _ => (hstoredC d).symm
  refine ⟨sameState_of_follows (hC.insertAll es content) (hA.insertAll es hC content below)
    (hB.insertAll es hC content below), fun hinit clock => ?_⟩
  obtain ⟨v, hv⟩ := hg.pathHeld cut hcut
  have hstate := (hg.coherent.versions cut v hv).2
  obtain rfl : state = ⟨v⟩ := by
    have hcheck : (Ledger.mk cut).checkpoint s = .ok ⟨v⟩ := Ledger.checkpoint_eq_ok hv
    rw [version] at hcheck; exact Except.ok.inj hcheck
  refine ⟨_, _, adopt_of_ruled hinit (hg.coherent.content cut e stored).2 hstate.ruled clock, fun fed hfed => ?_⟩
  obtain ⟨adopted, u, hrunD, hgD, hrootD, hcutD, hstoredD⟩ := settled_adopted hgt.coherent het hstate hfed clock
  rw [hrunD]
  have hD : Follows W cut C adopted u := by
    refine follows_start hC hgD ?_ (by rw [hlog, het, hcutD]) fun d _ => by rw [hstoredC, hstoredD]
    rw [hrootD]; exact Canonical.refl
  exact sameState_of_follows (hC.insertAll es content) (hA.insertAll es hC content below)
    (hD.insertAll es hC content below)

end IrohLotus.State

/-! ## The samples -/

namespace IrohLotus.State

open Std Outcome Forest IrohLotus.Wire IrohLotus.Wire.Sample IrohLotus.Storage

/-- What compacting at `first` left above it. -/
theorem surviving_compactedStore : Surviving compactedStore firstDigest [second] where
  stored := by
    intro e he
    rw [List.mem_singleton.1 he]
    exact ⟨secondDigest, second.setVerificationStatus (.allMatched 0), by decide +kernel, by decide +kernel, rfl⟩
  complete := by
    intro d e' he' hd
    have hall : ∀ x ∈ compactedStore.envelopes.toList, x.1 ≠ firstDigest →
        second.toSignedPortion = x.2.envelope.toSignedPortion := by
      decide +kernel
    obtain ⟨entry, hentry, rfl⟩ := Option.map_eq_some_iff.1 he'
    have hmem : (d, entry) ∈ compactedStore.envelopes.toList := ExtTreeMap.mem_toList_iff_getElem?_eq_some.2 hentry
    exact ⟨second, List.mem_singleton.2 rfl, hall _ hmem hd⟩
  parentFirst := by
    rintro pre e post hsplit p hp ⟨x, hx, hxp⟩
    have hnone : ∀ x ∈ [second], x.digest ≠ .ok firstDigest := by decide +kernel
    match pre, hsplit with
    | [], hsplit => cases hsplit; cases hp; exact absurd hxp (hnone x hx)
    | _ :: _, hsplit => simp at hsplit

theorem compact_preserves_forkedStore :
    ∃ state adopted u, (Ledger.mk firstDigest).checkpoint forkedStore = .ok state ∧
      Chain.adopt (first.setVerificationStatus (.allMatched 0)) state (MemStorage.empty 0) = (.ok adopted, u) ∧
      SameState ((Chain.mk genesisDigest ⟨secondDigest⟩).insertAll [third] forkedStore)
        ((Chain.mk firstDigest ⟨secondDigest⟩).insertAll [third] compactedStore) ∧
      SameState ((Chain.mk genesisDigest ⟨secondDigest⟩).insertAll [third] forkedStore)
        ((adopted.insertAll [second] u).1.insertAll [third] (adopted.insertAll [second] u).2) := by
  have hstored : forkedStore.envelope firstDigest = some (first.setVerificationStatus (.allMatched 0)) := by
    decide +kernel
  have hpath : Desc forkedStore.parent firstDigest secondDigest := Desc.of_child (by decide +kernel)
  have hmem : ∀ e ∈ [third], e.toSignedPortion ∈ table.map Prod.fst := by decide +kernel
  have hrun : (Chain.mk genesisDigest ⟨secondDigest⟩).compact firstDigest forkedStore =
      (.ok 2, ⟨firstDigest, ⟨secondDigest⟩⟩, compactedStore) := by
    decide +kernel
  have hbelow : ∀ x ∈ [third], ∀ d, x.digest = .ok d → Relation.ReflTransGen (Names Sample.contents) firstDigest d := by
    intro x hx d hd
    have hthird : third.digest = .ok thirdDigest := by decide +kernel
    rw [List.mem_singleton.1 hx, hthird] at hd; cases hd
    have hnames : Names Sample.contents firstDigest secondDigest ∧ Names Sample.contents secondDigest thirdDigest := by
      refine ⟨⟨second.toSignedPortion, ?_, ?_, rfl⟩, ⟨third.toSignedPortion, ?_, ?_, rfl⟩⟩
      · show second.toSignedPortion ∈ table.map Prod.fst
        decide +kernel
      · decide +kernel
      · show third.toSignedPortion ∈ table.map Prod.fst
        decide +kernel
      · decide +kernel
    exact (Relation.ReflTransGen.single hnames.1).tail hnames.2
  have hstate : ∃ state, (Ledger.mk firstDigest).checkpoint forkedStore = .ok state := by
    refine ⟨⟨ExtTreeMap.insert ∅ ⟨"a", by decide⟩ ⟨.string "1"⟩⟩, ?_⟩
    decide +kernel
  obtain ⟨state, hstate⟩ := hstate
  obtain ⟨n, compacted, t, hrun', hall⟩ :=
    Reachable.compact_preserves sample_laws reachable_forkedStore hstored hpath hstate
  rw [hrun] at hrun'
  cases hrun'
  obtain ⟨hsame, hadopt⟩ := hall [third] hmem hbelow
  obtain ⟨adopted, u, hrunD, hfed⟩ := hadopt nofun 0
  exact ⟨state, adopted, u, hstate, hrunD, hsame, hfed [second] surviving_compactedStore⟩

/-- A cut at the `Init` the chain still starts with: `compact` takes it, and `adopt` refuses its
envelope. -/
theorem adopt_refuses_init_cut :
    Reachable Sample.contents ⟨genesisDigest, ⟨secondDigest⟩⟩ linearStore ∧
      linearStore.envelope genesisDigest = some (genesis.setVerificationStatus (.allMatched 0)) ∧
      (Ledger.mk genesisDigest).checkpoint linearStore = .ok ⟨∅⟩ ∧
      ((Chain.mk genesisDigest ⟨secondDigest⟩).compact genesisDigest linearStore).1 = .ok 0 ∧
      (Chain.adopt (genesis.setVerificationStatus (.allMatched 0)) ⟨∅⟩ (MemStorage.empty 0)).1 = .error (.error (.apply .unexpectedInit)) :=
  ⟨reachable_linearStore, by decide +kernel, by decide +kernel, by decide +kernel, by decide +kernel⟩

end IrohLotus.State
