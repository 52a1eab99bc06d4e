/-
The runs of a chain. Every state reached from `init` or `adopt` on an empty store by inserting,
compacting on the canonical path and reopening is good: its store is coherent, the head is the tip
of the log, and every envelope on the way to it has its version.
-/
import IrohLotus.State.Compact
import IrohLotus.State.Insert

namespace IrohLotus.State

open Std Outcome Forest IrohLotus.Wire IrohLotus.Storage

variable [Externals]

/-! ## Runs -/

/-- The states reached from `init` or `adopt` on an empty store, with every envelope that goes in
among `contents`. An `insert` is a batch of one. A `compact` may name any digest but the one the
root's own `prev` names, which is the one digest off the log that `compact` does not refuse. -/
inductive Reachable (contents : Set SignedPortion) : Chain → MemStorage → Prop
  | init {clock : StoredAt} {e : Envelope} {chain : Chain} {s : MemStorage} (content : e.toSignedPortion ∈ contents)
    (run : Chain.init e (MemStorage.empty clock) = (.ok chain, s)) : Reachable contents chain s
  | adopt {clock : StoredAt} {e : Envelope} {state : FullCheckpoint} {chain : Chain} {s : MemStorage}
    (content : e.toSignedPortion ∈ contents) (run : Chain.adopt e state (MemStorage.empty clock) = (.ok chain, s)) :
    Reachable contents chain s
  | insertBatch {chain chain' : Chain} {s s' : MemStorage} {es : List Envelope} {r : Res Error Insert}
    (h : Reachable contents chain s) (content : ∀ e ∈ es, e.toSignedPortion ∈ contents)
    (run : chain.insertBatch es s = (r, chain', s')) : Reachable contents chain' s'
  | compact {chain chain' : Chain} {s s' : MemStorage} {cut : EnvelopeDigest} {r : Res Error Nat}
    (h : Reachable contents chain s) (onLog : s.parent chain.root ≠ some cut)
    (run : chain.compact cut s = (r, chain', s')) : Reachable contents chain' s'
  | open {chain chain' : Chain} {s s' : MemStorage} (h : Reachable contents chain s)
    (run : Chain.open chain.root s = (.ok chain', s')) : Reachable contents chain' s'
  | tick {chain : Chain} {s : MemStorage} (h : Reachable contents chain s) (clock : StoredAt) :
    Reachable contents chain { s with clock }

/-- A chain on its store: the log is coherent from the root, and the head is its tip, with a
version at every envelope on the way there. -/
structure Good (W : World) (chain : Chain) (s : MemStorage) : Prop where
  coherent : Coherent W chain.root s
  pathHeld : Chain.PathHeld chain.root s
  tip : Tip s.parent s.rank chain.root chain.head

namespace Good

variable {W : World} {chain chain' : Chain} {s s' : MemStorage}

theorem acyclic (h : Good W chain s) : Acyclic s.parent := h.coherent.acyclic

theorem head_stored (h : Good W chain s) : s.Stored chain.head :=
  s.stored_of_desc h.coherent.base_stored h.tip.canonical.desc

/-- The canonical path is what lies between the root and the head. -/
theorem canonical_iff (h : Good W chain s) {d : EnvelopeDigest} :
    Canonical s.parent s.rank chain.root d ↔ Desc s.parent chain.root d ∧ Desc s.parent d chain.head :=
  h.tip.canonical_iff s.rank_injective h.acyclic

/-! ## Starting -/

/-- A store of one envelope and its state. -/
theorem single {clock : StoredAt} {d : EnvelopeDigest} {e : Envelope} {v : Version} (hd : e.digest = .ok d)
    (content : e.toSignedPortion ∈ W.contents) (hv : W.StateOf d v) :
    Good W ⟨d, ⟨d⟩⟩ (((MemStorage.empty clock).install d v).putEnvelope d e) := by
  have henv : ∀ x e', (((MemStorage.empty clock).install d v).putEnvelope d e).envelope x = some e' →
      x = d ∧ e' = e := by
    intro x e' h
    rw [MemStorage.envelope_putEnvelope] at h
    split at h
    · rename_i heq
      cases h; exact ⟨heq.symm, rfl⟩
    · simp [MemStorage.empty, MemStorage.envelope, MemStorage.loggedEnvelope, MemStorage.install] at h
  have hver : ∀ (x : EnvelopeDigest) w, (((MemStorage.empty clock).install d v).putEnvelope d e).versions[x]? = some w →
      x = d ∧ w = v := by
    intro x w h
    rw [MemStorage.versions_putEnvelope, MemStorage.versions_install] at h
    split at h
    · rename_i heq
      cases h; exact ⟨heq.symm, rfl⟩
    · simp [MemStorage.empty] at h
  have hstored : (((MemStorage.empty clock).install d v).putEnvelope d e).Stored d :=
    ⟨e, by rw [MemStorage.envelope_putEnvelope, if_pos rfl]⟩
  have hheld : (((MemStorage.empty clock).install d v).putEnvelope d e).Held d :=
    ⟨v, by rw [MemStorage.versions_putEnvelope, MemStorage.versions_install, if_pos rfl]⟩
  have hco : Coherent W d (((MemStorage.empty clock).install d v).putEnvelope d e) := by
    refine ⟨?_, ?_, ?_, hstored, hheld, ?_⟩
    · refine ((MemStorage.indexed_empty clock).install d v).putEnvelope fun e' he' => ?_
      simp [MemStorage.empty, MemStorage.envelope, MemStorage.loggedEnvelope, MemStorage.install] at he'
    · intro x e' he'
      obtain ⟨rfl, rfl⟩ := henv x e' he'
      exact ⟨content, hd⟩
    · intro x e' he' hne
      exact absurd (henv x e' he').1 hne
    · intro x w hw
      obtain ⟨rfl, rfl⟩ := hver x w hw
      exact ⟨hstored, hv⟩
  have hchild : ∀ c, (((MemStorage.empty clock).install d v).putEnvelope d e).parent c ≠ some d := by
    intro c hc
    obtain ⟨e', he'⟩ := MemStorage.stored_of_parent _ hc
    obtain ⟨rfl, -⟩ := henv c e' he'
    exact hco.acyclic.ne_parent hc rfl
  refine ⟨hco, fun y hy => ?_, Canonical.refl, hchild⟩
  rcases Relation.ReflTransGen.cases_head hy with rfl | ⟨c, hc, -⟩
  · exact hheld
  · exact absurd hc.child (hchild c)

/-! ## Stepping -/

/-- The walk after envelopes were stored finds the tip through versions alone. -/
theorem settle {t : MemStorage} (h : Good W chain s) (hw : Chain.WroteAll W s t) :
    ∃ ledger, chain.canonicalize t = (.ok ledger, t) ∧ Good W { chain with ledger } t := by
  have hco := hw.coherent h.coherent
  have hpath := hw.pathHeld h.coherent h.pathHeld
  obtain ⟨head, hrun, htip⟩ := Chain.canonicalize_held hco.indexed hco.acyclic hpath
  exact ⟨⟨head⟩, hrun, hco, hpath, htip⟩

/-- `insert_batch` on a good chain: it stores what it can, walks to the tip and answers what storing
answered. -/
theorem insertBatch_run {es : List Envelope} (h : Good W chain s) (content : ∀ e ∈ es, e.toSignedPortion ∈ W.contents) :
    ∃ t ledger, Chain.WroteAll W s t ∧ (s.HeldFrom chain.root → t.HeldFrom chain.root) ∧ Good W { chain with ledger } t ∧
      ((∃ b i, Chain.storeBatch Chain.Batch.start es s = (.ok b, t) ∧
        chain.insertBatch es s = (.ok i, { chain with ledger }, t)) ∨
      ∃ err, Chain.storeBatch Chain.Batch.start es s = (.error (.error err), t) ∧
        chain.insertBatch es s = (.error (.error err), { chain with ledger }, t)) := by
  obtain ⟨t, hw, hfrom, hres⟩ := Chain.storeBatch_cases h.coherent Chain.footed_start content
  obtain ⟨ledger, hcanon, hgood⟩ := h.settle hw
  refine ⟨t, ledger, hw, hfrom, hgood, ?_⟩
  unfold Chain.insertBatch
  rcases hres with ⟨b, hb⟩ | ⟨err, herr⟩
  · obtain ⟨i, hi⟩ := Chain.outcome_eq_ok hgood.coherent.acyclic chain.ledger.head ledger.head b
    refine .inl ⟨b, i, hb, ?_⟩
    rw [Action.attempt_ok hb]
    simp only [hcanon, Res.ofExcept_ok, Res.ok_bind, hi]
  · refine .inr ⟨err, herr, ?_⟩
    rw [Action.attempt_error herr]
    simp only [hcanon]; rfl

theorem insertBatch {es : List Envelope} {r : Res Error Insert} (h : Good W chain s)
    (content : ∀ e ∈ es, e.toSignedPortion ∈ W.contents) (run : chain.insertBatch es s = (r, chain', s')) :
    Good W chain' s' ∧ chain'.root = chain.root ∧ Chain.WroteAll W s s' ∧
      (s.HeldFrom chain.root → s'.HeldFrom chain.root) := by
  obtain ⟨t, ledger, hw, hfrom, hgood, ⟨b, i, -, hrun⟩ | ⟨err, -, hrun⟩⟩ := h.insertBatch_run content
  · rw [hrun] at run; cases run; exact ⟨hgood, rfl, hw, hfrom⟩
  · rw [hrun] at run; cases run; exact ⟨hgood, rfl, hw, hfrom⟩

theorem insert {e : Envelope} (h : Good W chain s) (content : e.toSignedPortion ∈ W.contents) :
    Good W (chain.insert e s).2.1 (chain.insert e s).2.2 ∧ (chain.insert e s).2.1.root = chain.root ∧
      Chain.WroteAll W s (chain.insert e s).2.2 := by
  have hone : ∀ e' ∈ [e], e'.toSignedPortion ∈ W.contents := by
    intro e' he'
    rw [List.mem_singleton.1 he']; exact content
  obtain ⟨hgood, hroot, hw, -⟩ := h.insertBatch hone (r := (chain.insert e s).1) rfl
  exact ⟨hgood, hroot, hw⟩

/-- A cut the head descends from is on the canonical path, or it is what the root's `prev` names. -/
theorem canonical_of_desc {cut : EnvelopeDigest} (h : Good W chain s) (onLog : s.parent chain.root ≠ some cut)
    (hcut : Desc s.parent cut chain.head) : Canonical s.parent s.rank chain.root cut := by
  refine h.canonical_iff.2 ⟨?_, hcut⟩
  rcases hcut.total h.tip.canonical.desc with hd | hd
  · by_cases hne : chain.root = cut
    · rw [hne]; exact Desc.refl
    · obtain ⟨p, hp, hcp⟩ := hd.exists_parent hne
      by_cases hpc : p = cut
      · subst hpc; exact absurd hp onLog
      · obtain ⟨q, hq, -⟩ := hcp.exists_parent hpc
        exact absurd hp (h.coherent.not_desc_base (s.stored_of_parent hq))
  · exact hd

theorem recoverable {cut : EnvelopeDigest} (h : Good W chain s) (hcut : Canonical s.parent s.rank chain.root cut) :
    Chain.Recoverable s cut := ⟨chain.root, hcut.desc, fun _ hd => h.coherent.desc hd⟩

end Good

/-! ## Compacting a coherent store -/

namespace Chain.CompactedTo

variable {W : World} {base cut head : EnvelopeDigest} {s t : MemStorage} (h : CompactedTo s cut head t)

include h

theorem coherent (hco : Coherent W base s) (hcut : s.Held cut) (hhead : Desc s.parent cut head) : Coherent W cut t where
  indexed := h.indexed
  content := by
    intro d e he
    obtain ⟨-, hd⟩ := h.stored_iff.1 ⟨e, he⟩
    rw [h.keeps.envelope_kept hd] at he
    exact hco.content d e he
  accepted := by
    intro d e he hne
    obtain ⟨hds, hd⟩ := h.stored_iff.1 ⟨e, he⟩
    rw [h.keeps.envelope_kept hd] at he
    have hcs : s.Stored cut := by
      obtain ⟨v, hv⟩ := hcut
      exact (hco.versions cut v hv).1
    have hdb : d ≠ base := by
      rintro rfl
      exact hne (hco.acyclic.antisymm (hco.desc hcs) hd)
    obtain ⟨p, v, v', hp, hv, hacc⟩ := hco.accepted d e he hdb
    refine ⟨p, v, v', h.stored_iff.2 ⟨hp, hd.of_parent hne ?_⟩, hv, hacc⟩
    rw [s.parent_of_envelope he, hacc.prev]
  base_stored := by
    obtain ⟨v, hv⟩ := hcut
    exact h.stored_iff.2 ⟨(hco.versions cut v hv).1, Desc.refl⟩
  base_held := by
    obtain ⟨v, hv⟩ := hcut
    exact ⟨v, by rw [h.versions_kept cut Desc.refl hhead]; exact hv⟩
  versions := by
    intro d v hv
    obtain ⟨hv, hd, -⟩ := h.versions_of hv
    obtain ⟨hds, hstate⟩ := hco.versions d v hv
    exact ⟨h.stored_iff.2 ⟨hds, hd⟩, hstate⟩

omit [Externals] in
/-- The versions kept stand on one another down to the cut. -/
theorem heldFrom (hfrom : s.HeldFrom base) (hbase : Desc s.parent base cut) (hac : Acyclic s.parent) : t.HeldFrom cut := by
  intro d p hd hne hp
  obtain ⟨v, hv⟩ := hd
  obtain ⟨hv, hcd, hdh⟩ := h.versions_of hv
  have hps := h.keeps.extends d p hp
  have hdb : d ≠ base := by
    rintro rfl
    exact hne (hac.antisymm hbase hcd)
  obtain ⟨w, hw⟩ := hfrom d p ⟨v, hv⟩ hdb hps
  exact ⟨w, by rw [h.versions_kept p (hcd.of_parent hne hps) ((Desc.of_child hps).trans hdh)]; exact hw⟩

end Chain.CompactedTo

namespace Good

variable {W : World} {chain chain' : Chain} {s s' : MemStorage}

/-- A compacted chain is good from the cut on. -/
theorem compacted {cut : EnvelopeDigest} (h : Good W chain s) (hcut : Canonical s.parent s.rank chain.root cut)
    (hc : Chain.CompactedTo s cut chain.head s') : Good W { chain with root := cut } s' := by
  have htip : Tip s.parent s.rank cut chain.head := h.tip.of_canonical s.rank_injective hcut
  refine ⟨hc.coherent h.coherent (h.pathHeld cut hcut) htip.canonical.desc, fun y hy => ?_, hc.keeps.agree.tip.1 htip⟩
  have hys : Canonical s.parent s.rank cut y := hc.keeps.agree.canonical.2 hy
  obtain ⟨v, hv⟩ := h.pathHeld y (hcut.trans hys)
  refine ⟨v, ?_⟩
  rw [hc.versions_kept y hys.desc (htip.of_canonical s.rank_injective hys).canonical.desc]
  exact hv

theorem compact {cut : EnvelopeDigest} {r : Res Error Nat} (h : Good W chain s) (onLog : s.parent chain.root ≠ some cut)
    (run : chain.compact cut s = (r, chain', s')) : Good W chain' s' := by
  rcases Chain.compact_cases h.coherent.indexed h.acyclic fun hd => h.recoverable (h.canonical_of_desc onLog hd) with
    ⟨-, hrun⟩ | ⟨hd, n, t, hct, -, hrun⟩
  · rw [hrun] at run; cases run; exact h
  · rw [hrun] at run; cases run
    exact h.compacted (h.canonical_of_desc onLog hd) hct

/-- Reopening at the root gives the chain back. -/
theorem «open» (h : Good W chain s) : Chain.open chain.root s = (.ok chain, s) := by
  obtain ⟨head, hrun, htip⟩ :=
    Chain.open_held h.coherent.indexed h.acyclic h.coherent.base_stored h.pathHeld
  rw [hrun, Tip.unique s.rank_injective htip h.tip]; rfl

theorem tick (h : Good W chain s) (clock : StoredAt) : Good W chain { s with clock } :=
  ⟨⟨h.coherent.indexed, h.coherent.content, h.coherent.accepted, h.coherent.base_stored, h.coherent.base_held,
    h.coherent.versions⟩, h.pathHeld, h.tip⟩

end Good

/-! ## Opening on an empty store -/

/-- An `Init` opens a ledger on its own checkpoint. -/
theorem Ledger.init_of_valid {s : MemStorage} {e : Envelope} {d : EnvelopeDigest} {msg : InitMsg}
    (hmsg : e.payload = .init msg) (hcheck : validateCheckpoint msg.state = .ok ()) (hd : e.digest = .ok d) :
    Ledger.init e s = (.ok ⟨d⟩, s.install d msg.state.namespaces) := by
  have hread : Action.ofRes ((validateCheckpoint msg.state).mapErr Error.apply) s = (.ok (), s) := by
    rw [hcheck]; rfl
  have hdigest : Action.ofRes (Res.ofExcept Error.wire e.digest) s = (.ok d, s) := by
    rw [hd]; rfl
  simp only [Ledger.init, hmsg]
  rw [Action.bind_ok hread, Action.bind_ok hdigest]; rfl

theorem init_eq_ok {clock : StoredAt} {e : Envelope} {chain : Chain} {s : MemStorage}
    (run : Chain.init e (MemStorage.empty clock) = (.ok chain, s)) :
    ∃ msg status d, e.payload = .init msg ∧ validateCheckpoint msg.state = .ok () ∧ e.digest = .ok d ∧
      (Ledger.mk d).verifyEnvelope (only d msg.state.namespaces) e = .ok status ∧ chain = ⟨d, ⟨d⟩⟩ ∧
      s = ((MemStorage.empty clock).install d msg.state.namespaces).putEnvelope d (e.setVerificationStatus status) := by
  unfold Chain.init at run
  obtain ⟨ledger, s₁, h₁, run⟩ := Action.bind_eq_ok run
  obtain ⟨msg, hmsg, hcheck, hd, rfl⟩ := Ledger.init_eq_ok h₁
  obtain ⟨status, s₂, h₂, run⟩ := Action.bind_eq_ok run
  obtain ⟨hver, rfl⟩ := Action.read_eq_ok h₂
  obtain ⟨_, s₃, h₃, run⟩ := Action.bind_eq_ok run
  cases Action.write_eq_ok h₃
  cases run
  have hver := Res.mapErr_eq_ok hver
  rw [verifyEnvelope_only (v := msg.state.namespaces) (by rw [MemStorage.versions_install, if_pos rfl])] at hver
  exact ⟨msg, status, ledger.head, hmsg, hcheck, hd, hver, rfl, rfl⟩

/-- `init` depends on the envelope alone. -/
theorem init_of_valid {e : Envelope} {d : EnvelopeDigest} {msg : InitMsg} {status : VerificationStatus} (clock : StoredAt)
    (hmsg : e.payload = .init msg) (hcheck : validateCheckpoint msg.state = .ok ()) (hd : e.digest = .ok d)
    (hver : (Ledger.mk d).verifyEnvelope (only d msg.state.namespaces) e = .ok status) :
    Chain.init e (MemStorage.empty clock) = (.ok ⟨d, ⟨d⟩⟩,
      ((MemStorage.empty clock).install d msg.state.namespaces).putEnvelope d (e.setVerificationStatus status)) := by
  have hread : Action.read (fun s => ((Ledger.mk d).verifyEnvelope s e).mapErr Error.apply)
      ((MemStorage.empty clock).install d msg.state.namespaces) =
        (.ok status, (MemStorage.empty clock).install d msg.state.namespaces) := by
    rw [Action.read, verifyEnvelope_only (v := msg.state.namespaces) (by rw [MemStorage.versions_install, if_pos rfl]),
      hver]; rfl
  unfold Chain.init
  rw [Action.bind_ok (Ledger.init_of_valid hmsg hcheck hd), Action.bind_ok hread]; rfl

theorem adopt_eq_ok {clock : StoredAt} {e : Envelope} {state : FullCheckpoint} {chain : Chain} {s : MemStorage}
    (run : Chain.adopt e state (MemStorage.empty clock) = (.ok chain, s)) :
    ∃ d, (∀ msg, e.payload ≠ .init msg) ∧ validateCheckpoint state = .ok () ∧ e.digest = .ok d ∧ chain = ⟨d, ⟨d⟩⟩ ∧
      s = ((MemStorage.empty clock).install d state.namespaces).putEnvelope d e := by
  have hinit : ∀ msg, e.payload ≠ .init msg := by
    intro msg hp
    simp only [Chain.adopt, hp] at run; cases run
  have hrest : (do
      let ledger ← Ledger.adopt e state
      let root := ledger.head
      Action.write fun s => pure (s.putEnvelope root e)
      pure { root, ledger } : Action MemStorage Error Chain) (MemStorage.empty clock) = (.ok chain, s) := by
    cases hp : e.payload with
    | init msg => exact absurd hp (hinit msg)
    | setNamespace _ | setNamespaceKey _ | amendNamespaceKey _ | deleteNamespace _ =>
      simp only [Chain.adopt, hp] at run; exact run
  obtain ⟨ledger, s₁, h₁, hrest⟩ := Action.bind_eq_ok hrest
  obtain ⟨hcheck, hd, rfl⟩ := Ledger.adopt_eq_ok h₁
  obtain ⟨_, s₂, h₂, hrest⟩ := Action.bind_eq_ok hrest
  cases Action.write_eq_ok h₂
  cases hrest
  exact ⟨ledger.head, hinit, hcheck, hd, rfl, rfl⟩

/-- Every state a run reaches is good. -/
theorem Reachable.good {contents : Set SignedPortion} (laws : DigestLaws contents) {chain : Chain} {s : MemStorage}
    (h : Reachable contents chain s) : ∃ W : World, W.contents = contents ∧ Good W chain s := by
  induction h with
  | init content run =>
    obtain ⟨msg, status, d, hmsg, hcheck, hd, -, rfl, rfl⟩ := init_eq_ok run
    refine ⟨⟨contents, laws, d, msg.state.namespaces, validateCheckpoint_ruled hcheck, fun e' he' hd' msg' hmsg' => ?_⟩,
      rfl, Good.single hd content .genesis⟩
    rw [laws.collisionFree _ he' _ content d hd' hd, hmsg] at hmsg'
    cases hmsg'
    exact ⟨hcheck, rfl⟩
  | @adopt clock e state chain s content run =>
    obtain ⟨d, hinit, hcheck, hd, rfl, rfl⟩ := adopt_eq_ok run
    refine ⟨⟨contents, laws, d, state.namespaces, validateCheckpoint_ruled hcheck, fun e' he' hd' msg' hmsg' => ?_⟩,
      rfl, Good.single hd content .genesis⟩
    rw [laws.collisionFree _ he' _ content d hd' hd] at hmsg'
    exact absurd hmsg' (hinit msg')
  | insertBatch _ content run ih =>
    obtain ⟨W, rfl, hg⟩ := ih
    exact ⟨W, rfl, (hg.insertBatch content run).1⟩
  | compact _ onLog run ih =>
    obtain ⟨W, rfl, hg⟩ := ih
    exact ⟨W, rfl, hg.compact onLog run⟩
  | «open» _ run ih =>
    obtain ⟨W, rfl, hg⟩ := ih
    rw [hg.open] at run
    cases run
    exact ⟨W, rfl, hg⟩
  | tick _ clock ih =>
    obtain ⟨W, rfl, hg⟩ := ih
    exact ⟨W, rfl, hg.tick clock⟩

omit [Externals] in
theorem heldFrom_single {clock : StoredAt} {d : EnvelopeDigest} {e : Envelope} {v : Version} :
    (((MemStorage.empty clock).install d v).putEnvelope d e).HeldFrom d := by
  intro c p hc hne _
  have hcd : ((MemStorage.empty clock).install d v).Held c := hc
  rcases MemStorage.held_install.1 hcd with ⟨w, hw⟩ | hcd
  · simp [MemStorage.empty] at hw
  · exact absurd hcd hne

/-- No version a run holds is cut off from the root. -/
theorem Reachable.heldFrom {contents : Set SignedPortion} (laws : DigestLaws contents) {chain : Chain} {s : MemStorage}
    (h : Reachable contents chain s) : s.HeldFrom chain.root := by
  induction h with
  | init content run =>
    obtain ⟨_, _, _, -, -, -, -, rfl, rfl⟩ := init_eq_ok run
    exact heldFrom_single
  | adopt content run =>
    obtain ⟨_, -, -, -, rfl, rfl⟩ := adopt_eq_ok run
    exact heldFrom_single
  | insertBatch h content run ih =>
    obtain ⟨W, rfl, hg⟩ := h.good laws
    obtain ⟨-, hroot, -, hfrom⟩ := hg.insertBatch content run
    rw [hroot]; exact hfrom ih
  | @compact chain chain' s s' cut r h onLog run ih =>
    obtain ⟨W, rfl, hg⟩ := h.good laws
    rcases Chain.compact_cases hg.coherent.indexed hg.acyclic fun hd => hg.recoverable (hg.canonical_of_desc onLog hd) with
      ⟨-, hrun⟩ | ⟨hd, n, t, hct, -, hrun⟩
    · rw [hrun] at run; cases run; exact ih
    · rw [hrun] at run; cases run
      exact hct.heldFrom ih (hg.canonical_of_desc onLog hd).desc hg.acyclic
  | «open» h run ih =>
    obtain ⟨W, rfl, hg⟩ := h.good laws
    rw [hg.open] at run
    cases run
    exact ih
  | tick _ clock ih => exact ih

/-- The head is where greedy fork choice from the root ends, every envelope on the way is held, and
so the walk after any batch finds its way through versions alone: it writes and removes nothing. -/
theorem Reachable.head_is_tip {contents : Set SignedPortion} (laws : DigestLaws contents) {chain : Chain} {s : MemStorage}
    (h : Reachable contents chain s) :
    (∀ d, Tip s.parent s.rank chain.root d ↔ d = chain.head) ∧
    (∀ d, Canonical s.parent s.rank chain.root d → s.Held d) ∧
    ∀ es : List Envelope, (∀ e ∈ es, e.toSignedPortion ∈ contents) →
      ∀ r t, Chain.storeBatch Chain.Batch.start es s = (r, t) → ∃ ledger, chain.canonicalize t = (.ok ledger, t) := by
  obtain ⟨W, rfl, hg⟩ := h.good laws
  refine ⟨fun d => ⟨fun hd => Tip.unique s.rank_injective hd hg.tip, ?_⟩, hg.pathHeld, fun es hes r t hrun => ?_⟩
  · rintro rfl; exact hg.tip
  · obtain ⟨u, hwrote, -, hres⟩ := Chain.storeBatch_cases hg.coherent Chain.footed_start hes
    obtain rfl : u = t := by
      rcases hres with ⟨b, hb⟩ | ⟨err, hb⟩
      · rw [hb] at hrun; exact (Prod.mk.inj hrun).2
      · rw [hb] at hrun; exact (Prod.mk.inj hrun).2
    obtain ⟨ledger, hcanon, -⟩ := hg.settle hwrote
    exact ⟨ledger, hcanon⟩

end IrohLotus.State

/-! ## A run of the samples -/

namespace IrohLotus.State

open Std Outcome Forest IrohLotus.Wire IrohLotus.Wire.Sample IrohLotus.Storage

/-- The store of a chain of `genesis` alone. -/
def genesisStore : MemStorage := (Chain.init genesis (MemStorage.empty 0)).2

/-- The store of a chain of three. -/
def linearStore : MemStorage := ((Chain.mk genesisDigest ⟨genesisDigest⟩).insertBatch [first, second] genesisStore).2.2

/-- That store once a fork off `genesis` has lost to `first`. -/
def forkedStore : MemStorage := ((Chain.mk genesisDigest ⟨secondDigest⟩).insert other linearStore).2.2

/-- And once it was compacted at `first`. -/
def compactedStore : MemStorage := ((Chain.mk genesisDigest ⟨secondDigest⟩).compact firstDigest forkedStore).2.2

theorem reachable_genesisStore : Reachable Sample.contents ⟨genesisDigest, ⟨genesisDigest⟩⟩ genesisStore := by
  have hmem : genesis.toSignedPortion ∈ table.map Prod.fst := by decide +kernel
  have hrun : Chain.init genesis (MemStorage.empty 0) = (.ok ⟨genesisDigest, ⟨genesisDigest⟩⟩, genesisStore) := by
    decide +kernel
  exact .init hmem hrun

theorem reachable_linearStore : Reachable Sample.contents ⟨genesisDigest, ⟨secondDigest⟩⟩ linearStore := by
  have hmem : ∀ e ∈ [first, second], e.toSignedPortion ∈ table.map Prod.fst := by decide +kernel
  have hrun : (Chain.mk genesisDigest ⟨genesisDigest⟩).insertBatch [first, second] genesisStore =
      (.ok .extended, ⟨genesisDigest, ⟨secondDigest⟩⟩, linearStore) := by
    decide +kernel
  exact .insertBatch reachable_genesisStore hmem hrun

theorem reachable_forkedStore : Reachable Sample.contents ⟨genesisDigest, ⟨secondDigest⟩⟩ forkedStore := by
  have hmem : ∀ e ∈ [other], e.toSignedPortion ∈ table.map Prod.fst := by decide +kernel
  have hrun : (Chain.mk genesisDigest ⟨secondDigest⟩).insertBatch [other] linearStore =
      (.ok .unchanged, ⟨genesisDigest, ⟨secondDigest⟩⟩, forkedStore) := by
    decide +kernel
  exact .insertBatch reachable_linearStore hmem hrun

theorem reachable_compactedStore : Reachable Sample.contents ⟨firstDigest, ⟨secondDigest⟩⟩ compactedStore := by
  have hlog : forkedStore.parent genesisDigest ≠ some firstDigest := by decide +kernel
  have hrun : (Chain.mk genesisDigest ⟨secondDigest⟩).compact firstDigest forkedStore =
      (.ok 2, ⟨firstDigest, ⟨secondDigest⟩⟩, compactedStore) := by
    decide +kernel
  exact .compact reachable_forkedStore hlog hrun

theorem head_is_tip_compactedStore :
    Reachable Sample.contents ⟨firstDigest, ⟨secondDigest⟩⟩ compactedStore ∧
      Tip compactedStore.parent compactedStore.rank firstDigest secondDigest ∧
      compactedStore.Held secondDigest ∧
      ∃ ledger, (Chain.mk firstDigest ⟨secondDigest⟩).canonicalize
        (Chain.storeBatch Chain.Batch.start [third] compactedStore).2 =
          (.ok ledger, (Chain.storeBatch Chain.Batch.start [third] compactedStore).2) := by
  have hmem : ∀ e ∈ [third], e.toSignedPortion ∈ table.map Prod.fst := by decide +kernel
  obtain ⟨htip, hheld, hwalk⟩ := Reachable.head_is_tip sample_laws reachable_compactedStore
  have hhead := (htip secondDigest).2 rfl
  exact ⟨reachable_compactedStore, hhead, hheld _ hhead.canonical, hwalk [third] hmem _ _ rfl⟩

end IrohLotus.State
