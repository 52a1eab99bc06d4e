/-
What the versions of a chain are. Each is the fold of the messages on its path over the version of
the root, each envelope is stored with the status it verified to on its parent's fold, and the path
to the head, replayed into an empty store, gives the chain's state again.
-/
import IrohLotus.State.Reach

namespace IrohLotus.State

open Std Outcome Forest IrohLotus.Wire IrohLotus.Storage

/-! ## Paths and folds -/

/-- The envelopes the log holds strictly above `a` on the way up to `d`, with `a` stored as well. -/
inductive Path (s : MemStorage) (a : EnvelopeDigest) : List Envelope → EnvelopeDigest → Prop
  | start (stored : s.Stored a) : Path s a [] a
  | step {es : List Envelope} {p d : EnvelopeDigest} {e : Envelope} (path : Path s a es p)
    (stored : s.envelope d = some e) (prev : e.prev = some p) : Path s a (es ++ [e]) d

/-- A message as a pure update of a namespace map. -/
def foldStep (v : Version) (e : Envelope) : Option Version :=
  (opOf e.payload).bind fun op => (op.update (E := ApplyError) v).toOption

/-- The state a run of envelopes makes of `v`. -/
def fold (v : Version) (es : List Envelope) : Option Version := es.foldlM foldStep v

theorem fold_append_one {v w : Version} {es : List Envelope} (h : fold v es = some w) (e : Envelope) :
    fold v (es ++ [e]) = foldStep w e := by
  unfold fold at h ⊢
  rw [List.foldlM_append, h]
  exact bind_pure (foldStep w e)

theorem Path.stored {s : MemStorage} {a d : EnvelopeDigest} {es : List Envelope} (h : Path s a es d) : s.Stored d := by
  cases h with
  | start stored => exact stored
  | step _ stored _ => exact ⟨_, stored⟩

variable [Externals]

theorem Accepts.foldStep {p d : EnvelopeDigest} {v v' : Version} {e : Envelope} (h : Accepts p v e d v') :
    foldStep v e = some v' := by
  obtain ⟨op, hc, hu⟩ := h.checked
  obtain ⟨-, -, -, hm, -⟩ := Ledger.checked_eq_ok hc
  have hop := (Ledger.validateMsg_eq_ok (E := ApplyError) (versions_only p v) hm).1
  simp only [State.foldStep, hop, Option.bind_some, hu]; rfl

/-- An accepted envelope replays on the state it was accepted on. -/
theorem Accepts.replayOne {p d : EnvelopeDigest} {v v' : Version} {e : Envelope} {s : MemStorage}
    (h : Accepts p v e d v') (hv : s.versions[p]? = some v) :
    (Ledger.mk p).replayOne e s = (.ok ⟨d⟩, s.install d v') := by
  have hread : Action.read (fun s => (Ledger.mk p).verifyEnvelope s e) s = (.ok e.verificationStatus, s) := by
    rw [Action.read, verifyEnvelope_only hv, h.verified]
  unfold Ledger.replayOne
  rw [Action.bind_ok hread]
  exact h.apply hv

namespace Coherent

variable {W : World} {base d : EnvelopeDigest} {s : MemStorage} {es : List Envelope} {rootState : Version}
  (h : Coherent W base s)

include h

theorem exists_path (hd : s.Stored d) : ∃ es, Path s base es d := by
  induction d using h.acyclic.induction with
  | _ d ih =>
    by_cases hne : d = base
    · subst hne; exact ⟨[], .start hd⟩
    · obtain ⟨p, hp, hps⟩ := h.exists_parent hd hne
      obtain ⟨e, he, hprev⟩ := s.parent_eq_some.1 hp
      obtain ⟨es, hes⟩ := ih p hp hps
      exact ⟨es ++ [e], .step hes he hprev⟩

/-- One more envelope on a path was accepted on the state of the path so far. -/
theorem path_accepts {p : EnvelopeDigest} {e : Envelope} {v : Version} (path : Path s base es p)
    (stored : s.envelope d = some e) (prev : e.prev = some p) (hv : W.StateOf p v) :
    ∃ v', Accepts p v e d v' ∧ W.StateOf d v' := by
  have hne : d ≠ base := by
    rintro rfl
    exact h.not_desc_base path.stored (by rw [s.parent_of_envelope stored]; exact prev)
  obtain ⟨q, w, v', -, hw, hacc⟩ := h.accepted d e stored hne
  obtain rfl : q = p := by
    have := hacc.prev
    rw [prev] at this; exact (Option.some.inj this).symm
  obtain rfl := hw.unique hv
  exact ⟨v', hacc, World.StateOf.child hw (h.content d e stored).1 hacc⟩

/-- The messages of a path fold to the state of its end. -/
theorem fold_path (hroot : s.versions[base]? = some rootState) (path : Path s base es d) :
    ∃ v, fold rootState es = some v ∧ W.StateOf d v := by
  induction path with
  | start stored => exact ⟨rootState, rfl, (h.versions base rootState hroot).2⟩
  | @step es p d e path stored prev ih =>
    obtain ⟨v, hfold, hv⟩ := ih
    obtain ⟨v', hacc, hv'⟩ := h.path_accepts path stored prev hv
    exact ⟨v', by rw [fold_append_one hfold, hacc.foldStep], hv'⟩

/-- A path replays wherever the root's version is held. -/
theorem replay_path {u : MemStorage} (hroot : s.versions[base]? = some rootState)
    (hu : u.versions[base]? = some rootState) (path : Path s base es d) :
    ∃ t v, es.foldlM Ledger.replayOne ⟨base⟩ u = (.ok ⟨d⟩, t) ∧ t.versions[d]? = some v ∧ W.StateOf d v := by
  induction path with
  | start stored => exact ⟨u, rootState, rfl, hu, (h.versions base rootState hroot).2⟩
  | @step es p d e path stored prev ih =>
    obtain ⟨t, v, hrun, htv, hv⟩ := ih
    obtain ⟨v', hacc, hv'⟩ := h.path_accepts path stored prev hv
    refine ⟨t.install d v', v', ?_, by rw [MemStorage.versions_install, if_pos rfl], hv'⟩
    rw [List.foldlM_append, Action.bind_ok hrun, List.foldlM_cons, Action.bind_ok (hacc.replayOne htv)]; rfl

end Coherent

omit [Externals] in
theorem Ledger.checkpoint_eq_ok {s : MemStorage} {ledger : Ledger} {v : Version} (hv : s.versions[ledger.head]? = some v) :
    ledger.checkpoint s = .ok ⟨v⟩ := by
  simp only [Ledger.checkpoint, MemStorage.namespaces, MemStorage.version, hv, Res.expect_some, Res.ok_bind]; rfl

/-! ## Every version is the fold of its path -/

/-- What the versions and statuses of a chain's store are, `rootState` being the version of its root. -/
structure Folds (chain : Chain) (s : MemStorage) (rootState : Version) : Prop where
  root : s.versions[chain.root]? = some rootState
  paths : ∀ d, s.Stored d → ∃ es, Path s chain.root es d
  versions : ∀ d v, s.versions[d]? = some v → s.Stored d ∧ ∀ es, Path s chain.root es d → fold rootState es = some v
  statuses : ∀ d e, s.envelope d = some e → d ≠ chain.root → ∃ p es v, e.prev = some p ∧ Path s chain.root es p ∧
    fold rootState es = some v ∧ (Ledger.mk p).verifyEnvelope (only p v) e = .ok e.verificationStatus
  replays : ∀ genesis msg, s.envelope chain.root = some genesis → genesis.payload = .init msg →
    ∃ es, Path s chain.root es chain.head ∧ ∀ clock, ∃ ledger t state,
      Ledger.replay (genesis :: es) (MemStorage.empty clock) = (.ok ledger, t) ∧ ledger.head = chain.head ∧
      ledger.checkpoint t = .ok state ∧ chain.checkpoint s = .ok state

theorem Good.replays {W : World} {chain : Chain} {s : MemStorage} (h : Good W chain s) {genesis : Envelope}
    {msg : InitMsg} (hg : s.envelope chain.root = some genesis) (hmsg : genesis.payload = .init msg) :
    ∃ es, Path s chain.root es chain.head ∧ ∀ clock, ∃ ledger t state,
      Ledger.replay (genesis :: es) (MemStorage.empty clock) = (.ok ledger, t) ∧ ledger.head = chain.head ∧
      ledger.checkpoint t = .ok state ∧ chain.checkpoint s = .ok state := by
  obtain ⟨rootState, hroot⟩ := h.coherent.base_held
  obtain ⟨content, hd⟩ := h.coherent.content _ _ hg
  obtain ⟨-, hcheck, hstate⟩ := (h.coherent.versions _ _ hroot).2.init_eq content hd hmsg
  obtain ⟨es, hpath⟩ := h.coherent.exists_path h.head_stored
  obtain ⟨v, hv⟩ := h.pathHeld chain.head h.tip.canonical
  refine ⟨es, hpath, fun clock => ?_⟩
  have hinit := Ledger.init_of_valid (s := MemStorage.empty clock) hmsg hcheck hd
  obtain ⟨t, v', hrun, ht, hv'⟩ := h.coherent.replay_path (u := (MemStorage.empty clock).install chain.root rootState)
    hroot (by rw [MemStorage.versions_install, if_pos rfl]) hpath
  obtain rfl := hv'.unique (h.coherent.versions _ _ hv).2
  refine ⟨⟨chain.head⟩, t, ⟨v'⟩, ?_, rfl, Ledger.checkpoint_eq_ok ht, Ledger.checkpoint_eq_ok hv⟩
  rw [Ledger.replay, Action.bind_ok hinit, ← hstate]
  simp only [Action.mapErr, hrun]; rfl

theorem Good.folds {W : World} {chain : Chain} {s : MemStorage} (h : Good W chain s) :
    ∃ rootState, Folds chain s rootState := by
  obtain ⟨rootState, hroot⟩ := h.coherent.base_held
  refine ⟨rootState, hroot, fun d hd => h.coherent.exists_path hd, fun d v hv => ?_, fun d e he hne => ?_,
    fun _ _ hg hmsg => h.replays hg hmsg⟩
  · obtain ⟨hstored, hstate⟩ := h.coherent.versions d v hv
    refine ⟨hstored, fun es hes => ?_⟩
    obtain ⟨w, hfold, hw⟩ := h.coherent.fold_path hroot hes
    rw [hfold, hw.unique hstate]
  · obtain ⟨p, v, v', hp, hv, hacc⟩ := h.coherent.accepted d e he hne
    obtain ⟨es, hes⟩ := h.coherent.exists_path hp
    obtain ⟨w, hfold, hw⟩ := h.coherent.fold_path hroot hes
    obtain rfl := hw.unique hv
    exact ⟨p, es, w, hacc.prev, hes, hfold, hacc.verified⟩

/-- In every state of a run in which no `compact` names what the root's own `prev` names, the log
hangs together from the root, every version is the fold of its path, every status is what verifying
against the parent's fold yields, and an `Init` chain replays to its own state. -/
theorem Reachable.versions_fold {contents : Set SignedPortion} (laws : DigestLaws contents) {chain : Chain} {s : MemStorage}
    (h : Reachable contents chain s) : ∃ rootState, Folds chain s rootState := by
  obtain ⟨W, rfl, hg⟩ := h.good laws
  exact hg.folds

end IrohLotus.State

/-! ## The samples -/

namespace IrohLotus.State

open Std Outcome Forest IrohLotus.Wire IrohLotus.Wire.Sample IrohLotus.Storage

theorem folds_compactedStore :
    Reachable Sample.contents ⟨firstDigest, ⟨secondDigest⟩⟩ compactedStore ∧
      ∃ rootState, Folds ⟨firstDigest, ⟨secondDigest⟩⟩ compactedStore rootState :=
  ⟨reachable_compactedStore, Reachable.versions_fold sample_laws reachable_compactedStore⟩

/-- The store of a chain adopted at `first`. -/
def adoptedStore : MemStorage := (Chain.adopt first ⟨∅⟩ (MemStorage.empty 0)).2

/-- `compact` at the digest the root's `prev` names moves the root off the log: nothing stands there
for the versions to be folded over. -/
theorem not_folds_below_root :
    Chain.adopt first ⟨∅⟩ (MemStorage.empty 0) = (.ok ⟨firstDigest, ⟨firstDigest⟩⟩, adoptedStore) ∧
      (Chain.mk firstDigest ⟨firstDigest⟩).compact genesisDigest adoptedStore =
        (.ok 0, ⟨genesisDigest, ⟨firstDigest⟩⟩, adoptedStore) ∧
      adoptedStore.envelope genesisDigest = none ∧
      ¬ ∃ rootState, Folds ⟨genesisDigest, ⟨firstDigest⟩⟩ adoptedStore rootState := by
  have hnone : adoptedStore.versions[genesisDigest]? = none := by decide +kernel
  refine ⟨by decide +kernel, by decide +kernel, by decide +kernel, ?_⟩
  rintro ⟨rootState, hfolds⟩
  rw [hfolds.root] at hnone
  cases hnone

end IrohLotus.State
