/-
What leaves the canonical path leaves it for good. A chain that `compact` was called on at any
digest at all may stand on a root the log does not hold, so the invariant here is weaker than that
of the other runs: the log has some base, and the head need not be the tip until the next walk.
-/
import IrohLotus.State.Diff
import IrohLotus.State.Reach

namespace IrohLotus.State

open Std Outcome Forest IrohLotus.Wire IrohLotus.Storage

/-! ## Runs of operations -/

section Runs

variable [Externals]

/-- One operation on a chain whose store does not fail, or the clock going on between two. -/
inductive Step (contents : Set SignedPortion) : Chain × MemStorage → Chain × MemStorage → Prop
  | insert {chain : Chain} {s : MemStorage} {e : Envelope} (content : e.toSignedPortion ∈ contents) :
    Step contents (chain, s) (chain.insert e s).2
  | insertBatch {chain : Chain} {s : MemStorage} {es : List Envelope}
    (content : ∀ e ∈ es, e.toSignedPortion ∈ contents) : Step contents (chain, s) (chain.insertBatch es s).2
  | compact {chain : Chain} {s : MemStorage} (cut : EnvelopeDigest) : Step contents (chain, s) (chain.compact cut s).2
  | tick {chain : Chain} {s : MemStorage} (clock : StoredAt) : Step contents (chain, s) (chain, { s with clock })

/-- The states of a chain over `n` operations. -/
structure Run (contents : Set SignedPortion) (n : Nat) (run : Nat → Chain × MemStorage) : Prop where
  start : Reachable contents (run 0).1 (run 0).2
  step : ∀ i < n, Step contents (run i) (run (i + 1))

end Runs

/-- An envelope of the log that `contains` finds on the canonical path. -/
def OnPath (state : Chain × MemStorage) (d : EnvelopeDigest) : Prop :=
  state.2.Stored d ∧ state.1.contains state.2 d = .ok true

theorem onPath_iff {chain : Chain} {s : MemStorage} {d : EnvelopeDigest} (hac : Acyclic s.parent) :
    OnPath (chain, s) d ↔ s.Stored d ∧ Desc s.parent d chain.head := by
  obtain ⟨b, hb, hiff⟩ := Chain.descends_eq_ok hac chain.head d
  show _ ∧ descends s chain.head d = .ok true ↔ _
  rw [hb]
  refine and_congr_right fun _ => ⟨fun h => hiff.1 (Except.ok.inj h), fun h => ?_⟩
  rw [hiff.2 h]

/-- The movements of a run folded into one. -/
def merged (moves : Nat → Movement) (n : Nat) : Movement :=
  ((List.range n).map moves).foldl Movement.merge Movement.empty

theorem orphaned_merged {moves : Nat → Movement} {d : EnvelopeDigest} :
    ∀ n, d ∈ (merged moves n).orphaned ↔ ∃ i < n, d ∈ (moves i).orphaned
  | 0 => by simp [merged, Movement.empty]
  | n + 1 => by
    have hsucc : merged moves (n + 1) = (merged moves n).merge (moves n) := by
      simp [merged, List.range_succ]
    rw [hsucc, Movement.mem_orphaned_merge, orphaned_merged n]
    constructor
    · rintro (⟨i, hi, h⟩ | h)
      · exact ⟨i, by omega, h⟩
      · exact ⟨n, by omega, h⟩
    · rintro ⟨i, hi, h⟩
      by_cases hin : i = n
      · subst hin; exact .inr h
      · exact .inl ⟨i, by omega, h⟩

variable [Externals]

/-! ## The invariant -/

/-- A chain over a log that starts at `base`, with a version everywhere on the way to its head. The
root is the base, or what the base's `prev` names. -/
structure Live (W : World) (base : EnvelopeDigest) (chain : Chain) (s : MemStorage) : Prop where
  coherent : Coherent W base s
  head : s.Stored chain.head
  path : ∀ y, Desc s.parent base y → Desc s.parent y chain.head → s.Held y
  heldFrom : s.HeldFrom base
  root : chain.root = base ∨ s.parent base = some chain.root

theorem Reachable.live {contents : Set SignedPortion} (laws : DigestLaws contents) {chain : Chain} {s : MemStorage}
    (h : Reachable contents chain s) : ∃ W : World, W.contents = contents ∧ Live W chain.root chain s := by
  obtain ⟨W, rfl, hg⟩ := h.good laws
  exact ⟨W, rfl, hg.coherent, hg.head_stored, fun y hy hyh => hg.pathHeld y (hg.canonical_iff.2 ⟨hy, hyh⟩),
    h.heldFrom laws, .inl rfl⟩

/-- Between the base and an envelope of the log, the log holds everything the contents name. -/
theorem Coherent.stored_of_between {W : World} {base d x : EnvelopeDigest} {s : MemStorage} (h : Coherent W base s)
    (hx : s.Stored x) (hd : Desc W.prev base d) (hdx : Desc W.prev d x) : s.Stored d := by
  induction hdx with
  | refl => exact hx
  | @tail p x hdp hp ih =>
    have hps : s.parent x = some p := by rw [h.parent_eq hx]; exact hp
    by_cases hne : x = base
    · subst hne
      exact absurd (hd.trans hdp) (World.acyclic.not_desc_parent hp)
    · exact ih (h.parent_stored hps hne)

/-! ## What an operation does -/

/-- The log grew from its base and the head stayed or went to the tip, or the log was cut above the
head and the head stayed. -/
inductive Moved (W : World) (base : EnvelopeDigest) (chain : Chain) (s : MemStorage) (chain' : Chain) (s' : MemStorage) :
    EnvelopeDigest → Prop
  | grew (log : s.LogGrows s') (head : chain'.head = chain.head ∨ Tip s'.parent s'.rank base chain'.head) :
    Moved W base chain s chain' s' base
  | cut {base' : EnvelopeDigest} (log : Chain.CompactedTo s base' chain.head s') (head : chain'.head = chain.head)
    (stored : s.Stored base') (above : Desc s.parent base' chain.head) : Moved W base chain s chain' s' base'

section Stepping

variable {W : World} {base : EnvelopeDigest} {chain chain' : Chain} {s s' : MemStorage}

/-- Envelopes stored, and the walk after them where there is one. -/
theorem Live.insertBatch {es : List Envelope} (h : Live W base chain s) (content : ∀ e ∈ es, e.toSignedPortion ∈ W.contents) :
    Live W base (chain.insertBatch es s).2.1 (chain.insertBatch es s).2.2 ∧
      Moved W base chain s (chain.insertBatch es s).2.1 (chain.insertBatch es s).2.2 base := by
  obtain ⟨t, hw, hfrom, hres⟩ := Chain.storeBatch_cases h.coherent Chain.footed_start content
  have hco := hw.coherent h.coherent
  have hlog := hw.logGrows
  obtain ⟨stored, hstored⟩ : ∃ stored, Action.attempt (Chain.storeBatch Chain.Batch.start es) s = (.ok stored, t) := by
    rcases hres with ⟨b, hb⟩ | ⟨err, hb⟩
    · exact ⟨_, Action.attempt_ok hb⟩
    · exact ⟨_, Action.attempt_error hb⟩
  unfold Chain.insertBatch
  rw [hstored]
  rcases h.root with hroot | hroot
  · rw [← hroot] at hco
    obtain ⟨head, u, hcanon, hcou, hwalk⟩ := Chain.canonicalize_coherent hco
    simp only [hcanon]
    rw [hroot] at hcou hwalk
    have htip : Tip u.parent u.rank base head := by
      rw [hwalk.sameLog.parent, hwalk.sameLog.rank]; exact hwalk.tip
    have hheld : ∀ y, Canonical u.parent u.rank base y → u.Held y := fun y hy => hwalk.held y (by
      rw [← hwalk.sameLog.parent, ← hwalk.sameLog.rank]; exact hy)
    refine ⟨⟨hcou, u.stored_of_desc hcou.base_stored htip.canonical.desc, fun y hy hyh => hheld y ?_, fun d p hd hne hp => ?_,
      .inl hroot⟩, .grew (fun d e he => ?_) (.inr htip)⟩
    · exact (htip.canonical_iff u.rank_injective hcou.acyclic).2 ⟨hy, hyh⟩
    · rcases hwalk.fresh d hd with hd | hd
      · rw [hwalk.sameLog.parent] at hp
        exact hwalk.grows.held (hfrom h.heldFrom d p hd hne hp)
      · -- a version the walk made stands on the path, and so does its parent
        rw [← hwalk.sameLog.parent, ← hwalk.sameLog.rank] at hd
        rcases Relation.ReflTransGen.cases_tail hd with rfl | ⟨q, hq, hw⟩
        · exact absurd rfl hne
        · obtain rfl : q = p := Option.some.inj (hw.child.symm.trans hp)
          exact hheld q hq
    · rw [hwalk.sameLog.envelope]; exact hlog d e he
  · -- the root is not in the log, so the walk cannot start and the cursor stays
    have hroot' := hlog.extends _ _ hroot
    have hheld : ¬ t.Held chain.root := by
      rintro ⟨v, hv⟩
      exact hco.not_desc_base (hco.versions _ v hv).1 hroot'
    have hcanon : chain.canonicalize t = (.error (.error (.unknownHead chain.root)), t) := by
      unfold Chain.canonicalize
      refine Action.bind_error ?_ _
      simp only [Action.read, Ledger.open, t.not_held_iff.2 hheld]; rfl
    simp only [hcanon]
    refine ⟨⟨hco, hlog.stored h.head, fun y hy hyh => ?_, hfrom h.heldFrom, .inr hroot'⟩, .grew hlog (.inl rfl)⟩
    have hys : s.Stored y := h.coherent.stored_of_between h.head (hy.mono hco.extends) (hyh.mono hco.extends)
    exact (hw.grows h.coherent).held (h.path y (h.coherent.desc hys)
      (h.coherent.desc_of_prev hys h.head (hyh.mono hco.extends)))

/-- A cut at what the base's `prev` names leaves the log alone and drops the versions off the path. -/
theorem Chain.CompactedTo.envelope_eq {cut head : EnvelopeDigest} (h : Chain.CompactedTo s cut head s')
    (hco : Coherent W base s) (hcut : s.parent base = some cut) : s'.envelope = s.envelope := by
  funext d
  by_cases hd : s.Stored d
  · exact h.keeps.envelope_kept ((Desc.of_child hcut).trans (hco.desc hd))
  · have hd' : ¬ s'.Stored d := fun hd' => hd (h.keeps.stored hd')
    rw [MemStorage.Stored, ← Option.isSome_iff_exists, Option.not_isSome_iff_eq_none] at hd hd'
    rw [hd, hd']

theorem Chain.CompactedTo.coherent_above {cut head : EnvelopeDigest} (h : Chain.CompactedTo s cut head s')
    (hco : Coherent W base s) (hcut : s.parent base = some cut) (hhead : Desc s.parent base head) :
    Coherent W base s' := by
  have henv := h.envelope_eq hco hcut
  have hstored : ∀ d, s'.Stored d ↔ s.Stored d := fun d => by simp only [MemStorage.Stored, henv]
  refine ⟨h.indexed, fun d e he => hco.content d e (henv ▸ he), fun d e he hne => ?_, (hstored base).2 hco.base_stored, ?_,
    fun d v hv => ?_⟩
  · obtain ⟨p, v, v', hp, hrest⟩ := hco.accepted d e (henv ▸ he) hne
    exact ⟨p, v, v', (hstored p).2 hp, hrest⟩
  · obtain ⟨v, hv⟩ := hco.base_held
    exact ⟨v, by rw [h.versions_kept base (Desc.of_child hcut) hhead]; exact hv⟩
  · obtain ⟨hds, hstate⟩ := hco.versions d v (h.versions_of hv).1
    exact ⟨(hstored d).2 hds, hstate⟩

/-- A digest the head descends from is in the log, or is what the base's `prev` names. -/
theorem Live.stored_or_named (h : Live W base chain s) {cut : EnvelopeDigest} (hcut : Desc s.parent cut chain.head) :
    s.Stored cut ∨ s.parent base = some cut := by
  rcases hcut.total (h.coherent.desc h.head) with hd | hd
  · by_cases hne : base = cut
    · exact .inl (hne ▸ h.coherent.base_stored)
    · obtain ⟨p, hp, hcp⟩ := hd.exists_parent hne
      by_cases hpc : p = cut
      · subst hpc; exact .inr hp
      · obtain ⟨q, hq, -⟩ := hcp.exists_parent hpc
        exact absurd hp (h.coherent.not_desc_base (s.stored_of_parent hq))
  · exact .inl (s.stored_of_desc h.coherent.base_stored hd)

/-- `compact` at any digest is refused, or cuts there. -/
theorem Live.compact_cases (h : Live W base chain s) (cut : EnvelopeDigest) :
    (¬ Desc s.parent cut chain.head ∧ chain.compact cut s = (.error (.error (.diverged chain.head cut)), chain, s)) ∨
    (Desc s.parent cut chain.head ∧ ∃ n t, Chain.CompactedTo s cut chain.head t ∧ t.digests.card + n = s.digests.card ∧
      chain.compact cut s = (.ok n, { chain with root := cut }, t)) := by
  refine Chain.compact_cases h.coherent.indexed h.coherent.acyclic fun hcut => ?_
  rcases h.stored_or_named hcut with hst | hq
  · exact ⟨base, h.coherent.desc hst, fun _ hd => h.coherent.desc hd⟩
  · exact ⟨cut, Desc.refl, fun _ hd => (Desc.of_child hq).trans (h.coherent.desc hd)⟩

/-- Wherever it cuts, the chain lives on. -/
theorem Live.compact (h : Live W base chain s) (cut : EnvelopeDigest) :
    ∃ base', Live W base' (chain.compact cut s).2.1 (chain.compact cut s).2.2 ∧
      Moved W base chain s (chain.compact cut s).2.1 (chain.compact cut s).2.2 base' := by
  have hhead := h.coherent.desc h.head
  rcases h.compact_cases cut with ⟨-, hrun⟩ | ⟨hcut, n, t, hct, -, hrun⟩
  · rw [hrun]
    exact ⟨base, h, .grew (fun _ _ he => he) (.inl rfl)⟩
  · rw [hrun]
    have hpath : ∀ y, Desc s.parent base y → Desc s.parent cut y → Desc s.parent y chain.head → t.Held y := by
      intro y hy hcy hyh
      obtain ⟨v, hv⟩ := h.path y hy hyh
      exact ⟨v, by rw [hct.versions_kept y hcy hyh]; exact hv⟩
    rcases h.stored_or_named hcut with hst | hq
    · have hheld := h.path cut (h.coherent.desc hst) hcut
      refine ⟨cut, ⟨hct.coherent h.coherent hheld hcut, hct.stored_iff.2 ⟨h.head, hcut⟩, fun y hy hyh => ?_,
        hct.heldFrom h.heldFrom (h.coherent.desc hst) h.coherent.acyclic, .inl rfl⟩, .cut hct rfl hst hcut⟩
      have hcy := hy.mono hct.keeps.extends
      exact hpath y ((h.coherent.desc hst).trans hcy) hcy (hyh.mono hct.keeps.extends)
    · have henv := hct.envelope_eq h.coherent hq
      have hparent : t.parent = s.parent := by funext d; simp only [MemStorage.parent, henv]
      refine ⟨base, ⟨hct.coherent_above h.coherent hq hhead, ?_, fun y hy hyh => ?_, fun d p hd hne hp => ?_, .inr ?_⟩,
        .grew (fun d e he => by rw [henv]; exact he) (.inl rfl)⟩
      · obtain ⟨e, he⟩ := h.head
        exact ⟨e, by rw [henv]; exact he⟩
      · rw [hparent] at hy hyh
        exact hpath y hy ((Desc.of_child hq).trans hy) hyh
      · rw [hparent] at hp
        obtain ⟨v, hv⟩ := hd
        obtain ⟨hv, -, hdh⟩ := hct.versions_of hv
        obtain ⟨hds, -⟩ := h.coherent.versions d v hv
        have hbp := (h.coherent.desc hds).of_parent hne hp
        exact hpath p hbp ((Desc.of_child hq).trans hbp) ((Desc.of_child hp).trans hdh)
      · rw [hparent]; exact hq

theorem Live.step (h : Live W base chain s) (hstep : Step W.contents (chain, s) (chain', s')) :
    ∃ base', Live W base' chain' s' ∧ Moved W base chain s chain' s' base' := by
  generalize hp : (chain, s) = p, hp' : (chain', s') = p' at hstep
  cases hstep with
  | insert content =>
    cases hp
    rw [Prod.ext_iff] at hp'
    obtain ⟨rfl, rfl⟩ := hp'
    refine ⟨base, h.insertBatch fun e' he' => ?_⟩
    rw [List.mem_singleton.1 he']; exact content
  | insertBatch content =>
    cases hp
    rw [Prod.ext_iff] at hp'
    obtain ⟨rfl, rfl⟩ := hp'
    exact ⟨base, h.insertBatch content⟩
  | compact cut =>
    cases hp
    rw [Prod.ext_iff] at hp'
    obtain ⟨rfl, rfl⟩ := hp'
    exact h.compact cut
  | tick clock =>
    cases hp; cases hp'
    exact ⟨base, ⟨⟨h.coherent.indexed, h.coherent.content, h.coherent.accepted, h.coherent.base_stored,
      h.coherent.base_held, h.coherent.versions⟩, h.head, h.path, h.heldFrom, h.root⟩, .grew (fun _ _ he => he) (.inl rfl)⟩

end Stepping

/-! ## What is off the path for good -/

/-- No walk comes by `d` again: the base is past it, or it hangs off a fork that was lost. -/
def Dead (W : World) (base head : EnvelopeDigest) (s : MemStorage) (d : EnvelopeDigest) : Prop :=
  ¬ Desc W.prev base d ∨ ∃ f x y, s.parent x = some f ∧ s.parent y = some f ∧ s.rank x < s.rank y ∧
    Desc s.parent base f ∧ Desc W.prev x d ∧ ¬ Desc s.parent x head

section Dead

variable {W : World} {base base' d : EnvelopeDigest} {chain chain' : Chain} {s s' : MemStorage}

theorem Dead.not_onPath (h : Dead W base chain.head s d) (hl : Live W base chain s) : ¬ OnPath (chain, s) d := by
  rw [onPath_iff hl.coherent.acyclic]
  rintro ⟨hd, hdh⟩
  rcases h with h | ⟨f, x, y, hx, -, -, -, hxd, hxh⟩
  · exact h ((hl.coherent.desc hd).mono hl.coherent.extends)
  · exact hxh ((hl.coherent.desc_of_prev (s.stored_of_parent hx) hd hxd).trans hdh)

/-- A fork that was lost stays lost: its winner goes from the log only together with the loser. -/
theorem Dead.step (h : Dead W base chain.head s d) (hl : Live W base chain s) (hl' : Live W base' chain' s')
    (hm : Moved W base chain s chain' s' base') : Dead W base' chain'.head s' d := by
  have hext := hl.coherent.extends
  rcases h with h | ⟨f, x, y, hx, hy, hlt, hf, hxd, hxh⟩
  · refine .inl fun hd => h ?_
    cases hm with
    | grew => exact hd
    | cut _ _ stored _ => exact ((hl.coherent.desc stored).mono hext).trans hd
  · cases hm with
    | grew log head =>
      have hx' := log.extends x f hx
      have hy' := log.extends y f hy
      have hlt' : s'.rank x < s'.rank y := by
        rw [log.rank (s.stored_of_parent hx), log.rank (s.stored_of_parent hy)]; exact hlt
      have hf' := hf.mono log.extends
      refine .inr ⟨f, x, y, hx', hy', hlt', hf', hxd, ?_⟩
      rcases head with head | htip
      · rw [head]
        intro hxh'
        exact hxh (hl.coherent.desc_of_prev (s.stored_of_parent hx) hl.head (hxh'.mono hl'.coherent.extends))
      · exact htip.canonical.not_outranked hl'.coherent.acyclic hf' hx' hy' hlt'
    | cut log head stored above =>
      by_cases hbf : Desc s.parent base' f
      · have hkept : ∀ {c}, s.parent c = some f → s'.parent c = some f ∧ s'.rank c = s.rank c := by
          intro c hc
          have hbc := hbf.child hc
          exact ⟨by rw [log.keeps.parent_kept hbc]; exact hc,
            log.keeps.rank_eq (log.stored_iff.2 ⟨s.stored_of_parent hc, hbc⟩)⟩
        refine .inr ⟨f, x, y, (hkept hx).1, (hkept hy).1, ?_, (log.keeps.desc_iff Desc.refl).2 hbf, hxd, ?_⟩
        · rw [(hkept hx).2, (hkept hy).2]; exact hlt
        · rw [head]
          intro hxh'
          exact hxh (hxh'.mono log.keeps.extends)
      · -- the cut is past the fork, and on the branch of the head
        refine .inl fun hbd => ?_
        rcases hbd.total hxd with hbx | hxb
        · have hbx := hl.coherent.desc_of_prev stored (s.stored_of_parent hx) hbx
          by_cases hxe : x = base'
          · subst hxe; exact hxh above
          · exact hbf (hbx.of_parent hxe hx)
        · exact hxh ((hl.coherent.desc_of_prev (s.stored_of_parent hx) stored hxb).trans above)

/-- What an operation takes off the path is off it for good. -/
theorem OnPath.step (h : OnPath (chain, s) d) (hl : Live W base chain s) (hl' : Live W base' chain' s')
    (hm : Moved W base chain s chain' s' base') : OnPath (chain', s') d ∨ Dead W base' chain'.head s' d := by
  obtain ⟨hd, hdh⟩ := (onPath_iff hl.coherent.acyclic).1 h
  rw [onPath_iff hl'.coherent.acyclic]
  cases hm with
  | grew log head =>
    have hd' := log.stored hd
    rcases head with head | htip
    · rw [head]; exact .inl ⟨hd', hdh.mono log.extends⟩
    · rcases htip.fork s'.rank_injective hl'.coherent.acyclic (hl'.coherent.desc hd') with
        hon | ⟨f, x, y, hx, hy, hlt, hf, hxd, -⟩
      · exact .inl ⟨hd', hon⟩
      · exact .inr (.inr ⟨f, x, y, hx, hy, hlt, hf, hxd.mono hl'.coherent.extends,
          htip.canonical.not_outranked hl'.coherent.acyclic hf hx hy hlt⟩)
  | cut log head stored above =>
    by_cases hbd : Desc s.parent base' d
    · rw [head]
      exact .inl ⟨log.stored_iff.2 ⟨hd, hbd⟩, (log.keeps.desc_iff hbd).2 hdh⟩
    · exact .inr (.inl fun hbd' => hbd (hl.coherent.desc_of_prev stored hd hbd'))

/-- The movement the differ reports for an operation: what it took off the path and left in the log. -/
theorem Live.diff (hl : Live W base chain s) (hl' : Live W base' chain' s') (hm : Moved W base chain s chain' s' base') :
    ∃ move, (ChangeDiffer.openedAt chain.head).diff s' chain'.head = .ok move ∧ ∀ d, d ∈ move.orphaned ↔
      OnPath (chain, s) d ∧ s'.Stored d ∧ ¬ OnPath (chain', s') d := by
  have hco := hl.coherent
  have hco' := hl'.coherent
  obtain ⟨hbase, hhead⟩ : Desc W.prev base base' ∧ s'.Stored chain.head := by
    cases hm with
    | grew log _ => exact ⟨Desc.refl, log.stored hl.head⟩
    | cut log _ stored above => exact ⟨(hco.desc stored).mono hco.extends, log.stored_iff.2 ⟨hl.head, above⟩⟩
  have hdesc' := hco'.desc hl'.head
  obtain ⟨m, undone, made, hdiff, -, -, -, hundone, -⟩ :=
    ChangeDiffer.diff_eq_ok hco'.acyclic (hco'.desc hhead) hdesc'
  refine ⟨_, hdiff, fun d => ?_⟩
  rw [ChangeDiffer.orphaned_movement, hundone, onPath_iff hco.acyclic, onPath_iff hco'.acyclic]
  constructor
  · rintro ⟨hdh, hnd⟩
    -- what is not below the base is above both heads
    have hbd : Desc s'.parent base' d := by
      rcases hdh.total (hco'.desc hhead) with h | h
      · exact absurd (h.trans hdesc') hnd
      · exact h
    have hprev := hdh.mono hco'.extends
    have hd : s.Stored d := hco.stored_of_between hl.head (hbase.trans (hbd.mono hco'.extends)) hprev
    exact ⟨⟨hd, hco.desc_of_prev hd hl.head hprev⟩, s'.stored_of_desc hco'.base_stored hbd, fun h => hnd h.2⟩
  · rintro ⟨⟨-, hdh⟩, hd', hnd⟩
    exact ⟨hco'.desc_of_prev hd' hhead (hdh.mono hco.extends), fun h => hnd ⟨hd', h⟩⟩

end Dead

/-! ## Whole runs -/

namespace Run

variable {W : World} {n : Nat} {run : Nat → Chain × MemStorage} {d : EnvelopeDigest}

theorem live {base : EnvelopeDigest} (h : Run W.contents n run) (h0 : Live W base (run 0).1 (run 0).2) :
    ∀ i ≤ n, ∃ base, Live W base (run i).1 (run i).2
  | 0, _ => ⟨base, h0⟩
  | i + 1, hi => by
    obtain ⟨base, hl⟩ := live h h0 i (by omega)
    obtain ⟨base', hl', -⟩ := hl.step (h.step i (by omega))
    exact ⟨base', hl'⟩

/-- What holds on the path or off it for good, at one state of a run, does so at all later ones. -/
theorem onPath_or_dead {base : EnvelopeDigest} (h : Run W.contents n run) {i : Nat} (hl : Live W base (run i).1 (run i).2)
    (hd : OnPath (run i) d ∨ Dead W base (run i).1.head (run i).2 d) : ∀ k, i + k ≤ n →
      ∃ base', Live W base' (run (i + k)).1 (run (i + k)).2 ∧
        (OnPath (run (i + k)) d ∨ Dead W base' (run (i + k)).1.head (run (i + k)).2 d) ∧
        (Dead W base (run i).1.head (run i).2 d → Dead W base' (run (i + k)).1.head (run (i + k)).2 d)
  | 0, _ => ⟨base, hl, hd, id⟩
  | k + 1, hk => by
    obtain ⟨base₁, hl₁, hd₁, hdead₁⟩ := onPath_or_dead h hl hd k (by omega)
    obtain ⟨base₂, hl₂, hm⟩ := hl₁.step (h.step (i + k) (by omega))
    refine ⟨base₂, hl₂, ?_, fun hdead => (hdead₁ hdead).step hl₁ hl₂ hm⟩
    rcases hd₁ with hon | hdead
    · exact hon.step hl₁ hl₂ hm
    · exact .inr (hdead.step hl₁ hl₂ hm)

/-- Off the path after having been on it, off it ever after. -/
theorem stays_off {base : EnvelopeDigest} (h : Run W.contents n run) (h0 : Live W base (run 0).1 (run 0).2) {i j k : Nat}
    (hij : i ≤ j) (hjk : j ≤ k) (hk : k ≤ n) (hon : OnPath (run i) d) (hoff : ¬ OnPath (run j) d) :
    ¬ OnPath (run k) d := by
  obtain ⟨base, hl⟩ := h.live h0 i (by omega)
  obtain ⟨j', rfl⟩ := Nat.exists_eq_add_of_le hij
  obtain ⟨k', rfl⟩ := Nat.exists_eq_add_of_le hjk
  obtain ⟨base₁, hl₁, hd₁, -⟩ := h.onPath_or_dead hl (.inl hon) j' (by omega)
  have hdead := hd₁.resolve_left hoff
  obtain ⟨base₂, hl₂, -, hdead₂⟩ := h.onPath_or_dead hl₁ (.inr hdead) k' hk
  exact (hdead₂ hdead).not_onPath hl₂

/-- Orphaned for good: what was on the canonical path and is off it later never comes back. The
differ reports a movement for every operation, and merged they orphan exactly what some operation
took off the path while the log kept it, none of which is on the path at the end. -/
theorem orphaned_for_good {contents : Set SignedPortion} (laws : DigestLaws contents) {n : Nat}
    {run : Nat → Chain × MemStorage} (h : Run contents n run) :
    (∀ i j k d, i ≤ j → j ≤ k → k ≤ n → OnPath (run i) d → ¬ OnPath (run j) d → ¬ OnPath (run k) d) ∧
    ∃ moves : Nat → Movement,
      (∀ i < n, (ChangeDiffer.openedAt (run i).1.head).diff (run (i + 1)).2 (run (i + 1)).1.head = .ok (moves i)) ∧
      (∀ d, d ∈ (merged moves n).orphaned ↔
        ∃ i < n, OnPath (run i) d ∧ (run (i + 1)).2.Stored d ∧ ¬ OnPath (run (i + 1)) d) ∧
      ∀ d ∈ (merged moves n).orphaned, ¬ OnPath (run n) d := by
  obtain ⟨W, rfl, hl⟩ := h.start.live laws
  have hoff : ∀ i j k d, i ≤ j → j ≤ k → k ≤ n → OnPath (run i) d → ¬ OnPath (run j) d → ¬ OnPath (run k) d :=
    fun i j k d => h.stays_off hl
  have hmove : ∀ i, ∃ move, i < n →
      (ChangeDiffer.openedAt (run i).1.head).diff (run (i + 1)).2 (run (i + 1)).1.head = .ok move ∧
        ∀ d, d ∈ move.orphaned ↔ OnPath (run i) d ∧ (run (i + 1)).2.Stored d ∧ ¬ OnPath (run (i + 1)) d := by
    intro i
    by_cases hi : i < n
    · obtain ⟨base, hi'⟩ := h.live hl i (by omega)
      obtain ⟨base', hl', hm⟩ := hi'.step (h.step i hi)
      obtain ⟨move, hmove⟩ := hi'.diff hl' hm
      exact ⟨move, fun _ => hmove⟩
    · exact ⟨Movement.empty, fun hi' => absurd hi' hi⟩
  choose moves hmoves using hmove
  have hiff : ∀ d, d ∈ (merged moves n).orphaned ↔
      ∃ i < n, OnPath (run i) d ∧ (run (i + 1)).2.Stored d ∧ ¬ OnPath (run (i + 1)) d := by
    intro d
    rw [orphaned_merged]
    exact exists_congr fun i => and_congr_right fun hi => (hmoves i hi).2 d
  refine ⟨hoff, moves, fun i hi => (hmoves i hi).1, hiff, fun d hd => ?_⟩
  obtain ⟨i, hi, hon, -, hnot⟩ := (hiff d).1 hd
  exact hoff i (i + 1) n d (by omega) (by omega) le_rfl hon hnot

end Run

end IrohLotus.State

/-! ## A run of the samples -/

namespace IrohLotus.State

open Std Outcome Forest IrohLotus.Wire IrohLotus.Wire.Sample IrohLotus.Storage

/-- A chain of `genesis` and a fork that `first` outranks. -/
def outranked : Chain × MemStorage := ((Chain.mk genesisDigest ⟨genesisDigest⟩).insert other genesisStore).2

/-- The chain after `first`. -/
def reorged : Chain × MemStorage := (outranked.1.insert first outranked.2).2

/-- The run through both, with a compaction at `first` after it. -/
def reorgRun : Nat → Chain × MemStorage
  | 0 => (⟨genesisDigest, ⟨genesisDigest⟩⟩, genesisStore)
  | 1 => outranked
  | 2 => reorged
  | _ => (reorged.1.compact firstDigest reorged.2).2

theorem orphaned_for_good_reorgRun :
    Run Sample.contents 3 reorgRun ∧ ¬ OnPath (reorgRun 3) otherDigest ∧
      ∃ moves, otherDigest ∈ (merged moves 3).orphaned ∧ ∀ i < 3,
        (ChangeDiffer.openedAt (reorgRun i).1.head).diff (reorgRun (i + 1)).2 (reorgRun (i + 1)).1.head =
          .ok (moves i) := by
  have hmem : other.toSignedPortion ∈ table.map Prod.fst ∧ first.toSignedPortion ∈ table.map Prod.fst := by
    decide +kernel
  have hrun : Run Sample.contents 3 reorgRun := by
    refine ⟨reachable_genesisStore, fun i hi => ?_⟩
    match i with
    | 0 => exact Step.insert (e := other) hmem.1
    | 1 => exact Step.insert (e := first) hmem.2
    | 2 => exact Step.compact firstDigest
  obtain ⟨hoff, moves, hmoves, hiff, -⟩ := hrun.orphaned_for_good sample_laws
  have hon : OnPath (reorgRun 1) otherDigest :=
    ⟨⟨other.setVerificationStatus (.allMatched 0), by decide +kernel⟩, by decide +kernel⟩
  have hleft : ¬ OnPath (reorgRun 2) otherDigest := by
    rintro ⟨-, h⟩
    exact absurd h (by decide +kernel)
  have hkept : (reorgRun 2).2.Stored otherDigest := ⟨other.setVerificationStatus (.allMatched 0), by decide +kernel⟩
  exact ⟨hrun, hoff 1 2 3 _ (by decide) (by decide) le_rfl hon hleft, moves,
    (hiff _).2 ⟨1, by decide, hon, hkept, hleft⟩, hmoves⟩

end IrohLotus.State
