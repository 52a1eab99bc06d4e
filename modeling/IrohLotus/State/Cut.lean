/-
What `compact` accepts and what it leaves, on every chain its operations lead to, those it was called
on at any digest included. It compares the digest a parent hop names before it asks whether the log
holds it, so it also accepts the one digest below the log that an envelope of the log names.
-/
import IrohLotus.State.Orphan
import IrohLotus.State.Replay

namespace IrohLotus.State

open Std Outcome Forest IrohLotus.Wire IrohLotus.Storage

/-- An envelope of the log on the path from the head to the root. -/
structure Between (chain : Chain) (s : MemStorage) (d : EnvelopeDigest) : Prop where
  stored : s.Stored d
  root : Desc s.parent chain.root d
  head : Desc s.parent d chain.head

/-- `compact` at the cut succeeds just when the cut is an envelope of the path, and is refused as
diverged otherwise, with nothing changed. -/
structure CompactExact (chain : Chain) (s : MemStorage) (cut : EnvelopeDigest) : Prop where
  accepts : (∃ pruned, (chain.compact cut s).1 = .ok pruned) ↔ Between chain s cut
  refuses : ¬ Between chain s cut → chain.compact cut s = (.error (.error (.diverged chain.head cut)), chain, s)

/-- What `compact` at the cut leaves: the cut and its stored descendants, the versions on the path from
the head down to it, and the cursor with its root there and its head where it was. -/
structure CompactPost (chain : Chain) (s : MemStorage) (cut : EnvelopeDigest) (pruned : Nat) (chain' : Chain)
    (s' : MemStorage) : Prop where
  kept : ∀ d, Desc s.parent cut d → s'.loggedEnvelope d = s.loggedEnvelope d
  gone : ∀ d, ¬ Desc s.parent cut d → s'.loggedEnvelope d = none
  held : ∀ d, s'.Held d ↔ Desc s.parent cut d ∧ Desc s.parent d chain.head
  versions : ∀ d : EnvelopeDigest, s'.Held d → s'.versions[d]? = s.versions[d]?
  root : chain'.root = cut
  head : chain'.head = chain.head
  checkpoint : chain'.checkpoint s' = chain.checkpoint s
  pruned : pruned = (s.digests \ s'.digests).card

section Removal

variable {s t : MemStorage} {c : EnvelopeDigest}

/-- The records of a log that has lost `n` of them. -/
theorem card_digests_sdiff {n : Nat} (hsub : t.digests ⊆ s.digests) (hn : t.digests.card + n = s.digests.card) :
    n = (s.digests \ t.digests).card := by
  have := Finset.card_sdiff_add_card_eq_card hsub
  omega

/-- `remove_subtree` comes to its end, and calls `remove_envelope` as often as the branch has envelopes;
they are gone after it, so each was removed once. -/
theorem removeSubtree_once (hi : s.Indexed) (hac : Acyclic s.parent) (hc : s.Stored c) {fuel : Nat}
    (hfuel : 2 * s.digests.card + 1 ≤ fuel) :
    ∃ u, (removeSubtree fuel c).run s = (.ok (below s.parent s.digests c).card, u) ∧
      s.Without {x | Desc s.parent c x} u := by
  obtain ⟨u, m, hw, hm, hlead⟩ := Chain.removeSubtree_leads hi hac hc hfuel
  have hsub : u.digests ⊆ s.digests := by
    intro d hd
    rw [MemStorage.mem_digests] at hd ⊢
    exact (hw.stored_iff.1 hd).1
  have hbelow : s.digests \ u.digests = below s.parent s.digests c := by
    ext d
    rw [Finset.mem_sdiff, mem_below, MemStorage.mem_digests, MemStorage.mem_digests, hw.stored_iff]
    constructor
    · rintro ⟨hd, hno⟩
      exact ⟨hd, by_contra fun hdesc => hno ⟨hd, hdesc⟩⟩
    · rintro ⟨hd, hdesc⟩
      exact ⟨hd, fun hu => hu.2 hdesc⟩
  refine ⟨u, ?_, hw⟩
  rw [hlead.done.1, card_digests_sdiff hsub hm, hbelow]

end Removal

variable [Externals] {W : World} {base cut : EnvelopeDigest} {chain : Chain} {s : MemStorage}

/-- On a live chain, what the log holds on the path of the head is between the head and the root. -/
theorem Live.between_iff (h : Live W base chain s) : Between chain s cut ↔ s.Stored cut ∧ Desc s.parent cut chain.head := by
  refine ⟨fun hb => ⟨hb.stored, hb.head⟩, fun ⟨hst, hd⟩ => ⟨hst, ?_, hd⟩⟩
  rcases h.root with hroot | hroot
  · rw [hroot]; exact h.coherent.desc hst
  · exact (Desc.of_child hroot).trans (h.coherent.desc hst)

theorem Live.compactExact_iff_held (h : Live W base chain s) (cut : EnvelopeDigest) :
    CompactExact chain s cut ↔ ∀ d, s.parent d = some cut → s.Stored cut := by
  constructor
  · intro hexact d hd
    by_contra hst
    -- only the base has a parent the log does not hold, and the head descends from it
    obtain rfl : d = base := by
      by_contra hne
      exact hst (h.coherent.parent_stored hd hne)
    have hcut : Desc s.parent cut chain.head := (Desc.of_child hd).trans (h.coherent.desc h.head)
    rcases h.compact_cases cut with ⟨hno, -⟩ | ⟨-, n, t, -, -, hrun⟩
    · exact hno hcut
    · exact hst (hexact.accepts.1 ⟨n, by rw [hrun]⟩).stored
  · intro hlog
    have hstored : Desc s.parent cut chain.head → s.Stored cut := fun hcut =>
      (h.stored_or_named hcut).elim id (hlog base)
    rcases h.compact_cases cut with ⟨hno, hrun⟩ | ⟨hcut, n, t, -, -, hrun⟩
    · refine ⟨⟨?_, fun hb => absurd hb.head hno⟩, fun _ => hrun⟩
      rintro ⟨n, hn⟩
      rw [hrun] at hn; cases hn
    · have hb := h.between_iff.2 ⟨hstored hcut, hcut⟩
      exact ⟨⟨fun _ => hb, fun _ => ⟨n, by rw [hrun]⟩⟩, fun hno => absurd hb hno⟩

theorem Live.compactPost (h : Live W base chain s) (hcut : Between chain s cut) :
    ∃ pruned chain' s', chain.compact cut s = (.ok pruned, chain', s') ∧ CompactPost chain s cut pruned chain' s' := by
  rcases h.compact_cases cut with ⟨hno, -⟩ | ⟨-, n, t, hct, hcard, hrun⟩
  · exact absurd hcut.head hno
  · have hheld : ∀ d, t.Held d ↔ Desc s.parent cut d ∧ Desc s.parent d chain.head := by
      intro d
      constructor
      · rintro ⟨v, hv⟩
        exact (hct.versions_of hv).2
      · rintro ⟨hd, hdh⟩
        obtain ⟨v, hv⟩ := h.path d ((h.coherent.desc hcut.stored).trans hd) hdh
        exact ⟨v, by rw [hct.versions_kept d hd hdh]; exact hv⟩
    have hversions : ∀ d : EnvelopeDigest, t.Held d → t.versions[d]? = s.versions[d]? := by
      intro d hd
      obtain ⟨hcd, hdh⟩ := (hheld d).1 hd
      exact hct.versions_kept d hcd hdh
    have hsub : t.digests ⊆ s.digests := by
      intro d hd
      rw [MemStorage.mem_digests] at hd ⊢
      exact (hct.stored_iff.1 hd).1
    have hcheckpoint : Chain.checkpoint { chain with root := cut } t = chain.checkpoint s := by
      have hhead := hversions chain.head ((hheld chain.head).2 ⟨hcut.head, Desc.refl⟩)
      show chain.ledger.checkpoint t = chain.ledger.checkpoint s
      unfold Ledger.checkpoint MemStorage.namespaces MemStorage.version
      rw [show t.versions[chain.ledger.head]? = s.versions[chain.ledger.head]? from hhead]
    exact ⟨n, _, t, hrun, hct.log_kept, hct.log_gone, hheld, hversions, rfl, rfl, hcheckpoint,
      card_digests_sdiff hsub hcard⟩

namespace Run

variable {contents : Set SignedPortion} (laws : DigestLaws contents) {n : Nat} {run : Nat → Chain × MemStorage}

include laws

/-- In any run, `compact` accepts exactly the envelopes of the path just when no envelope of the log
names the cut as its `prev` while the log does not hold the cut. -/
theorem compactExact_iff (h : Run contents n run) (cut : EnvelopeDigest) :
    CompactExact (run n).1 (run n).2 cut ↔ ∀ d, (run n).2.parent d = some cut → (run n).2.Stored cut := by
  obtain ⟨W, rfl, hl⟩ := h.start.live laws
  obtain ⟨base, hlive⟩ := h.live hl n le_rfl
  exact hlive.compactExact_iff_held cut

/-- In any run, `compact` at an envelope of the path leaves exactly what it should, and a dead branch
is removed envelope by envelope, each once. -/
theorem compact_post (h : Run contents n run) {cut : EnvelopeDigest} (hcut : Between (run n).1 (run n).2 cut) :
    (∃ pruned chain' s', (run n).1.compact cut (run n).2 = (.ok pruned, chain', s') ∧
      CompactPost (run n).1 (run n).2 cut pruned chain' s') ∧
    ∀ (t : MemStorage) (c : EnvelopeDigest) (fuel : Nat), t.Indexed → Acyclic t.parent → t.Stored c →
      2 * t.digests.card + 1 ≤ fuel → ∃ u, (removeSubtree fuel c).run t = (.ok (below t.parent t.digests c).card, u) ∧
        t.Without {x | Desc t.parent c x} u := by
  obtain ⟨W, rfl, hl⟩ := h.start.live laws
  obtain ⟨base, hlive⟩ := h.live hl n le_rfl
  exact ⟨hlive.compactPost hcut, fun t c fuel hi hac hc hfuel => removeSubtree_once hi hac hc hfuel⟩

end Run

end IrohLotus.State

/-! ## The samples -/

namespace IrohLotus.State

open Std Outcome Forest IrohLotus.Wire IrohLotus.Wire.Sample IrohLotus.Storage

theorem reachable_adoptedStore : Reachable Sample.contents ⟨firstDigest, ⟨firstDigest⟩⟩ adoptedStore := by
  have hmem : first.toSignedPortion ∈ table.map Prod.fst := by decide +kernel
  have hrun : Chain.adopt first ⟨∅⟩ (MemStorage.empty 0) = (.ok ⟨firstDigest, ⟨firstDigest⟩⟩, adoptedStore) := by
    decide +kernel
  exact .adopt hmem hrun

/-- A chain adopted at `first` accepts the digest of `genesis` as a cut, and no insert after it succeeds. -/
theorem not_compactExact_adoptedStore :
    Run Sample.contents 0 (fun _ => (⟨firstDigest, ⟨firstDigest⟩⟩, adoptedStore)) ∧
      ¬ CompactExact ⟨firstDigest, ⟨firstDigest⟩⟩ adoptedStore genesisDigest ∧
      ((Chain.mk firstDigest ⟨firstDigest⟩).insert second adoptedStore).1 = .ok .extended ∧
      ((((Chain.mk firstDigest ⟨firstDigest⟩).compact genesisDigest adoptedStore).2.1.insert second
        ((Chain.mk firstDigest ⟨firstDigest⟩).compact genesisDigest adoptedStore).2.2).1 =
          .error (.error (.unknownHead genesisDigest))) := by
  refine ⟨⟨reachable_adoptedStore, fun i hi => absurd hi (by omega)⟩, fun hexact => ?_, by decide +kernel, by decide +kernel⟩
  have hok : ((Chain.mk firstDigest ⟨firstDigest⟩).compact genesisDigest adoptedStore).1 = .ok 0 := by decide +kernel
  obtain ⟨e, he⟩ := (hexact.accepts.1 ⟨0, hok⟩).stored
  have hnone : adoptedStore.envelope genesisDigest = none := by decide +kernel
  rw [hnone] at he
  cases he

theorem run_forkedStore : Run Sample.contents 0 (fun _ => (⟨genesisDigest, ⟨secondDigest⟩⟩, forkedStore)) :=
  ⟨reachable_forkedStore, fun i hi => absurd hi (by omega)⟩

/-- A chain with a fork accepts an envelope on its path, and refuses one on the fork. -/
theorem compactExact_forkedStore :
    CompactExact ⟨genesisDigest, ⟨secondDigest⟩⟩ forkedStore firstDigest ∧
      ((Chain.mk genesisDigest ⟨secondDigest⟩).compact firstDigest forkedStore).1 = .ok 2 ∧
      CompactExact ⟨genesisDigest, ⟨secondDigest⟩⟩ forkedStore otherDigest ∧
      ((Chain.mk genesisDigest ⟨secondDigest⟩).compact otherDigest forkedStore).1 ≠ .ok 2 := by
  have hfirst : ∃ e, forkedStore.envelope firstDigest = some e := Option.isSome_iff_exists.1 (by decide +kernel)
  have hother : ∃ e, forkedStore.envelope otherDigest = some e := Option.isSome_iff_exists.1 (by decide +kernel)
  refine ⟨?_, by decide +kernel, ?_, by decide +kernel⟩
  · exact (run_forkedStore.compactExact_iff sample_laws firstDigest).2 fun _ _ => hfirst
  · exact (run_forkedStore.compactExact_iff sample_laws otherDigest).2 fun _ _ => hother

theorem compact_post_forkedStore : ∃ pruned chain' s',
    (Chain.mk genesisDigest ⟨secondDigest⟩).compact firstDigest forkedStore = (.ok pruned, chain', s') ∧
      CompactPost ⟨genesisDigest, ⟨secondDigest⟩⟩ forkedStore firstDigest pruned chain' s' := by
  have hparents : forkedStore.parent secondDigest = some firstDigest ∧ forkedStore.parent firstDigest = some genesisDigest := by
    decide +kernel
  have hcut : Between ⟨genesisDigest, ⟨secondDigest⟩⟩ forkedStore firstDigest :=
    ⟨forkedStore.stored_of_parent hparents.2, Desc.of_child hparents.2, Desc.of_child hparents.1⟩
  exact (run_forkedStore.compact_post sample_laws hcut).1

end IrohLotus.State
