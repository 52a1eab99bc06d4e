/-
A compaction stopped anywhere can be resumed: opening at the cut finds the head again, and
compacting at the cut once more comes to the store the uninterrupted run would have left.
-/
import IrohLotus.State.Reach

namespace IrohLotus.State

open Std Outcome Forest IrohLotus.Wire IrohLotus.Storage

/-! ## What a stopped store needs to be resumed on -/

/-- The store `u` has what a `compact` of `s` at `cut` is about: the log from the cut on, the versions
between there and the head, and a way from the cut to everything else in its log. -/
structure Resumable (s : MemStorage) (cut head : EnvelopeDigest) (u : MemStorage) : Prop extends Keeps s cut u where
  indexed : u.Indexed
  versions : ∀ d : EnvelopeDigest, Desc s.parent cut d → Desc s.parent d head → u.versions[d]? = s.versions[d]?
  recoverable : Chain.Recoverable u cut

section Resume

variable {s t t' u : MemStorage} {cut head : EnvelopeDigest}

theorem Halfway.resumable (h : Halfway s cut u) : Resumable s cut head u := by
  have hr := Chain.Recoverable.of_halfway h
  obtain ⟨a, h⟩ := h
  exact ⟨h.toKeeps, h.indexed, fun d _ _ => by rw [h.versions], hr⟩

theorem Chain.CompactedTo.resumable (h : Chain.CompactedTo s cut head t) : Resumable s cut head t := by
  refine ⟨h.keeps, h.indexed, h.versions_kept, cut, Desc.refl, fun d hd => ?_⟩
  exact (h.keeps.desc_iff Desc.refl).2 (h.stored_iff.1 hd).2

/-- Compacting the stopped store is compacting the store it came from. -/
theorem Resumable.compactedTo (h : Resumable s cut head u) (hc : Chain.CompactedTo u cut head t) :
    Chain.CompactedTo s cut head t where
  indexed := hc.indexed
  log_kept := fun d hd => (hc.log_kept d ((h.desc_iff Desc.refl).2 hd)).trans (h.kept d hd)
  log_gone := fun d hd => hc.log_gone d fun hd' => hd ((h.desc_iff Desc.refl).1 hd')
  versions_kept := fun d h1 h2 =>
    (hc.versions_kept d ((h.desc_iff Desc.refl).2 h1) ((h.desc_iff h1).2 h2)).trans (h.versions d h1 h2)
  versions_gone := fun d hd => hc.versions_gone d fun hd' => hd ⟨hd'.1.mono h.extends, hd'.2.mono h.extends⟩

/-- What `compact` leaves of the log and of the versions is one map each. -/
theorem Chain.CompactedTo.unique (h : Chain.CompactedTo s cut head t) (h' : Chain.CompactedTo s cut head t') :
    t.envelopes = t'.envelopes ∧ t.versions = t'.versions := by
  constructor
  · refine ExtTreeMap.ext_getElem? fun d => ?_
    show t.loggedEnvelope d = t'.loggedEnvelope d
    by_cases hd : Desc s.parent cut d
    · rw [h.log_kept d hd, h'.log_kept d hd]
    · rw [h.log_gone d hd, h'.log_gone d hd]
  · refine ExtTreeMap.ext_getElem? fun d => ?_
    by_cases hd : Desc s.parent cut d ∧ Desc s.parent d head
    · rw [h.versions_kept d hd.1 hd.2, h'.versions_kept d hd.1 hd.2]
    · rw [h.versions_gone d hd, h'.versions_gone d hd]

/-- Hops from the cut to a digest it names, then children lookups, reach everything in the log. -/
theorem Chain.Recoverable.reaches (h : Chain.Recoverable u cut) (hi : u.Indexed) {d : EnvelopeDigest} (hd : u.Stored d) :
    ∃ a, Relation.ReflTransGen (fun x y => u.parent x = some y) cut a ∧
      Relation.ReflTransGen (fun x y => y ∈ u.children x) a d := by
  obtain ⟨a, hcut, hall⟩ := h
  refine ⟨a, Relation.reflTransGen_swap.2 hcut, ?_⟩
  exact Relation.ReflTransGen.mono (fun _ _ hc => hi.mem_children.2 hc) _ _ (hall d hd)

end Resume

variable [Externals]

/-! ## Resuming -/

/-- A stopped store opens at the cut with the head where it was. -/
theorem Resumable.open {W : World} {chain : Chain} {s u : MemStorage} {cut : EnvelopeDigest} (h : Resumable s cut chain.head u)
    (hg : Good W chain s) (hcut : Canonical s.parent s.rank chain.root cut) :
    Chain.open cut u = (.ok { chain with root := cut }, u) := by
  have htip : Tip s.parent s.rank cut chain.head := hg.tip.of_canonical s.rank_injective hcut
  have hstored : u.Stored cut := by
    obtain ⟨e, he⟩ := s.stored_of_desc hg.coherent.base_stored hcut.desc
    exact ⟨e, by rw [h.envelope_kept Desc.refl]; exact he⟩
  have hpath : Chain.PathHeld cut u := by
    intro y hy
    have hys : Canonical s.parent s.rank cut y := h.agree.canonical.2 hy
    obtain ⟨v, hv⟩ := hg.pathHeld y (hcut.trans hys)
    exact ⟨v, by rw [h.versions y hys.desc (htip.of_canonical s.rank_injective hys).canonical.desc]; exact hv⟩
  obtain ⟨head, hrun, htip'⟩ := Chain.open_held h.indexed (hg.acyclic.mono h.extends) hstored hpath
  rw [hrun, Tip.unique u.rank_injective htip' (h.agree.tip.1 htip)]; rfl

/-- `compact` stopped after any number of its storage operations, then the chain opened at the cut
and compacted there again, leaves the log, the versions, the root and the head of the uninterrupted
run; and where it is stopped, everything still to be removed can be found again from the cut. -/
theorem Reachable.compact_resumes {contents : Set SignedPortion} (laws : DigestLaws contents) {chain : Chain}
    {s : MemStorage} (h : Reachable contents chain s) {cut : EnvelopeDigest} (stored : s.Stored cut)
    (onPath : Desc s.parent cut chain.head) (n : Nat) :
    ∃ k compacted t, chain.compact cut s = (.ok k, compacted, t) ∧
      (∃ reopened u k' t', Chain.open cut (chain.compactStopped cut n s) = (.ok reopened, u) ∧
        reopened.compact cut u = (.ok k', compacted, t') ∧ t'.envelopes = t.envelopes ∧ t'.versions = t.versions) ∧
      ∀ d, (chain.compactStopped cut n s).Stored d → ¬ t.Stored d →
        ∃ a, Relation.ReflTransGen (fun x y => (chain.compactStopped cut n s).parent x = some y) cut a ∧
          Relation.ReflTransGen (fun x y => y ∈ (chain.compactStopped cut n s).children x) a d := by
  obtain ⟨W, rfl, hg⟩ := h.good laws
  have hcut : Canonical s.parent s.rank chain.root cut := hg.canonical_iff.2 ⟨hg.coherent.desc stored, onPath⟩
  obtain ⟨t, k, hct, -, hlead⟩ := Chain.compactProg_leads hg.coherent.indexed hg.acyclic (hg.recoverable hcut) onPath
  obtain ⟨hrun, hstop⟩ := hlead.done
  have hres : Resumable s cut chain.head (chain.compactStopped cut n s) := by
    rcases hstop n with hhalf | hend
    · exact hhalf.resumable
    · have hend : chain.compactStopped cut n s = t := hend
      rw [hend]; exact hct.resumable
  refine ⟨k, { chain with root := cut }, t, by unfold Chain.compact; rw [hrun]; rfl, ?_, fun d hd _ =>
    hres.recoverable.reaches hres.indexed hd⟩
  have hac := hg.acyclic.mono hres.extends
  rcases @Chain.compact_cases _ cut { chain with root := cut } hres.indexed hac fun _ => hres.recoverable with
    ⟨hno, -⟩ | ⟨-, k', t', hct', -, hrun'⟩
  · exact absurd ((hres.desc_iff Desc.refl).2 onPath) hno
  · obtain ⟨henv, hver⟩ := (hres.compactedTo hct').unique hct
    exact ⟨_, _, k', t', hres.open hg hcut, hrun', henv, hver⟩

end IrohLotus.State

/-! ## The samples -/

namespace IrohLotus.State

open Std Outcome Forest IrohLotus.Wire IrohLotus.Wire.Sample IrohLotus.Storage

/-- A store with a fork whose compaction at `second` is stopped after eight operations. -/
def stoppedStore : MemStorage := (Chain.mk genesisDigest ⟨secondDigest⟩).compactStopped secondDigest 8 forkedStore

/-- Stopped with `other` and `genesis` gone and `first` still to be removed. -/
theorem compact_resumes_stoppedStore :
    stoppedStore.envelope otherDigest = none ∧ stoppedStore.envelope firstDigest ≠ none ∧
      ∃ k compacted t, (Chain.mk genesisDigest ⟨secondDigest⟩).compact secondDigest forkedStore = (.ok k, compacted, t) ∧
        (∃ reopened u k' t', Chain.open secondDigest stoppedStore = (.ok reopened, u) ∧
          reopened.compact secondDigest u = (.ok k', compacted, t') ∧ t'.envelopes = t.envelopes ∧ t'.versions = t.versions) ∧
        ∀ d, stoppedStore.Stored d → ¬ t.Stored d →
          ∃ a, Relation.ReflTransGen (fun x y => stoppedStore.parent x = some y) secondDigest a ∧
            Relation.ReflTransGen (fun x y => y ∈ stoppedStore.children x) a d := by
  have hstored : forkedStore.Stored secondDigest := ⟨second.setVerificationStatus (.allMatched 0), by decide +kernel⟩
  refine ⟨by decide +kernel, by decide +kernel, ?_⟩
  rw [stoppedStore]
  exact Reachable.compact_resumes sample_laws reachable_forkedStore hstored Desc.refl 8

end IrohLotus.State
