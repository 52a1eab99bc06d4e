/-
Canonical membership (`Chain::contains`) and the watch for one envelope leaving the chain
(`Core::watch_orphaned`). The walk behind both compares a digest before it looks it up, so at the end
of a log that was cut off it meets the digest the root names, which nothing is stored under.
-/
import IrohLotus.Lotusd.Watch
import IrohLotus.State.Cut

namespace IrohLotus.Lotusd

open Std Outcome Forest IrohLotus.Wire IrohLotus.Storage IrohLotus.State

variable [Externals]

/-- An envelope the log holds on the path from the head back to the root. -/
structure HeldOnPath (chain : Chain) (s : MemStorage) (digest : EnvelopeDigest) : Prop where
  stored : s.Stored digest
  above : Desc s.parent chain.root digest
  below : Desc s.parent digest chain.head

/-- `Core::watch_orphaned`: the check and the registration happen under one borrow. The handle is
the place of its subscription. -/
def System.watchOrphaned (σ : System) (digest : EnvelopeDigest) : Res Error (Option Nat) × System :=
  match σ.chain.contains σ.store digest with
  | .ok true => (.ok (some σ.subscriptions.length), σ.register (.of (.orphaned digest)))
  | .ok false => (.ok none, σ)
  | .error e => (.error e, σ)

/-! ## What the walk meets -/

section Good

variable {W : World} {chain : Chain} {s : MemStorage} {d : EnvelopeDigest}

/-- From the head down lie the path and, past the root, the digest the root names. -/
theorem desc_head_iff (h : Good W chain s) :
    Desc s.parent d chain.head ↔ HeldOnPath chain s d ∨ s.parent chain.root = some d := by
  constructor
  · intro hd
    rcases hd.total h.tip.canonical.desc with hle | hle
    · by_cases hroot : d = chain.root
      · subst hroot
        exact .inl ⟨h.coherent.base_stored, Desc.refl, hd⟩
      · obtain ⟨p, hp, hdp⟩ := hle.exists_parent (Ne.symm hroot)
        -- what the root names is not in the log, so the walk ends there
        by_cases hdp' : d = p
        · exact .inr (by rw [hdp']; exact hp)
        · obtain ⟨q, hq, -⟩ := hdp.exists_parent (Ne.symm hdp')
          exact absurd hp (h.coherent.not_desc_base (s.stored_of_parent hq))
    · exact .inl ⟨s.stored_of_desc h.coherent.base_stored hle, hle, hd⟩
  · rintro (hpath | hp)
    · exact hpath.below
    · exact (Desc.of_child hp).trans h.tip.canonical.desc

theorem not_heldOnPath_of_named (h : Good W chain s) (hp : s.parent chain.root = some d) : ¬ HeldOnPath chain s d :=
  fun hpath => h.coherent.not_desc_base hpath.stored hp

end Good

/-! ## Membership -/

/-- `contains` is exact about every digest but the one the root names, of which it says that it is on
the path; and a watch for an envelope leaving the chain is registered where `contains` says so. -/
theorem contains_exact_iff {contents : Set SignedPortion} (laws : DigestLaws contents) {σ : System}
    (h : Reachable contents σ.chain σ.store) (d : EnvelopeDigest) :
    ∃ b, σ.chain.contains σ.store d = .ok b ∧
      σ.watchOrphaned d = (if b then (.ok (some σ.subscriptions.length), σ.register (.of (.orphaned d)))
        else (.ok none, σ)) ∧
      ((b = true ↔ HeldOnPath σ.chain σ.store d) ∧ ((∃ id, (σ.watchOrphaned d).1 = .ok (some id)) ↔ HeldOnPath σ.chain σ.store d) ↔
        σ.store.parent σ.chain.root ≠ some d) := by
  obtain ⟨W, rfl, hgood⟩ := h.good laws
  obtain ⟨b, hb, hdesc⟩ := Chain.descends_eq_ok hgood.acyclic σ.chain.head d
  have hcontains : σ.chain.contains σ.store d = .ok b := hb
  have hwatch : σ.watchOrphaned d = (if b then (.ok (some σ.subscriptions.length), σ.register (.of (.orphaned d)))
      else (.ok none, σ)) := by
    unfold System.watchOrphaned
    rw [hcontains]
    cases b <;> rfl
  have hregistered : (∃ id, (σ.watchOrphaned d).1 = .ok (some id)) ↔ b = true := by
    rw [hwatch]
    cases b with
    | true => simp
    | false => simp
  refine ⟨b, hcontains, hwatch, ?_⟩
  rw [hregistered, and_self, hdesc, desc_head_iff hgood]
  constructor
  · intro hiff hp
    exact not_heldOnPath_of_named hgood hp (hiff.1 (.inr hp))
  · intro hne
    exact or_iff_left hne

/-! ## The samples -/

end IrohLotus.Lotusd

namespace IrohLotus.Lotusd

open Std Outcome Forest IrohLotus.Wire IrohLotus.Wire.Sample IrohLotus.Storage IrohLotus.State

/-- The core of a chain compacted at `first`, watched by nobody. -/
def compactedSystem : System := ⟨⟨firstDigest, ⟨secondDigest⟩⟩, compactedStore, [], .idle, []⟩

/-- Of the envelopes of a compacted chain `contains` is exact. -/
theorem contains_exact_compactedSystem :
    Reachable Sample.contents compactedSystem.chain compactedSystem.store ∧
      (∃ b, compactedSystem.chain.contains compactedSystem.store secondDigest = .ok b ∧
        (b = true ↔ HeldOnPath compactedSystem.chain compactedSystem.store secondDigest)) ∧
      ∃ b, compactedSystem.chain.contains compactedSystem.store otherDigest = .ok b ∧
        (b = true ↔ HeldOnPath compactedSystem.chain compactedSystem.store otherDigest) := by
  have hne : compactedSystem.store.parent compactedSystem.chain.root ≠ some secondDigest ∧
      compactedSystem.store.parent compactedSystem.chain.root ≠ some otherDigest := by
    decide +kernel
  have hreach : Reachable Sample.contents compactedSystem.chain compactedSystem.store := reachable_compactedStore
  obtain ⟨b, hb, -, hiff⟩ := contains_exact_iff sample_laws hreach secondDigest
  obtain ⟨b', hb', -, hiff'⟩ := contains_exact_iff sample_laws hreach otherDigest
  exact ⟨hreach, ⟨b, hb, (hiff.2 hne.1).1⟩, b', hb', (hiff'.2 hne.2).1⟩

/-- The envelope compaction pruned is watched as if the log held it, and so is one an adopted chain
never held. -/
theorem contains_pruned_compactedSystem :
    Reachable Sample.contents compactedSystem.chain compactedSystem.store ∧
      compactedStore.envelope genesisDigest = none ∧
      compactedSystem.chain.contains compactedSystem.store genesisDigest = .ok true ∧
      (compactedSystem.watchOrphaned genesisDigest).1 = .ok (some 0) ∧
      ¬ HeldOnPath compactedSystem.chain compactedSystem.store genesisDigest ∧
      Reachable Sample.contents ⟨firstDigest, ⟨firstDigest⟩⟩ adoptedStore ∧
      adoptedStore.envelope genesisDigest = none ∧
      (Chain.mk firstDigest ⟨firstDigest⟩).contains adoptedStore genesisDigest = .ok true := by
  have hnone : compactedStore.envelope genesisDigest = none := by decide +kernel
  refine ⟨reachable_compactedStore, hnone, by decide +kernel, by decide +kernel, fun hpath => ?_,
    reachable_adoptedStore, by decide +kernel, by decide +kernel⟩
  obtain ⟨e, he⟩ := hpath.stored
  have he' : compactedStore.envelope genesisDigest = some e := he
  rw [hnone] at he'; cases he'

end IrohLotus.Lotusd
