/-
What a compaction pass leaves of the canonical path (`Core::compact_before`), where the node's clock does not go
back: what some clause of the policy keeps, and no more, once enough lies past it.
-/
import IrohLotus.Lotusd.Oldest
import IrohLotus.Lotusd.Window

namespace IrohLotus.Lotusd

open Std Outcome Forest IrohLotus.Wire IrohLotus.Storage IrohLotus.State IrohLotus.Sync

/-! ## The held path -/

/-- The held path is what the log has of the walk. -/
theorem heldPath_walk {s : MemStorage} : ∀ {fuel : Nat} {d : EnvelopeDigest} {walk : List EnvelopeDigest},
    walkFrom s fuel d = .ok walk →
      heldPath s (fuel + 1) (some d) = .ok ((logged s walk).map fun x => (x.1, x.2.storedAt))
  | 0, _, _, h => by cases h
  | fuel + 1, d, walk, h => by
    unfold heldPath
    rcases walkFrom_cases h with ⟨hnone, rfl⟩ | ⟨entry, hentry, ⟨hprev, rfl⟩ | ⟨p, rest, hprev, hrest, rfl⟩⟩
    · simp [logged, hnone]; rfl
    · simp [logged, hentry, hprev, heldPath]; rfl
    · simp only [hentry, hprev, heldPath_walk hrest]
      simp [logged, hentry]

/-- Of the path, a log compacted to one of its entries holds that entry and what is above it. -/
theorem stored_iff_above {s t : MemStorage} {cut head d tip : EnvelopeDigest} {fuel i k : Nat} {a b : StoredAt}
    {path : List (EnvelopeDigest × StoredAt)} (hct : Chain.CompactedTo s cut head t) (hac : Acyclic s.parent)
    (distinct : (path.map Prod.fst).Nodup) (hpath : heldPath s fuel (some tip) = .ok path)
    (hcut : path[k]? = some (cut, a)) (hd : path[i]? = some (d, b)) (hstored : s.Stored d) : t.Stored d ↔ i ≤ k := by
  rw [hct.stored_iff]
  constructor
  · rintro ⟨-, habove⟩
    by_contra hafter
    -- what lies past the cut is below it
    have hbelow := heldPath_le hpath (show k ≤ i by omega) hcut hd
    obtain rfl := hac.antisymm hbelow habove
    have := index_of_digest distinct hd hcut
    omega
  · exact fun hbefore => ⟨hstored, heldPath_le hpath hbefore hd hcut⟩

/-- The clauses keep a newest part of the path: all above the cut, where there is one. -/
theorem keptBy_iff_lt {path : List (EnvelopeDigest × StoredAt)} {keep : ℕ+} {c : StoredAt}
    {pinned : ExtTreeSet EnvelopeDigest} {cut : EnvelopeDigest} {eligible : Nat} (distinct : (path.map Prod.fst).Nodup)
    (falling : path.Pairwise fun x y => y.2 ≤ x.2) (h : chooseCut path keep (some c) pinned = some (cut, eligible)) :
    ∃ kept a, 0 < kept ∧ kept + eligible = path.length ∧ 0 < eligible ∧ path[kept - 1]? = some (cut, a) ∧
      ∀ i < path.length, KeptBy keep c pinned path i ↔ i < kept := by
  obtain ⟨c', kept, a, hc, hstale, rfl, hget⟩ := chooseCut_eq_some_iff.1 h
  cases hc
  have hiff := fun j => @stale_iff keep c pinned path j distinct hstale.stale.pins_onPath
  obtain ⟨hlt, hkept⟩ := (hiff kept).1 hstale.stale
  have hpos : 0 < kept := keep.pos.trans_le hstale.stale.past
  refine ⟨kept, a, hpos, by omega, by omega, hget, fun i hi => ⟨fun hkeeps => ?_, fun hbefore => ?_⟩⟩
  · by_contra hafter
    exact not_keptBy_mono falling (Nat.not_lt.1 hafter) hi hkept hkeeps
  · by_contra hnot
    exact hstale.first i hbefore ((hiff i).2 ⟨hi, hnot⟩)

section Retention

variable [Externals] {contents : Set SignedPortion} {core : Core}

/-- The path a pass reads is the canonical one, and its times fall. -/
theorem Core.Dated.exists_path (laws : DigestLaws contents) (h : core.Dated contents) :
    ∃ path, heldPath core.storage (core.storage.envelopes.size + 2) (some core.head) = .ok path ∧
      (path.map Prod.fst).Nodup ∧ (path.Pairwise fun x y => y.2 ≤ x.2) ∧
      ∀ d, d ∈ path.map Prod.fst ↔ Canonical core.storage.parent core.storage.rank core.root d := by
  have hrooted := (h.reached.rooted laws).1
  obtain ⟨W, hW, hgood⟩ := hrooted.reachable.good laws
  have hfuel : (above core.storage.parent core.storage.digests core.head).card + 1 ≤ core.storage.envelopes.size + 1 :=
    Nat.add_le_add_right (card_above_le.trans core.storage.card_digests_le) 1
  obtain ⟨walk, hwalk, hline⟩ := walkFrom_eq_ok hgood.acyclic hfuel
  have hfalling := (h.aged laws).falling hgood.acyclic hline
  have hfst : ((logged core.storage walk).map fun x => (x.1, x.2.storedAt)).map Prod.fst =
      (core.envelopes walk).map Prod.fst := by
    rw [List.map_map]; rfl
  refine ⟨_, heldPath_walk hwalk, ?_, List.pairwise_map.2 (hfalling.imp fun h => h.2.2), fun d => ?_⟩
  · rw [hfst]
    exact List.pairwise_map.2 (hfalling.imp fun h => h.1)
  · rw [hfst]
    exact hrooted.mem_envelopes laws hline d

/-- A pass leaves the node as it was where the floor reaches further back than any log, where a pin is off the path, or
where too little lies past the policy; otherwise it leaves of the path exactly what some clause keeps. -/
theorem Core.Dated.prunes (laws : DigestLaws contents) (h : core.Dated contents) (cutoff : Option StoredAt) (keep : ℕ+)
    (minPrune : Nat) (pinned : ExtTreeSet EnvelopeDigest) :
    ∃ path, heldPath core.storage (core.storage.envelopes.size + 2) (some core.head) = .ok path ∧
      (∀ d, d ∈ path.map Prod.fst ↔ Canonical core.storage.parent core.storage.rank core.root d) ∧
      ((core.compactBefore cutoff keep minPrune pinned).2 = core ∧
          (cutoff = none ∨ (∃ d ∈ pinned, d ∉ path.map Prod.fst) ∨
            ∃ c kept, cutoff = some c ∧ (∀ i < path.length, KeptBy keep c pinned path i ↔ i < kept) ∧
              (path.length ≤ kept ∨ path.length - kept < minPrune)) ∨
        ∃ c kept, cutoff = some c ∧ (∀ i < path.length, KeptBy keep c pinned path i ↔ i < kept) ∧ 0 < kept ∧
          kept < path.length ∧ minPrune ≤ path.length - kept ∧ ∀ i d at', path[i]? = some (d, at') →
            ((core.compactBefore cutoff keep minPrune pinned).2.storage.Stored d ↔ i < kept)) := by
  have hrooted := (h.reached.rooted laws).1
  obtain ⟨path, hpath, distinct, falling, hcanonical⟩ := h.exists_path laws
  refine ⟨path, hpath, hcanonical, ?_⟩
  cases cutoff with
  | none => exact .inl ⟨core.compactBefore_idle hpath nofun, .inl rfl⟩
  | some c =>
    cases hcut : chooseCut path keep (some c) pinned with
    | none =>
      refine .inl ⟨core.compactBefore_idle hpath (by rw [hcut]; nofun), .inr ?_⟩
      by_cases hpins : ∀ d ∈ pinned, d ∈ path.map Prod.fst
      · refine .inr ⟨c, path.length, rfl, fun i hi => ⟨fun _ => hi, fun _ => ?_⟩, .inl le_rfl⟩
        by_contra hkept
        exact chooseCut_eq_none_iff.1 hcut i ((stale_iff distinct hpins).2 ⟨hi, hkept⟩)
      · push Not at hpins
        exact .inl hpins
    | some found =>
      obtain ⟨cut, eligible⟩ := found
      obtain ⟨kept, a, hpos, hlength, heligible, hget, hkept⟩ := keptBy_iff_lt distinct falling hcut
      by_cases enough : eligible < minPrune
      · refine .inl ⟨core.compactBefore_idle hpath fun cut' eligible' hsame => ?_, .inr (.inr ⟨c, kept, rfl, hkept, .inr ?_⟩)⟩
        · rw [hcut] at hsame
          cases hsame
          exact enough
        · omega
      · obtain ⟨-, -, hct⟩ := hrooted.compactBefore_run laws hpath hcut enough
        obtain ⟨W, hW, hgood⟩ := hrooted.reachable.good laws
        obtain ⟨-, hmem⟩ := heldPath_eq_ok hgood.coherent hgood.head_stored hpath
        refine .inr ⟨c, kept, rfl, hkept, hpos, by omega, by omega, fun i d at' hd => ?_⟩
        have hstored := (hmem d (List.mem_map.2 ⟨_, List.mem_of_getElem? hd, rfl⟩)).1
        rw [stored_iff_above hct hgood.acyclic distinct hpath hget hd hstored]
        omega

end Retention

end IrohLotus.Lotusd

/-! ## The sample -/

namespace IrohLotus.Lotusd

open Std Outcome Forest IrohLotus.Wire IrohLotus.Wire.Sample IrohLotus.Storage IrohLotus.State IrohLotus.Sync

/-- A floor past the first envelope lets it go, and nothing else. -/
theorem prunes_later : ∃ path kept, heldPath laterCore.storage (laterCore.storage.envelopes.size + 2) (some laterCore.head) =
      .ok path ∧ kept < path.length ∧ ∀ i d at', path[i]? = some (d, at') →
        ((laterCore.compactBefore (some 1) 2 1 ∅).2.storage.Stored d ↔ i < kept) := by
  have hgone : (laterCore.compactBefore (some 1) 2 1 ∅).2.storage.envelope genesisDigest = none := by decide +kernel
  have hthere : (laterCore.storage.envelope genesisDigest).isSome := by decide +kernel
  obtain ⟨path, hpath, -, ⟨hsame, -⟩ | ⟨c, kept, -, -, -, hlt, -, hleft⟩⟩ :=
    Core.Dated.prunes sample_laws dated_laterCore (some 1) 2 1 ∅
  · rw [hsame] at hgone
    rw [hgone] at hthere
    cases hthere
  · exact ⟨path, kept, hpath, hlt, hleft⟩

end IrohLotus.Lotusd
