/-
Sampling and matching canonical paths (`sync::locator`). A walk is a list of digests, newest first.
-/
import IrohLotus.Sync.Session

namespace IrohLotus.Sync

open IrohLotus.Wire

/-- Whether a locator samples the entry this many envelopes behind the head: the head itself, and
every power of two. -/
def sampled (offset : Nat) : Bool := offset == 0 || offset == 2 ^ offset.log2

/-- The samples of a walk, always ending on its last entry. -/
def sample (path : List EnvelopeDigest) : List EnvelopeDigest :=
  let samples := (path.zipIdx.filter fun entry => sampled entry.2).map Prod.fst
  match path.zipIdx.getLast? with
  | some (root, offset) => if sampled offset then samples else samples ++ [root]
  | none => samples

/-- The newest entry of the walk that the locator offers. -/
def splitPoint (locator path : List EnvelopeDigest) : Option EnvelopeDigest :=
  path.find? fun digest => locator.contains digest

section Sample

variable {path : List EnvelopeDigest} {d : EnvelopeDigest}

theorem mem_of_mem_sample (h : d ∈ sample path) : d ∈ path := by
  have hfst : ∀ entry ∈ path.zipIdx, entry.1 ∈ path := fun entry he => List.fst_mem_of_mem_zipIdx he
  have hsamples : ∀ x ∈ (path.zipIdx.filter fun entry => sampled entry.2).map Prod.fst, x ∈ path := by
    intro x hx
    obtain ⟨entry, hentry, rfl⟩ := List.mem_map.1 hx
    exact hfst entry (List.mem_filter.1 hentry).1
  unfold sample at h
  split at h
  · rename_i root offset hlast
    split at h
    · exact hsamples d h
    · rcases List.mem_append.1 h with h | h
      · exact hsamples d h
      · rw [List.mem_singleton.1 h]
        exact hfst _ (List.mem_of_getLast? hlast)
  · exact hsamples d h

/-- The last entry is always sampled. -/
theorem getLast_mem_sample (h : path.getLast? = some d) : d ∈ sample path := by
  have hmap : path.zipIdx.getLast?.map Prod.fst = some d := by
    rw [← List.getLast?_map, List.zipIdx_map_fst]
    exact h
  obtain ⟨⟨root, offset⟩, hlast, rfl⟩ := Option.map_eq_some_iff.1 hmap
  simp only [sample, hlast]
  split
  · rename_i hsampled
    exact List.mem_map.2 ⟨_, List.mem_filter.2 ⟨List.mem_of_getLast? hlast, hsampled⟩, rfl⟩
  · exact List.mem_append_right _ (List.mem_singleton.2 rfl)

theorem mem_of_splitPoint {locator : List EnvelopeDigest} (h : splitPoint locator path = some d) :
    d ∈ locator ∧ d ∈ path := by
  have hoffered := List.find?_some h
  exact ⟨List.contains_iff_mem.1 hoffered, List.mem_of_find?_eq_some h⟩

theorem splitPoint_eq_none {locator : List EnvelopeDigest} (h : splitPoint locator path = none) (hd : d ∈ locator) :
    d ∉ path := by
  intro hpath
  exact List.find?_eq_none.1 h d hpath (List.contains_iff_mem.2 hd)

/-- The offsets sampled below `2 ^ k` are zero and `k` powers of two. -/
theorem card_sampled_le (k : Nat) : ((Finset.range (2 ^ k)).filter fun offset => sampled offset = true).card ≤ k + 1 := by
  have hsub : ((Finset.range (2 ^ k)).filter fun offset => sampled offset = true) ⊆
      insert 0 ((Finset.range k).image fun i => 2 ^ i) := by
    intro offset hmem
    obtain ⟨hlt, hsampled⟩ := Finset.mem_filter.1 hmem
    rw [sampled, Bool.or_eq_true, beq_iff_eq, beq_iff_eq] at hsampled
    rcases hsampled with rfl | hpow
    · exact Finset.mem_insert_self _ _
    · refine Finset.mem_insert_of_mem (Finset.mem_image.2 ⟨offset.log2, ?_, hpow.symm⟩)
      rw [Finset.mem_range] at hlt ⊢
      rw [hpow] at hlt
      exact (Nat.pow_lt_pow_iff_right (by decide)).1 hlt
  calc
    _ ≤ (insert 0 ((Finset.range k).image fun i => 2 ^ i)).card := Finset.card_le_card hsub
    _ ≤ ((Finset.range k).image fun i => 2 ^ i).card + 1 := Finset.card_insert_le _ _
    _ ≤ (Finset.range k).card + 1 := Nat.add_le_add_right Finset.card_image_le 1
    _ = k + 1 := by rw [Finset.card_range]

/-- A walk of up to `2 ^ 62` envelopes samples to a lawful locator. -/
theorem length_sample_le (h : path.length ≤ 2 ^ 62) : (sample path).length ≤ MAX_LOCATOR_LEN := by
  have hmap : ((path.zipIdx.filter fun entry => sampled entry.2).map Prod.snd) =
      (List.range' 0 path.length).filter fun offset => sampled offset := by
    rw [← List.zipIdx_map_snd, List.filter_map]
    rfl
  have hlen : (path.zipIdx.filter fun entry => sampled entry.2).length ≤ 63 := by
    rw [← List.length_map (f := Prod.snd), hmap]
    have hnodup : ((List.range' 0 path.length).filter fun offset => sampled offset).Nodup :=
      List.Nodup.filter _ (List.nodup_range' 1)
    rw [← List.toFinset_card_of_nodup hnodup]
    refine (Finset.card_le_card ?_).trans (card_sampled_le 62)
    intro offset hmem
    obtain ⟨hrange, hsampled⟩ := List.mem_filter.1 (List.mem_toFinset.1 hmem)
    have hlt := List.mem_range'_1.1 hrange
    exact Finset.mem_filter.2 ⟨Finset.mem_range.2 (by omega), hsampled⟩
  unfold sample MAX_LOCATOR_LEN
  split
  · split
    · rw [List.length_map]; omega
    · rw [List.length_append, List.length_map, List.length_singleton]; omega
  · rw [List.length_map]; omega

end Sample

end IrohLotus.Sync
