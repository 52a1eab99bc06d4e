/-
Where a sampled path and another walk part. A locator offers the offsets that are powers of two and the
last, so a walk that joins the path `k` behind its head meets an offered entry before it has gone `k`
further.
-/
import IrohLotus.Sync.Locator
import IrohLotus.Wire.Sample

namespace IrohLotus.Sync

open IrohLotus.Wire

/-- The offsets a locator offers of a path of `n`. -/
def Offered (n offset : Nat) : Prop := sampled offset = true ∨ offset + 1 = n

instance (n offset : Nat) : Decidable (Offered n offset) := inferInstanceAs (Decidable (_ ∨ _))

/-! ## Offsets -/

theorem sampled_zero : sampled 0 = true := rfl

theorem sampled_two_pow (m : Nat) : sampled (2 ^ m) = true := by
  simp [sampled, Nat.log2_two_pow]

/-- Some power of two lies between a number and its double. -/
theorem exists_two_pow {k : Nat} (hk : 0 < k) : ∃ m, k ≤ 2 ^ m ∧ 2 ^ m ≤ 2 * k - 1 := by
  refine ⟨Nat.clog 2 k, Nat.le_pow_clog (by decide) k, ?_⟩
  by_cases hone : k = 1
  · subst hone
    decide
  · have hlt : 2 ^ (Nat.clog 2 k).pred < k := Nat.pow_pred_clog_lt_self (by decide) (by omega)
    have hpos : 0 < Nat.clog 2 k := Nat.clog_pos (by decide) (by omega)
    have hsucc : 2 ^ Nat.clog 2 k = 2 * 2 ^ (Nat.clog 2 k).pred := by
      rw [← Nat.pow_succ', Nat.succ_pred_eq_of_pos hpos]
    omega

/-- From any offset on, an offered one comes within as many steps. -/
theorem exists_offered {n k : Nat} (hk : k < n) :
    ∃ j, k ≤ j ∧ j < n ∧ Offered n j ∧ (∀ i, k ≤ i → i < n → Offered n i → j ≤ i) ∧ j ≤ 2 * k - 1 := by
  have hex : ∃ j, k ≤ j ∧ j < n ∧ Offered n j := ⟨n - 1, by omega, by omega, .inr (by omega)⟩
  obtain ⟨hle, hlt, hoffered⟩ := Nat.find_spec hex
  have hmin : ∀ i, k ≤ i → i < n → Offered n i → Nat.find hex ≤ i := fun i hki hin hi => Nat.find_min' hex ⟨hki, hin, hi⟩
  refine ⟨Nat.find hex, hle, hlt, hoffered, hmin, ?_⟩
  by_cases hzero : k = 0
  · subst hzero
    exact hmin 0 (Nat.le_refl 0) hk (.inl sampled_zero)
  · obtain ⟨m, hkm, hmk⟩ := exists_two_pow (Nat.pos_of_ne_zero hzero)
    by_cases hmn : 2 ^ m < n
    · exact (hmin _ hkm hmn (.inl (sampled_two_pow m))).trans hmk
    · omega

/-! ## The sample -/

section Sample

variable {path locator : List EnvelopeDigest} {d : EnvelopeDigest}

/-- The sample is the entries at the offered offsets. -/
theorem sample_eq (path : List EnvelopeDigest) :
    sample path = (path.zipIdx.filter fun entry => decide (Offered path.length entry.2)).map Prod.fst := by
  rcases List.eq_nil_or_concat path with rfl | ⟨init, root, rfl⟩
  · rfl
  rw [List.concat_eq_append]
  have hzip : (init ++ [root]).zipIdx = init.zipIdx ++ [(root, init.length)] := by
    rw [List.zipIdx_append]
    simp
  have hinit : init.zipIdx.filter (fun entry => decide (Offered (init ++ [root]).length entry.2)) =
      init.zipIdx.filter fun entry => sampled entry.2 := by
    refine List.filter_congr fun entry he => ?_
    have hlt : entry.2 < init.length := by
      have := List.snd_lt_of_mem_zipIdx he
      omega
    simp only [Offered, List.length_append, List.length_singleton, Nat.add_right_cancel_iff, Nat.ne_of_lt hlt, or_false,
      Bool.decide_eq_true]
  have hroot : Offered (init ++ [root]).length init.length := .inr (by simp)
  unfold sample
  rw [hzip, List.getLast?_concat, List.filter_append, List.filter_append, hinit, List.map_append, List.map_append]
  simp only [List.filter_cons, List.filter_nil, hroot, decide_true, if_true, List.map_cons, List.map_nil]
  split
  · rfl
  · rw [List.map_nil, List.append_nil]

theorem sample_sublist (path : List EnvelopeDigest) : (sample path).Sublist path := by
  have hsub := (List.filter_sublist (p := fun entry => decide (Offered path.length entry.2)) (l := path.zipIdx)).map Prod.fst
  rw [List.zipIdx_map_fst] at hsub
  rw [sample_eq]
  exact hsub

/-- Which entries of a path without duplicates are offered. -/
theorem mem_sample_iff (hnodup : path.Nodup) {i : Nat} (h : path[i]? = some d) : d ∈ sample path ↔ Offered path.length i := by
  rw [sample_eq, List.mem_map]
  constructor
  · rintro ⟨⟨d', i'⟩, hmem, rfl⟩
    obtain ⟨hmem, hoffered⟩ := List.mem_filter.1 hmem
    have hi' : path[i']? = some d' := List.mem_zipIdx_iff_getElem?.1 hmem
    obtain ⟨hlt, hget⟩ := List.getElem?_eq_some_iff.1 h
    obtain ⟨hlt', hget'⟩ := List.getElem?_eq_some_iff.1 hi'
    obtain rfl : i' = i := (hnodup.getElem_inj_iff).1 (hget'.trans hget.symm)
    exact of_decide_eq_true hoffered
  · intro hoffered
    exact ⟨(d, i), List.mem_filter.2 ⟨List.mem_zipIdx_iff_getElem?.2 h, decide_eq_true hoffered⟩, rfl⟩

theorem head?_sample (path : List EnvelopeDigest) : (sample path).head? = path.head? := by
  rw [sample_eq]
  cases path with
  | nil => rfl
  | cons head rest =>
    have hzero : Offered (head :: rest).length 0 := .inl sampled_zero
    rw [List.zipIdx_cons, List.filter_cons_of_pos (by exact decide_eq_true hzero)]
    rfl

theorem getLast?_sample (path : List EnvelopeDigest) : (sample path).getLast? = path.getLast? := by
  rw [sample_eq]
  rcases List.eq_nil_or_concat path with rfl | ⟨init, root, rfl⟩
  · rfl
  rw [List.concat_eq_append]
  have hroot : Offered (init ++ [root]).length init.length := .inr (by simp)
  have hzip : (init ++ [root]).zipIdx = init.zipIdx ++ [(root, init.length)] := by
    rw [List.zipIdx_append]
    simp
  rw [hzip, List.filter_append, List.map_append, List.filter_cons_of_pos (by exact decide_eq_true hroot)]
  simp

/-! ## The split -/

/-- A locator's order does not matter. -/
theorem splitPoint_perm (h : locator.Perm (sample path)) (walk : List EnvelopeDigest) :
    splitPoint locator walk = walk.find? fun digest => decide (digest ∈ sample path) := by
  unfold splitPoint
  congr 1
  funext digest
  rw [List.contains_eq_mem]
  exact decide_eq_decide.2 h.mem_iff

/-- A path sampled has a locator in its order from its head to its root, and however that is reordered, a
walk that joins the path splits from it at the first offered entry they share. -/
theorem sample_splits (hne : path ≠ []) (hlen : path.length ≤ 2 ^ 62) (hnodup : path.Nodup) :
    ((sample path).Sublist path ∧ (sample path).Nodup ∧ (sample path).head? = path.head? ∧
      (sample path).getLast? = path.getLast? ∧ sample path ≠ [] ∧ (sample path).length ≤ MAX_LOCATOR_LEN) ∧
    ∀ locator : List EnvelopeDigest, locator.Perm (sample path) →
      (∀ (k : Nat) (own : List EnvelopeDigest), k < path.length → (∀ digest ∈ own, digest ∉ path) →
        ∃ j digest, path[j]? = some digest ∧ splitPoint locator (own ++ path.drop k) = some digest ∧
          k ≤ j ∧ Offered path.length j ∧ (∀ i, k ≤ i → i < path.length → Offered path.length i → j ≤ i) ∧
          j ≤ 2 * k - 1 ∧
          (own ++ path.drop k).takeWhile (· ≠ digest) = own ++ (path.drop k).take (j - k) ∧ j - k ≤ k - 1) ∧
      ∀ walk : List EnvelopeDigest, splitPoint locator walk = none ↔ ∀ digest ∈ walk, digest ∉ sample path := by
  have hhead := head?_sample path
  refine ⟨⟨sample_sublist path, (sample_sublist path).nodup hnodup, hhead, getLast?_sample path, ?_, length_sample_le hlen⟩,
    fun locator hperm => ⟨fun k own hk hown => ?_, fun walk => ?_⟩⟩
  · intro hnil
    rw [hnil] at hhead
    exact hne (List.head?_eq_none_iff.1 hhead.symm)
  · obtain ⟨j, hkj, hjn, hoffered, hmin, hbound⟩ := exists_offered hk
    have hget : path[j]? = some path[j] := List.getElem?_eq_getElem hjn
    -- the shared entries above the split are not offered, nor is any of the walk's own
    have hsplit : path.drop k = (path.drop k).take (j - k) ++ path[j] :: path.drop (j + 1) := by
      conv_lhs => rw [← List.take_append_drop (j - k) (path.drop k), List.drop_drop, Nat.add_sub_cancel' hkj,
        List.drop_eq_getElem_cons hjn]
    have habove : ∀ digest ∈ (path.drop k).take (j - k), digest ∉ sample path ∧ digest ≠ path[j] := by
      intro digest hmem
      obtain ⟨i, hi, hdigest⟩ := List.mem_iff_getElem.1 hmem
      rw [List.length_take, List.length_drop] at hi
      have hki : path[k + i]? = some digest := by
        rw [← hdigest, List.getElem_take, List.getElem_drop, List.getElem?_eq_getElem]
      refine ⟨fun hsampled => ?_, ?_⟩
      · have hle := hmin (k + i) (by omega) (by omega) ((mem_sample_iff hnodup hki).1 hsampled)
        omega
      · rintro rfl
        obtain ⟨hlt, hsame⟩ := List.getElem?_eq_some_iff.1 hki
        have hinj := (hnodup.getElem_inj_iff).1 hsame
        omega
    have hsampled : path[j] ∈ sample path := (mem_sample_iff hnodup hget).2 hoffered
    have hself : ∀ digest ∈ own, digest ∉ sample path ∧ digest ≠ path[j] := fun digest hmem =>
      ⟨fun h => hown digest hmem ((sample_sublist path).subset h), fun h => hown digest hmem (h ▸ List.getElem_mem hjn)⟩
    have hbefore : ∀ digest ∈ own ++ (path.drop k).take (j - k), digest ∉ sample path ∧ digest ≠ path[j] := by
      intro digest hmem
      rcases List.mem_append.1 hmem with hmem | hmem
      · exact hself digest hmem
      · exact habove digest hmem
    refine ⟨j, path[j], hget, ?_, hkj, hoffered, hmin, hbound, ?_, by omega⟩
    · rw [splitPoint_perm hperm, hsplit, ← List.append_assoc, List.find?_append,
        List.find?_eq_none.2 fun digest hmem => by simpa using (hbefore digest hmem).1, Option.none_or,
        List.find?_cons_of_pos (by simpa using hsampled)]
    · conv_lhs => rw [hsplit, ← List.append_assoc]
      rw [List.takeWhile_append_of_pos fun digest hmem => by simpa using (hbefore digest hmem).2,
        List.takeWhile_cons_of_neg (by simp), List.append_nil]
  · rw [splitPoint_perm hperm, List.find?_eq_none]
    simp

end Sample

end IrohLotus.Sync

/-! ## The samples -/

namespace IrohLotus.Sync

open IrohLotus.Wire IrohLotus.Wire.Sample

/-- A path of three, and a walk that leaves it one envelope behind its head. -/
theorem sample_splits_three :
    splitPoint [genesisDigest, firstDigest, secondDigest] [otherDigest, firstDigest, genesisDigest] = some firstDigest := by
  have hnodup : [secondDigest, firstDigest, genesisDigest].Nodup := by decide
  have hperm : [genesisDigest, firstDigest, secondDigest].Perm (sample [secondDigest, firstDigest, genesisDigest]) := by decide
  obtain ⟨j, digest, hget, hsplit, hkj, -, -, hbound, -⟩ :=
    ((sample_splits (List.cons_ne_nil _ _) (by decide) hnodup).2 _ hperm).1 1 [otherDigest] (by decide) (by decide)
  obtain rfl : j = 1 := by omega
  cases hget
  exact hsplit

end IrohLotus.Sync
