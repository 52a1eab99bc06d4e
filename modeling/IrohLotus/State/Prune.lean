/-
Removing subtrees from the log. `remove_subtree` takes out a node with everything below it, and
wherever it is stopped, what it has taken so far is closed under children: nothing left in the log
hangs off anything already gone.
-/
import IrohLotus.State.Coherent

namespace IrohLotus.Storage.MemStorage

open Std Forest IrohLotus.Wire

/-! ## Logs with records taken out -/

/-- `t` is `s` with the records of `gone` taken out of its log. -/
structure Without (s : MemStorage) (gone : Set EnvelopeDigest) (t : MemStorage) : Prop where
  versions : t.versions = s.versions
  indexed : t.Indexed
  absent : ∀ d ∈ gone, t.loggedEnvelope d = none
  kept : ∀ d ∉ gone, t.loggedEnvelope d = s.loggedEnvelope d

/-- With a record its whole subtree is in the set. -/
def Closed (s : MemStorage) (gone : Set EnvelopeDigest) : Prop := ∀ c p, s.parent c = some p → p ∈ gone → c ∈ gone

variable {s t u : MemStorage} {X Y : Set EnvelopeDigest} {a d x : EnvelopeDigest}

theorem closed_empty : s.Closed ∅ := fun _ _ _ hp => hp.elim

theorem closed_desc : s.Closed {x | Desc s.parent d x} := fun _ _ hc hp => Desc.child hp hc

theorem loggedEnvelope_removeEnvelope (d other : EnvelopeDigest) :
    (s.removeEnvelope d).loggedEnvelope other = if d = other then none else s.loggedEnvelope other := by
  simp only [loggedEnvelope, removeEnvelope, ExtTreeMap.getElem?_erase, Std.compare_eq_iff_eq]

theorem stored_iff_logged : s.Stored d ↔ s.loggedEnvelope d ≠ none := by
  simp only [Stored, envelope, Option.map_eq_some_iff, ne_eq, Option.eq_none_iff_forall_ne_some, not_forall, not_not]
  constructor
  · rintro ⟨e, entry, h, -⟩; exact ⟨entry, h⟩
  · rintro ⟨entry, h⟩; exact ⟨_, entry, h, rfl⟩

namespace Without

theorem refl (hi : s.Indexed) : s.Without ∅ s := ⟨rfl, hi, nofun, fun _ _ => rfl⟩

theorem trans (h : s.Without X t) (h' : t.Without Y u) : s.Without (X ∪ Y) u where
  versions := h'.versions.trans h.versions
  indexed := h'.indexed
  absent := by
    intro d hd
    by_cases hy : d ∈ Y
    · exact h'.absent d hy
    · rw [h'.kept d hy]; exact h.absent d (hd.resolve_right hy)
  kept := by
    intro d hd
    rw [h'.kept d fun hy => hd (.inr hy), h.kept d fun hx => hd (.inl hx)]

theorem one (hi : s.Indexed) (d : EnvelopeDigest) : s.Without {d} (s.removeEnvelope d) where
  versions := rfl
  indexed := hi.removeEnvelope d
  absent := by
    rintro x rfl
    rw [loggedEnvelope_removeEnvelope, if_pos rfl]
  kept := by
    intro x hx
    rw [loggedEnvelope_removeEnvelope, if_neg fun h => hx h.symm]

theorem congr (h : s.Without X t) (hXY : X = Y) : s.Without Y t := hXY ▸ h

variable (h : s.Without X t)

include h

theorem parent_kept (hd : d ∉ X) : t.parent d = s.parent d := by
  simp only [parent, envelope, h.kept d hd]

theorem parent_gone (hd : d ∈ X) : t.parent d = none := by
  simp only [parent, envelope, h.absent d hd]; rfl

theorem «extends» : Extends t.parent s.parent := by
  intro c p hc
  by_cases hx : c ∈ X
  · rw [h.parent_gone hx] at hc; cases hc
  · rw [← h.parent_kept hx]; exact hc

theorem stored_iff : t.Stored d ↔ s.Stored d ∧ d ∉ X := by
  rw [stored_iff_logged, stored_iff_logged]
  by_cases hd : d ∈ X
  · simp [h.absent d hd, hd]
  · simp [h.kept d hd, hd]

/-- What is left of the log descends as it did. -/
theorem desc_iff (hcl : s.Closed X) (hx : x ∉ X) : Desc t.parent a x ↔ Desc s.parent a x := by
  constructor
  · exact fun hd => hd.mono h.extends
  · intro hd
    refine Desc.restrict (· ∉ X) (fun c p hc _ hp => ?_) (fun c p hc _ hp hpx => hc (hcl c p hp hpx)) hd hx
    rw [h.parent_kept hc]; exact hp

theorem closed_trans (hcl : s.Closed X) (hcl' : t.Closed Y) : s.Closed (X ∪ Y) := by
  intro c p hc hp
  by_cases hcx : c ∈ X
  · exact .inl hcx
  · rcases hp with hp | hp
    · exact .inl (hcl c p hc hp)
    · exact .inr (hcl' c p (by rw [h.parent_kept hcx]; exact hc) hp)

theorem below_subset (d : EnvelopeDigest) : below t.parent t.digests d ⊆ below s.parent s.digests d := by
  intro x hx
  rw [mem_below, mem_digests] at hx ⊢
  exact ⟨(h.stored_iff.1 hx.1).1, hx.2.mono h.extends⟩

end Without

theorem digests_removeEnvelope (hd : s.Stored d) : (s.removeEnvelope d).digests.card + 1 = s.digests.card := by
  have herase : (s.removeEnvelope d).digests = s.digests.erase d := by
    ext x
    rw [Finset.mem_erase, mem_digests, mem_digests, stored_iff_logged, stored_iff_logged, loggedEnvelope_removeEnvelope]
    by_cases hx : d = x
    · subst hx; simp
    · simp [hx, Ne.symm hx]
  rw [herase, Finset.card_erase_add_one (s.mem_digests.2 hd)]

theorem nodup_children (s : MemStorage) (p : EnvelopeDigest) : (s.children p).Nodup := by
  have := ExtTreeSet.distinct_toList (t := s.childSet p)
  refine this.imp fun hab heq => ?_
  exact hab (Std.compare_eq_iff_eq.2 heq)

end IrohLotus.Storage.MemStorage

namespace IrohLotus.State

open Std Outcome Forest IrohLotus.Wire IrohLotus.Storage

/-! ## `remove_subtree` -/

/-- The stores a removal within `doomed` can be stopped in. -/
def Pruning (s : MemStorage) (doomed : Set EnvelopeDigest) (t : MemStorage) : Prop :=
  ∃ X, s.Closed X ∧ X ⊆ doomed ∧ s.Without X t

variable {s t u : MemStorage} {D D' : Set EnvelopeDigest} {d p : EnvelopeDigest}

theorem Pruning.start (hi : s.Indexed) : Pruning s D s :=
  ⟨∅, MemStorage.closed_empty, Set.empty_subset _, MemStorage.Without.refl hi⟩

theorem Pruning.mono (h : Pruning s D t) (hD : D ⊆ D') : Pruning s D' t := by
  obtain ⟨X, hcl, hX, hw⟩ := h
  exact ⟨X, hcl, hX.trans hD, hw⟩

/-- A removal stopped after another one was complete. -/
theorem Pruning.after {X : Set EnvelopeDigest} (hw : s.Without X t) (hcl : s.Closed X) (hX : X ⊆ D) (h : Pruning t D' u)
    (hD : D' ⊆ D) : Pruning s D u := by
  obtain ⟨Y, hcl', hY, hw'⟩ := h
  exact ⟨X ∪ Y, hw.closed_trans hcl hcl', Set.union_subset hX (hY.trans hD), hw.trans hw'⟩

/-- What `removeLoop` owes for the subtree of `d` on top of its stack. -/
def Uproots (s : MemStorage) (d : EnvelopeDigest) : Prop :=
  ∃ t m, s.Without {x | Desc s.parent d x} t ∧ t.digests.card + m = s.digests.card ∧ ∀ fuel rest removed,
    Prog.Leads (Pruning s {x | Desc s.parent d x}) (removeLoop (2 * m + fuel) ((d, false) :: rest) removed) s
      (removeLoop fuel rest (removed + m)) t

/-- The subtrees of siblings on top of the stack go one after the other. -/
theorem removeLoop_siblings (n : Nat)
    (hsub : ∀ {s : MemStorage} {d : EnvelopeDigest}, s.Indexed → Acyclic s.parent → s.Stored d →
      (below s.parent s.digests d).card ≤ n → Uproots s d) :
    ∀ (l : List EnvelopeDigest) {s : MemStorage}, s.Indexed → Acyclic s.parent → l.Nodup →
      (∀ c ∈ l, s.parent c = some p ∧ (below s.parent s.digests c).card ≤ n) →
      ∃ t m, s.Without {x | ∃ c ∈ l, Desc s.parent c x} t ∧ t.digests.card + m = s.digests.card ∧ ∀ fuel rest removed,
        Prog.Leads (Pruning s {x | ∃ c ∈ l, Desc s.parent c x})
          (removeLoop (2 * m + fuel) (l.map (fun c => (c, false)) ++ rest) removed) s
          (removeLoop fuel rest (removed + m)) t
  | [], s, hi, _, _, _ => by
    refine ⟨s, 0, (MemStorage.Without.refl hi).congr ?_, rfl, fun fuel rest removed => ?_⟩
    · ext x; simp
    · rw [Nat.mul_zero, Nat.zero_add]; exact Prog.Leads.refl
  | c :: l, s, hi, hac, hnd, hl => by
    obtain ⟨hc, hcard⟩ := hl c List.mem_cons_self
    obtain ⟨hcl, hnd⟩ := List.nodup_cons.1 hnd
    obtain ⟨t, m, hst, hm, hlead⟩ := hsub hi hac (s.stored_of_parent hc) hcard
    have hclosed : s.Closed {x | Desc s.parent c x} := MemStorage.closed_desc
    have hsib : ∀ c' ∈ l, t.parent c' = some p ∧ (below t.parent t.digests c').card ≤ n := by
      intro c' hc'
      obtain ⟨hp, hn⟩ := hl c' (List.mem_cons_of_mem _ hc')
      refine ⟨?_, (Finset.card_le_card (hst.below_subset c')).trans hn⟩
      rw [hst.parent_kept fun hd => ?_]
      · exact hp
      · obtain rfl := hac.eq_of_sibling hc hp hd Desc.refl
        exact hcl hc'
    obtain ⟨u, k, htu, hk, hlead'⟩ := removeLoop_siblings n hsub l hst.indexed (hac.mono hst.extends) hnd hsib
    have hD : {x | Desc s.parent c x} ⊆ {x | ∃ c' ∈ c :: l, Desc s.parent c' x} := fun x hx => ⟨c, List.mem_cons_self, hx⟩
    have hD' : {x | ∃ c' ∈ l, Desc t.parent c' x} ⊆ {x | ∃ c' ∈ c :: l, Desc s.parent c' x} := by
      rintro x ⟨c', hc', hx⟩
      exact ⟨c', List.mem_cons_of_mem _ hc', hx.mono hst.extends⟩
    refine ⟨u, m + k, (hst.trans htu).congr ?_, by omega, fun fuel rest removed => ?_⟩
    · refine Set.Subset.antisymm (Set.union_subset hD hD') ?_
      rintro x ⟨c', hc', hx⟩
      by_cases hxc : Desc s.parent c x
      · exact .inl hxc
      · rcases List.mem_cons.1 hc' with rfl | hc'
        · exact absurd hx hxc
        · exact .inr ⟨c', hc', (hst.desc_iff hclosed hxc).2 hx⟩
    · have h1 := (hlead (2 * k + fuel) (l.map (fun c => (c, false)) ++ rest) removed).weaken
        fun _ h => h.mono hD
      have h2 := (hlead' fuel rest (removed + m)).weaken fun _ h => Pruning.after hst hclosed hD h hD'
      rw [show 2 * (m + k) + fuel = 2 * m + (2 * k + fuel) by omega, ← Nat.add_assoc removed]
      exact h1.trans h2

/-- The subtree on top of the stack goes: its children's subtrees, then the node. -/
theorem removeLoop_subtree : ∀ (n : Nat) {s : MemStorage} {d : EnvelopeDigest}, s.Indexed → Acyclic s.parent →
    s.Stored d → (below s.parent s.digests d).card ≤ n → Uproots s d
  | 0, s, d, _, _, hd, hn => by
    have hpos : 0 < (below s.parent s.digests d).card := card_below_pos (s.mem_digests.2 hd)
    omega
  | n + 1, s, d, hi, hac, hd, hn => by
    have hchild : ∀ c ∈ (s.children d).reverse, s.parent c = some d ∧ (below s.parent s.digests c).card ≤ n := by
      intro c hc
      have hp := hi.mem_children.1 (List.mem_reverse.1 hc)
      have := below_lt hac hp (s.mem_digests.2 hd)
      exact ⟨hp, by omega⟩
    obtain ⟨t, m, hst, hm, hlead⟩ := removeLoop_siblings n (removeLoop_subtree n) (s.children d).reverse hi hac
      (List.nodup_reverse.2 (s.nodup_children d)) hchild
    have hdt : d ∉ {x | ∃ c ∈ (s.children d).reverse, Desc s.parent c x} := by
      rintro ⟨c, hc, hcd⟩
      exact hac.not_desc_parent (hchild c hc).1 hcd
    have hset : {x | ∃ c ∈ (s.children d).reverse, Desc s.parent c x} ∪ {d} = {x | Desc s.parent d x} := by
      ext x
      constructor
      · rintro (⟨c, hc, hx⟩ | rfl)
        · exact (Desc.of_child (hchild c hc).1).trans hx
        · exact Desc.refl
      · intro hx
        by_cases hxd : x = d
        · exact .inr hxd
        · obtain ⟨c, hc, hcx⟩ := Desc.exists_child hx hxd
          exact .inl ⟨c, List.mem_reverse.2 (hi.mem_children.2 hc), hcx⟩
    have hsub : {x | ∃ c ∈ (s.children d).reverse, Desc s.parent c x} ⊆ {x | Desc s.parent d x} := hset ▸ Set.subset_union_left
    have hclosed : s.Closed {x | ∃ c ∈ (s.children d).reverse, Desc s.parent c x} := by
      rintro c p hc ⟨c', hc', hp⟩
      exact ⟨c', hc', hp.child hc⟩
    have hcard := MemStorage.digests_removeEnvelope (hst.stored_iff.2 ⟨hd, hdt⟩)
    refine ⟨t.removeEnvelope d, m + 1, (hst.trans (MemStorage.Without.one hst.indexed d)).congr hset, by omega,
      fun fuel rest removed => ?_⟩
    -- expand the node, take its children's subtrees, then take the node itself
    have hexpand : Prog.Leads (Pruning s {x | Desc s.parent d x})
        (removeLoop (2 * (m + 1) + fuel) ((d, false) :: rest) removed) s
        (removeLoop (2 * m + (fuel + 1)) ((s.children d).reverse.map (fun c => (c, false)) ++ (d, true) :: rest) removed) s := by
      rw [show 2 * (m + 1) + fuel = (2 * m + (fuel + 1)) + 1 by omega, List.map_reverse]
      exact Prog.Leads.read_bind (Pruning.start hi)
    have hkids := (hlead (fuel + 1) ((d, true) :: rest) removed).weaken fun _ h => h.mono hsub
    have hself : Prog.Leads (Pruning s {x | Desc s.parent d x}) (removeLoop (fuel + 1) ((d, true) :: rest) (removed + m)) t
        (removeLoop fuel rest (removed + (m + 1))) (t.removeEnvelope d) :=
      Prog.Leads.write_bind (Pruning.after hst hclosed hsub (Pruning.start hst.indexed) (Set.Subset.refl _))
    exact (hexpand.trans hkids).trans hself

end IrohLotus.State
