/-
The parts of `insert_batch` on a coherent store: whatever the batch, storing it returns and the
store stays coherent, and `descends` decides ancestry.
-/
import IrohLotus.State.Store

namespace IrohLotus.State.Chain

open Std Outcome Forest IrohLotus.Wire IrohLotus.Storage

/-! ## Ancestry -/

section Descends

variable {s : MemStorage}

/-- With fuel for every ancestor the walk of `descends` decides ancestry. -/
theorem descendsFrom_eq_ok (hac : Acyclic s.parent) (a : EnvelopeDigest) : ∀ {fuel : Nat} {d : EnvelopeDigest},
    (above s.parent s.digests d).card + 2 ≤ fuel → ∃ b, descendsFrom s a fuel (some d) = .ok b ∧ (b = true ↔ Desc s.parent a d)
  | 0, d, h => by omega
  | fuel + 1, d, h => by
    unfold descendsFrom
    by_cases hd : d = a
    · subst hd
      exact ⟨true, by rw [if_pos rfl]; rfl, by simp [Desc.refl]⟩
    · rw [if_neg hd]
      change ∃ b, descendsFrom s a fuel (s.parent d) = .ok b ∧ (b = true ↔ Desc s.parent a d)
      cases hp : s.parent d with
      | none =>
        obtain ⟨n, rfl⟩ : ∃ n, fuel = n + 1 := ⟨fuel - 1, by omega⟩
        refine ⟨false, rfl, ⟨nofun, fun hdesc => ?_⟩⟩
        obtain ⟨p, hp', -⟩ := hdesc.exists_parent hd
        rw [hp] at hp'; cases hp'
      | some p =>
        have hlt := above_lt hac hp (s.mem_digests.2 (s.stored_of_parent hp))
        have hle : (above s.parent s.digests p).card + 2 ≤ fuel := by omega
        obtain ⟨b, hb, hiff⟩ := descendsFrom_eq_ok hac a hle
        refine ⟨b, hb, hiff.trans ⟨fun h => h.child hp, fun h => h.of_parent hd hp⟩⟩

theorem descends_eq_ok (hac : Acyclic s.parent) (d a : EnvelopeDigest) :
    ∃ b, descends s d a = .ok b ∧ (b = true ↔ Desc s.parent a d) := by
  refine descendsFrom_eq_ok hac a ?_
  have hle : (above s.parent s.digests d).card ≤ s.envelopes.size := card_above_le.trans s.card_digests_le
  omega

/-- What `insert_batch` says of the head is an answer, never a panic. -/
theorem outcome_eq_ok (hac : Acyclic s.parent) (source head : EnvelopeDigest) (allDuplicates : Bool) :
    ∃ i, outcome s source head allDuplicates = .ok i := by
  unfold outcome
  split
  · obtain ⟨b, hb, -⟩ := descends_eq_ok hac head source
    simp only [hb, Res.ok_bind]
    cases b
    · exact ⟨_, rfl⟩
    · exact ⟨_, rfl⟩
  · split
    · exact ⟨_, rfl⟩
    · exact ⟨_, rfl⟩

end Descends

/-! ## The batch -/

variable [Externals] {W : World} {base : EnvelopeDigest} {s t : MemStorage}

/-- The stores a run of writes leads through. -/
abbrev WroteAll (W : World) : MemStorage → MemStorage → Prop := Relation.ReflTransGen (Wrote W)

theorem WroteAll.coherent (h : WroteAll W s t) (hco : Coherent W base s) : Coherent W base t := by
  induction h with
  | refl => exact hco
  | tail _ hw ih => exact hw.coherent ih

theorem WroteAll.logGrows (h : WroteAll W s t) : s.LogGrows t := by
  induction h with
  | refl => exact fun _ _ he => he
  | tail _ hw ih => exact fun d e he => hw.logGrows d e (ih d e he)

theorem WroteAll.grows (h : WroteAll W s t) (hco : Coherent W base s) : s.Grows t := by
  induction h with
  | refl => exact fun _ _ hv => hv
  | tail hs hw ih => exact fun d v hv => hw.grows (WroteAll.coherent hs hco) d v (ih d v hv)

theorem WroteAll.pathHeld (h : WroteAll W s t) (hco : Coherent W base s) (hpath : PathHeld base s) : PathHeld base t := by
  induction h with
  | refl => exact hpath
  | tail hs hw ih => exact hw.pathHeld (WroteAll.coherent hs hco) ih

/-- A batch writes envelope by envelope and ends in its answer or its first refusal. -/
theorem storeBatch_cases : ∀ {es : List Envelope} {batch : Batch} {s : MemStorage}, Coherent W base s → Footed s batch →
    (∀ e ∈ es, e.toSignedPortion ∈ W.contents) →
      ∃ t, WroteAll W s t ∧ (s.HeldFrom base → t.HeldFrom base) ∧
        ((∃ b, storeBatch batch es s = (.ok b, t)) ∨ ∃ err, storeBatch batch es s = (.error (.error err), t))
  | [], batch, s, _, _, _ => ⟨s, .refl, id, .inl ⟨_, rfl⟩⟩
  | e :: es, batch, s, hco, hf, hes => by
    rcases storeOne_cases hco hf (hes e List.mem_cons_self) with ⟨err, hone⟩ | ⟨batch', d, t, hone, hw, hf', -, -, -, hfrom⟩
    · exact ⟨s, .refl, id, .inr ⟨err, Action.bind_error hone _⟩⟩
    · have hst : WroteAll W s t := by
        rcases hw with rfl | hw
        · exact .refl
        · exact .single hw
      obtain ⟨u, htu, hfrom', hres⟩ := storeBatch_cases (hst.coherent hco) hf' fun e he => hes e (List.mem_cons_of_mem _ he)
      refine ⟨u, hst.trans htu, fun h => hfrom' (hfrom h), ?_⟩
      rw [storeBatch, Action.bind_ok hone]; exact hres

end IrohLotus.State.Chain
