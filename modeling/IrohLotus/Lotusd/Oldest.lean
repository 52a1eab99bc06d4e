/-
The recorded oldest envelope over the runs of a daemon: inserts, compaction passes under any policy,
crashes at any storage operation of a pass, and restarts at what was recorded. A pass walks the path
as far down as the log reaches, below the recorded oldest where one was interrupted, and so can pick
a cut below it; while none does, the recorded oldest is a root the daemon can stand on.
-/
import IrohLotus.State.Planted
import IrohLotus.Lotusd.Core

namespace IrohLotus.Lotusd

open Std Outcome Forest IrohLotus.Wire IrohLotus.Storage IrohLotus.State

/-! ## Policies -/

/-- What one pass is called with: the envelopes to keep, the floor resolved to a cutoff, how many
have to go for the sweep to be worth it, and the roots of the outstanding invites. -/
structure Retention where
  keep : ℕ+
  cutoff : Option StoredAt
  minPrune : Nat
  pinned : ExtTreeSet EnvelopeDigest

/-- No clause of the policy keeps the entry `i` of the path: every pinned digest was walked past, it is
not among the newest, and it arrived before the cutoff. -/
structure Stale (keep : Nat) (cutoff : StoredAt) (pinned : ExtTreeSet EnvelopeDigest) (path : List (EnvelopeDigest × StoredAt))
    (i : Nat) : Prop where
  unpinned : ∀ d ∈ pinned, ∃ j at', j < i ∧ path[j]? = some (d, at')
  past : keep ≤ i
  old : ∃ d at', path[i]? = some (d, at') ∧ at' < cutoff

/-- The first such entry. -/
structure FirstStale (keep : Nat) (cutoff : StoredAt) (pinned : ExtTreeSet EnvelopeDigest)
    (path : List (EnvelopeDigest × StoredAt)) (i : Nat) : Prop where
  stale : Stale keep cutoff pinned path i
  first : ∀ j < i, ¬ Stale keep cutoff pinned path j

section Choosing

variable {keep : Nat} {cutoff : StoredAt} {pinned unseen : ExtTreeSet EnvelopeDigest} {newer cut : EnvelopeDigest}
  {path pre : List (EnvelopeDigest × StoredAt)} {digest : EnvelopeDigest} {at' : StoredAt}

theorem isEmpty_eq_false_iff_exists : unseen.isEmpty = false ↔ ∃ x, x ∈ unseen := by
  rw [ExtTreeSet.isEmpty_eq_false_iff]
  constructor
  · intro hne
    by_contra hno
    push Not at hno
    exact hne (ExtTreeSet.ext_mem fun x => iff_of_false (hno x) ExtTreeSet.not_mem_empty)
  · rintro ⟨x, hx⟩ rfl
    exact ExtTreeSet.not_mem_empty hx

/-- The test of the loop, for an entry with `pre` above it and the pins not among `pre` unseen. -/
theorem keeps_iff (hunseen : ∀ x, x ∈ unseen ↔ x ∈ pinned ∧ ∀ a, (x, a) ∉ pre) :
    (unseen.contains digest || !(unseen.erase digest).isEmpty || decide (pre.length < keep) || decide (at' ≥ cutoff)) = true ↔
      ¬ Stale keep cutoff pinned (pre ++ (digest, at') :: path) pre.length := by
  have hpins : (unseen.contains digest || !(unseen.erase digest).isEmpty) = true ↔ ∃ x, x ∈ unseen := by
    rw [Bool.or_eq_true, ← ExtTreeSet.mem_iff_contains, Bool.not_eq_true', isEmpty_eq_false_iff_exists]
    constructor
    · rintro (hd | ⟨x, hx⟩)
      · exact ⟨digest, hd⟩
      · exact ⟨x, (ExtTreeSet.mem_erase.1 hx).2⟩
    · rintro ⟨x, hx⟩
      by_cases hxd : digest = x
      · exact .inl (hxd ▸ hx)
      · exact .inr ⟨x, ExtTreeSet.mem_erase.2 ⟨fun heq => hxd (Std.compare_eq_iff_eq.1 heq), hx⟩⟩
  have hseen : (∃ x, x ∈ unseen) ↔
      ¬ ∀ d ∈ pinned, ∃ j a, j < pre.length ∧ (pre ++ (digest, at') :: path)[j]? = some (d, a) := by
    constructor
    · rintro ⟨x, hx⟩ hall
      obtain ⟨hpin, hpre⟩ := (hunseen x).1 hx
      obtain ⟨j, a, hj, hget⟩ := hall x hpin
      rw [List.getElem?_append_left hj] at hget
      exact hpre a (List.mem_of_getElem? hget)
    · intro hall
      push Not at hall
      obtain ⟨x, hpin, hno⟩ := hall
      refine ⟨x, (hunseen x).2 ⟨hpin, fun a hmem => ?_⟩⟩
      obtain ⟨j, hget⟩ := List.getElem?_of_mem hmem
      have hj : j < pre.length := (List.getElem?_eq_some_iff.1 hget).1
      exact hno j a hj (by rw [List.getElem?_append_left hj]; exact hget)
  have hentry : (pre ++ (digest, at') :: path)[pre.length]? = some (digest, at') := by simp
  rw [Bool.or_eq_true, Bool.or_eq_true, hpins, hseen, decide_eq_true_iff, decide_eq_true_iff]
  constructor
  · rintro ((hpin | hkeep) | hnew) ⟨hunpinned, hpast, d, a, hold, hlt⟩
    · exact hpin hunpinned
    · omega
    · rw [hentry] at hold
      cases hold
      exact absurd hlt (not_lt_of_ge hnew)
  · intro hno
    by_contra hall
    push Not at hall
    obtain ⟨⟨hpin, hkeep⟩, hnew⟩ := hall
    exact hno ⟨hpin, hkeep, digest, at', hentry, Int64.not_le.1 hnew⟩

/-- The loop finds the first entry from there on that no clause keeps, and cuts just above it. -/
theorem chooseLoop_cases (hkeep : 0 < keep) : ∀ {path pre : List (EnvelopeDigest × StoredAt)} {newer : EnvelopeDigest}
    {unseen : ExtTreeSet EnvelopeDigest}, (∀ x, x ∈ unseen ↔ x ∈ pinned ∧ ∀ a, (x, a) ∉ pre) →
      (∀ entry, pre.getLast? = some entry → entry.1 = newer) →
      (chooseLoop keep cutoff pre.length newer unseen path = none ∧
        ∀ i, pre.length ≤ i → ¬ Stale keep cutoff pinned (pre ++ path) i) ∨
      ∃ i cut a, chooseLoop keep cutoff pre.length newer unseen path = some (cut, (pre ++ path).length - i) ∧
        pre.length ≤ i ∧ Stale keep cutoff pinned (pre ++ path) i ∧
        (∀ j, pre.length ≤ j → j < i → ¬ Stale keep cutoff pinned (pre ++ path) j) ∧ (pre ++ path)[i - 1]? = some (cut, a)
  | [], pre, newer, unseen, _, _ => by
    refine .inl ⟨rfl, fun i hi hstale => ?_⟩
    obtain ⟨d, a, hget, -⟩ := hstale.old
    rw [List.append_nil, List.getElem?_eq_none hi] at hget
    cases hget
  | (digest, at') :: path, pre, newer, unseen, hunseen, hnewer => by
    have hiff := @keeps_iff keep cutoff pinned unseen path pre digest at' hunseen
    rw [chooseLoop]
    by_cases hkept : Stale keep cutoff pinned (pre ++ (digest, at') :: path) pre.length
    · rw [if_neg (fun h => hiff.1 h hkept)]
      have hpos : 0 < pre.length := hkeep.trans_le hkept.past
      obtain ⟨entry, hlast⟩ : ∃ entry, pre.getLast? = some entry :=
        ⟨_, List.getLast?_eq_some_getLast (List.length_pos_iff.1 hpos)⟩
      refine .inr ⟨pre.length, newer, entry.2, by simp, le_rfl, hkept, fun j h1 h2 => by omega, ?_⟩
      rw [List.getElem?_append_left (by omega), ← List.getLast?_eq_getElem?, hlast, ← hnewer entry hlast]
    · rw [if_pos (hiff.2 hkept)]
      have hsplit : pre ++ (digest, at') :: path = (pre ++ [(digest, at')]) ++ path := by simp
      have hlength : (pre ++ [(digest, at')]).length = pre.length + 1 := by simp
      have ih := @chooseLoop_cases hkeep path (pre ++ [(digest, at')]) digest (unseen.erase digest) ?_ ?_
      · rw [hlength, ← hsplit] at ih
        have hstep : ∀ j, pre.length ≤ j → ¬ j = pre.length → pre.length + 1 ≤ j := by omega
        rcases ih with ⟨hnone, hall⟩ | ⟨i, cut, a, hsome, hi, hstale, hall, hget⟩
        · refine .inl ⟨hnone, fun i hi => ?_⟩
          by_cases heq : i = pre.length
          · rw [heq]; exact hkept
          · exact hall i (hstep i hi heq)
        · refine .inr ⟨i, cut, a, hsome, by omega, hstale, fun j hj hji => ?_, hget⟩
          by_cases heq : j = pre.length
          · rw [heq]; exact hkept
          · exact hall j (hstep j hj heq) hji
      · intro x
        rw [ExtTreeSet.mem_erase, hunseen x]
        constructor
        · rintro ⟨hne, hpin, hpre⟩
          refine ⟨hpin, fun a hmem => ?_⟩
          rcases List.mem_append.1 hmem with hmem | hmem
          · exact hpre a hmem
          · cases List.mem_singleton.1 hmem
            exact hne (Std.compare_eq_iff_eq.2 rfl)
        · rintro ⟨hpin, hpre⟩
          refine ⟨fun heq => ?_, hpin, fun a hmem => hpre a (List.mem_append_left _ hmem)⟩
          rw [Std.compare_eq_iff_eq.1 heq] at hpre
          exact hpre at' (List.mem_append_right _ (List.mem_singleton_self _))
      · intro entry hlast
        rw [List.getLast?_concat] at hlast
        cases hlast; rfl

/-- The cut is the entry above the first one that no clause keeps, and everything from there on is
eligible. -/
theorem chooseCut_eq_some_iff {keep : ℕ+} {cutoff : Option StoredAt} {eligible : Nat} :
    chooseCut path keep cutoff pinned = some (cut, eligible) ↔
      ∃ c i a, cutoff = some c ∧ FirstStale keep c pinned path i ∧ eligible = path.length - i ∧
        path[i - 1]? = some (cut, a) := by
  cases cutoff with
  | none =>
    constructor
    · nofun
    · rintro ⟨c, i, a, hc, -⟩; cases hc
  | some c =>
    cases path with
    | nil =>
      constructor
      · nofun
      · rintro ⟨c, i, a, -, -, -, hget⟩; cases hget
    | cons entry path =>
      have hchoose : chooseCut (entry :: path) keep (some c) pinned = chooseLoop keep c 0 entry.1 pinned (entry :: path) := rfl
      rw [hchoose]
      have hcases := @chooseLoop_cases keep c pinned keep.pos (entry :: path) [] entry.1 pinned (by simp) nofun
      simp only [List.length_nil, List.nil_append] at hcases
      rcases hcases with ⟨hnone, hall⟩ | ⟨i, cut', a', hsome, -, hstale, hfirst, hget⟩
      · rw [hnone]
        refine ⟨nofun, ?_⟩
        rintro ⟨c', i, a, hc, hstale, -⟩
        cases hc
        exact absurd hstale.stale (hall i (Nat.zero_le i))
      · rw [hsome]
        constructor
        · intro h
          cases h
          exact ⟨c, i, a', rfl, ⟨hstale, fun j => hfirst j (Nat.zero_le j)⟩, rfl, hget⟩
        · rintro ⟨c', i', a, hc, hstale', rfl, hget'⟩
          cases hc
          obtain rfl : i' = i := by
            rcases Nat.lt_trichotomy i' i with hlt | heq | hlt
            · exact absurd hstale'.stale (hfirst i' (Nat.zero_le i') hlt)
            · exact heq
            · exact absurd hstale (hstale'.first i hlt)
          rw [hget] at hget'
          cases hget'
          rfl

end Choosing

/-! ## What the policy keeps -/

/-- Some clause of the policy keeps the entry `i` of the path: it is among the newest, it was stored at or
after the cutoff, it is pinned, or it is newer than a pinned digest. -/
def KeptBy (keep : Nat) (cutoff : StoredAt) (pinned : ExtTreeSet EnvelopeDigest) (path : List (EnvelopeDigest × StoredAt))
    (i : Nat) : Prop :=
  i < keep ∨ (∃ d at', path[i]? = some (d, at') ∧ cutoff ≤ at') ∨ ∃ j d at', i ≤ j ∧ path[j]? = some (d, at') ∧ d ∈ pinned

/-- The cut keeps all the policy does and no more: `eligible` entries lie past it, of which no clause keeps
any, and some clause keeps everything above them. -/
structure CutsExactly (keep : Nat) (cutoff : StoredAt) (pinned : ExtTreeSet EnvelopeDigest)
    (path : List (EnvelopeDigest × StoredAt)) (cut : EnvelopeDigest) (eligible : Nat) : Prop where
  onPath : ∃ i at', path[i]? = some (cut, at') ∧ i + 1 + eligible = path.length
  nonempty : 0 < eligible
  past : ∀ i, path.length - eligible ≤ i → i < path.length → ¬ KeptBy keep cutoff pinned path i
  first : ∀ i, i < path.length - eligible → KeptBy keep cutoff pinned path i

section Kept

variable {keep : Nat} {cutoff : StoredAt} {pinned : ExtTreeSet EnvelopeDigest} {path : List (EnvelopeDigest × StoredAt)}
  {i j : Nat}

theorem index_of_digest (distinct : (path.map Prod.fst).Nodup) {d : EnvelopeDigest} {a b : StoredAt}
    (hi : path[i]? = some (d, a)) (hj : path[j]? = some (d, b)) : i = j := by
  have hi' : (path.map Prod.fst)[i]? = some d := by rw [List.getElem?_map, hi]; rfl
  have hj' : (path.map Prod.fst)[j]? = some d := by rw [List.getElem?_map, hj]; rfl
  have hlt : i < (path.map Prod.fst).length := (List.getElem?_eq_some_iff.1 hi').1
  exact (List.getElem?_inj hlt distinct).1 (hi'.trans hj'.symm)

theorem Stale.pins_onPath (h : Stale keep cutoff pinned path i) : ∀ d ∈ pinned, d ∈ path.map Prod.fst := by
  intro d hd
  obtain ⟨j, a, -, hj⟩ := h.unpinned d hd
  exact List.mem_map.2 ⟨_, List.mem_of_getElem? hj, rfl⟩

/-- There is no cut exactly when no entry is stale. -/
theorem chooseCut_eq_none_iff {keep : ℕ+} : chooseCut path keep (some cutoff) pinned = none ↔
    ∀ i, ¬ Stale keep cutoff pinned path i := by
  constructor
  · intro hnone i hi
    classical
    have hex : ∃ i, Stale keep cutoff pinned path i := ⟨i, hi⟩
    have hstale := Nat.find_spec hex
    have hpos : 0 < Nat.find hex := keep.pos.trans_le hstale.past
    obtain ⟨d, a, hget, -⟩ := hstale.old
    have hlt := (List.getElem?_eq_some_iff.1 hget).1
    have hbefore : path[Nat.find hex - 1]? = some (path[Nat.find hex - 1].1, path[Nat.find hex - 1].2) :=
      List.getElem?_eq_getElem (by omega)
    have hsome := chooseCut_eq_some_iff.2 ⟨cutoff, _, _, rfl, ⟨hstale, fun j hj => Nat.find_min hex hj⟩, rfl, hbefore⟩
    rw [hnone] at hsome
    cases hsome
  · intro hno
    cases hchosen : chooseCut path keep (some cutoff) pinned with
    | none => rfl
    | some chosen =>
      obtain ⟨c, i, a, hc, hstale, -⟩ := chooseCut_eq_some_iff.1 hchosen
      cases hc
      exact absurd hstale.stale (hno i)

/-- Where every pin is on the path, what the loop stops at is what no clause keeps. -/
theorem stale_iff (distinct : (path.map Prod.fst).Nodup) (hpins : ∀ d ∈ pinned, d ∈ path.map Prod.fst) :
    Stale keep cutoff pinned path i ↔ i < path.length ∧ ¬ KeptBy keep cutoff pinned path i := by
  constructor
  · rintro ⟨hunpinned, hpast, d, a, hget, hold⟩
    refine ⟨(List.getElem?_eq_some_iff.1 hget).1, ?_⟩
    rintro (hkeep | ⟨d', a', hget', hnew⟩ | ⟨j, d', b, hj, hget', hpin⟩)
    · omega
    · rw [hget] at hget'
      cases hget'
      exact absurd hold (Int64.not_lt.2 hnew)
    · obtain ⟨k, b', hk, hget''⟩ := hunpinned d' hpin
      have := index_of_digest distinct hget' hget''
      omega
  · rintro ⟨hlt, hkept⟩
    unfold KeptBy at hkept
    push Not at hkept
    obtain ⟨hkeep, hold, hpin⟩ := hkept
    have hget : path[i]? = some (path[i].1, path[i].2) := List.getElem?_eq_getElem hlt
    refine ⟨fun d hd => ?_, hkeep, _, _, hget, Int64.not_le.1 (hold _ _ hget)⟩
    obtain ⟨⟨d', a⟩, hmem, rfl⟩ := List.mem_map.1 (hpins d hd)
    obtain ⟨j, hj⟩ := List.getElem?_of_mem hmem
    refine ⟨j, a, ?_, hj⟩
    by_contra hge
    exact hpin j _ a (Nat.le_of_not_lt hge) hj hd

/-- Past an entry no clause keeps, none keeps any. -/
theorem not_keptBy_mono (falling : path.Pairwise fun x y => y.2 ≤ x.2) (hij : i ≤ j) (hj : j < path.length)
    (h : ¬ KeptBy keep cutoff pinned path i) : ¬ KeptBy keep cutoff pinned path j := by
  rintro (hkeep | ⟨d, a, hget, hnew⟩ | ⟨k, d, a, hk, hget, hpin⟩)
  · exact h (.inl (by omega))
  · have hi : i < path.length := by omega
    have hle : path[j].2 ≤ path[i].2 := by
      rcases hij.lt_or_eq with hlt | rfl
      · exact List.pairwise_iff_getElem.1 falling i j hi hj hlt
      · exact Int64.le_refl _
    have hj' : path[j] = (d, a) := Option.some.inj ((List.getElem?_eq_getElem hj).symm.trans hget)
    rw [hj'] at hle
    exact h (.inr (.inl ⟨_, _, List.getElem?_eq_getElem hi, Int64.le_trans hnew hle⟩))
  · exact h (.inr (.inr ⟨k, d, a, by omega, hget, hpin⟩))

end Kept

/-- The cut keeps everything the policy promises and no more. -/
theorem chooseCut_exact {path : List (EnvelopeDigest × StoredAt)} (distinct : (path.map Prod.fst).Nodup)
    (falling : path.Pairwise fun x y => y.2 ≤ x.2) (keep : ℕ+) (cutoff : Option StoredAt) (pinned : ExtTreeSet EnvelopeDigest) :
    (∀ cut eligible, chooseCut path keep cutoff pinned = some (cut, eligible) →
      ∃ c, cutoff = some c ∧ CutsExactly keep c pinned path cut eligible) ∧
    (chooseCut path keep cutoff pinned = none ↔ cutoff = none ∨ (∃ d ∈ pinned, d ∉ path.map Prod.fst) ∨
      ∃ c, cutoff = some c ∧ ∀ i < path.length, KeptBy keep c pinned path i) := by
  constructor
  · intro cut eligible h
    obtain ⟨c, i, a, rfl, hstale, rfl, hget⟩ := chooseCut_eq_some_iff.1 h
    have hiff := fun j => @stale_iff keep c pinned path j distinct hstale.stale.pins_onPath
    obtain ⟨hlt, hkept⟩ := (hiff i).1 hstale.stale
    have hpos : 0 < i := keep.pos.trans_le hstale.stale.past
    refine ⟨c, rfl, ⟨i - 1, a, hget, by omega⟩, by omega, fun j hj hjlt => ?_, fun j hj => ?_⟩
    · exact not_keptBy_mono falling (by omega) hjlt hkept
    · by_contra hnot
      exact hstale.first j (by omega) ((hiff j).2 ⟨by omega, hnot⟩)
  · cases cutoff with
    | none => exact ⟨fun _ => .inl rfl, fun _ => rfl⟩
    | some c =>
      rw [chooseCut_eq_none_iff]
      constructor
      · intro hno
        by_cases hpins : ∀ d ∈ pinned, d ∈ path.map Prod.fst
        · refine .inr (.inr ⟨c, rfl, fun i hi => ?_⟩)
          by_contra hkept
          exact hno i ((stale_iff distinct hpins).2 ⟨hi, hkept⟩)
        · push Not at hpins
          exact .inr (.inl hpins)
      · rintro (hcutoff | ⟨d, hd, hoff⟩ | ⟨c', hc, hall⟩) i hstale
        · cases hcutoff
        · exact hoff (hstale.pins_onPath d hd)
        · cases hc
          obtain ⟨hlt, hkept⟩ := (stale_iff distinct hstale.pins_onPath).1 hstale
          exact hkept (hall i hlt)

/-- Four envelopes, newest first. -/
def fourDeep : List (EnvelopeDigest × StoredAt) := [(⟨3⟩, 4), (⟨2⟩, 2), (⟨1⟩, 1), (⟨0⟩, 1)]

theorem chooseCut_exact_fourDeep : CutsExactly 1 3 ((∅ : ExtTreeSet EnvelopeDigest).insert ⟨2⟩) fourDeep ⟨2⟩ 2 ∧
    chooseCut fourDeep 1 (some 3) ((∅ : ExtTreeSet EnvelopeDigest).insert ⟨7⟩) = none := by
  have hdistinct : (fourDeep.map Prod.fst).Nodup := by decide
  have hfalling : fourDeep.Pairwise fun x y => y.2 ≤ x.2 := by decide
  obtain ⟨hsome, -⟩ := chooseCut_exact hdistinct hfalling 1 (some 3) ((∅ : ExtTreeSet EnvelopeDigest).insert ⟨2⟩)
  obtain ⟨-, hnone⟩ := chooseCut_exact hdistinct hfalling 1 (some 3) ((∅ : ExtTreeSet EnvelopeDigest).insert ⟨7⟩)
  have hcut : chooseCut fourDeep 1 (some 3) ((∅ : ExtTreeSet EnvelopeDigest).insert ⟨2⟩) = some (⟨2⟩, 2) := by decide +kernel
  obtain ⟨c, hc, hexact⟩ := hsome _ _ hcut
  cases hc
  refine ⟨hexact, hnone.2 (.inr (.inl ⟨⟨7⟩, ?_, by decide⟩))⟩
  simp

/-! ## Positions on the held path -/

section Positions

variable {s : MemStorage} {fuel i j : Nat} {d x y : EnvelopeDigest} {a b : StoredAt} {path : List (EnvelopeDigest × StoredAt)}

/-- An entry further down is a strict ancestor. -/
theorem heldPath_lt (h : heldPath s fuel (some d) = .ok path) (hij : i < j) (hx : path[i]? = some (x, a))
    (hy : path[j]? = some (y, b)) : Relation.TransGen (Child s.parent) y x := by
  have hchain : (path.map Prod.fst).IsChain fun c p => Relation.TransGen (Child s.parent) p c :=
    (heldPath_isChain h).imp fun _ _ hp => .single hp
  have htrans : IsTrans EnvelopeDigest fun c p => Relation.TransGen (Child s.parent) p c :=
    ⟨fun _ _ _ hab hbc => hbc.trans hab⟩
  have hpairs := List.pairwise_map.1 (List.isChain_iff_pairwise.1 hchain)
  obtain ⟨hi, hx⟩ := List.getElem?_eq_some_iff.1 hx
  obtain ⟨hj, hy⟩ := List.getElem?_eq_some_iff.1 hy
  have hlt := List.pairwise_iff_getElem.1 hpairs i j hi hj hij
  rw [hx, hy] at hlt
  exact hlt

theorem heldPath_le (h : heldPath s fuel (some d) = .ok path) (hij : i ≤ j) (hx : path[i]? = some (x, a))
    (hy : path[j]? = some (y, b)) : Desc s.parent y x := by
  rcases hij.lt_or_eq with hlt | rfl
  · exact (heldPath_lt h hlt hx hy).to_reflTransGen
  · rw [hx] at hy
    cases hy
    exact Desc.refl

/-- The path starts where the walk does. -/
theorem heldPath_head (h : heldPath s fuel (some d) = .ok path) (hd : s.Stored d) : ∃ a, path[0]? = some (d, a) := by
  obtain ⟨e, he⟩ := hd
  obtain ⟨entry, hentry, rfl⟩ := Option.map_eq_some_iff.1 he
  cases fuel with
  | zero => cases h
  | succ fuel =>
    simp only [heldPath, hentry] at h
    obtain ⟨rest, -, h⟩ := Res.bind_eq_ok h
    cases h
    exact ⟨entry.storedAt, rfl⟩

/-- The path has every ancestor down to one the log holds. -/
theorem heldPath_mem (hx : s.Stored x) : ∀ {fuel : Nat} {d : EnvelopeDigest} {path : List (EnvelopeDigest × StoredAt)},
    heldPath s fuel (some d) = .ok path → Desc s.parent x d →
      ∃ (j : Nat) (a : StoredAt), path[j]? = some (x, a)
  | 0, _, _, h, _ => by cases h
  | fuel + 1, d, path, h, hdesc => by
    by_cases hne : d = x
    · subst hne
      obtain ⟨a, hget⟩ := heldPath_head h hx
      exact ⟨0, a, hget⟩
    · obtain ⟨p, hp, hxp⟩ := hdesc.exists_parent hne
      obtain ⟨e, he⟩ := s.stored_of_desc hx hdesc
      obtain ⟨entry, hentry, rfl⟩ := Option.map_eq_some_iff.1 he
      have hprev : entry.envelope.prev = some p := by rw [← s.parent_of_envelope he]; exact hp
      simp only [heldPath, hentry, hprev] at h
      obtain ⟨rest, hrest, h⟩ := Res.bind_eq_ok h
      cases h
      obtain ⟨j, a, hget⟩ := heldPath_mem hx hrest hxp
      exact ⟨j + 1, a, hget⟩

end Positions

/-! ## Passes -/

namespace Core

variable [Externals]

/-- The cut a pass records before it prunes, where it prunes at all. -/
def passCut (core : Core) (r : Retention) : Option EnvelopeDigest :=
  match heldPath core.storage (core.storage.envelopes.size + 2) (some core.head) with
  | .error _ => none
  | .ok path =>
    match chooseCut path r.keep r.cutoff r.pinned with
    | none => none
    | some (cut, eligible) => if eligible < r.minPrune then none else some cut

/-- What a pass leaves of the core. -/
def pass (core : Core) (r : Retention) : Core := (core.compactBefore r.cutoff r.keep r.minPrune r.pinned).2

/-- What a pass stopped after `n` operations on the store leaves to reopen: the store, and the oldest
envelope, recorded before the first of them. -/
def interrupted (core : Core) (r : Retention) (n : Nat) : MemStorage × EnvelopeDigest :=
  match core.passCut r with
  | none => (core.storage, core.oldest)
  | some cut => (core.chain.compactStopped cut n core.storage, cut)

/-- The policy reaches no lower than what is recorded: the first entry of the path no clause keeps, if
enough would go from there on to prune at all, is not below the one under the recorded oldest. -/
def Forward (core : Core) (r : Retention) : Prop :=
  ∀ path cutoff i, heldPath core.storage (core.storage.envelopes.size + 2) (some core.head) = .ok path →
    r.cutoff = some cutoff → FirstStale r.keep cutoff r.pinned path i → r.minPrune ≤ path.length - i →
      ∃ j at', path[j]? = some (core.oldest, at') ∧ i ≤ j + 1

variable {core : Core} {r : Retention} {cut : EnvelopeDigest}

omit [Externals] in
theorem passCut_eq_some_iff : core.passCut r = some cut ↔
    ∃ path c i a, heldPath core.storage (core.storage.envelopes.size + 2) (some core.head) = .ok path ∧
      r.cutoff = some c ∧ FirstStale r.keep c r.pinned path i ∧ r.minPrune ≤ path.length - i ∧
      path[i - 1]? = some (cut, a) := by
  unfold passCut
  cases hpath : heldPath core.storage (core.storage.envelopes.size + 2) (some core.head) with
  | error halt =>
    refine ⟨nofun, ?_⟩
    rintro ⟨path, c, i, a, h, -⟩; cases h
  | ok path =>
    dsimp only
    constructor
    · intro h
      cases hcut : chooseCut path r.keep r.cutoff r.pinned with
      | none => rw [hcut] at h; cases h
      | some found =>
        obtain ⟨cut', eligible⟩ := found
        rw [hcut] at h
        obtain ⟨c, i, a, hc, hfirst, rfl, hget⟩ := chooseCut_eq_some_iff.1 hcut
        dsimp only at h
        split at h
        · cases h
        · rename_i hmin
          cases h
          exact ⟨path, c, i, a, rfl, hc, hfirst, Nat.le_of_not_lt hmin, hget⟩
    · rintro ⟨path', c, i, a, h, hc, hfirst, hmin, hget⟩
      cases h
      have hcut : chooseCut path r.keep r.cutoff r.pinned = some (cut, path.length - i) :=
        chooseCut_eq_some_iff.2 ⟨c, i, a, hc, hfirst, rfl, hget⟩
      rw [hcut]
      exact if_neg (Nat.not_lt_of_le hmin)

omit [Externals] in
/-- A pass compacts at its cut, or changes nothing. -/
theorem pass_eq : core.pass r = match core.passCut r with
    | none => core
    | some cut => ⟨(core.chain.compact cut core.storage).2.1, (core.chain.compact cut core.storage).2.2, cut⟩ := by
  unfold pass compactBefore passCut
  cases heldPath core.storage (core.storage.envelopes.size + 2) (some core.head) with
  | error halt => rfl
  | ok path =>
    dsimp only
    cases chooseCut path r.keep r.cutoff r.pinned with
    | none => rfl
    | some found =>
      obtain ⟨cut, eligible⟩ := found
      dsimp only
      split
      · rfl
      · rcases hrun : core.chain.compact cut core.storage with ⟨halt | pruned, chain, storage⟩
        · simp only [hrun]
        · simp only [hrun]

omit [Externals] in
theorem oldest_pass : (core.pass r).oldest = (core.passCut r).getD core.oldest := by
  rw [pass_eq]
  cases core.passCut r <;> rfl

omit [Externals] in
/-- Stopped anywhere, a pass has recorded what it would have. -/
theorem oldest_interrupted (n : Nat) : (core.interrupted r n).2 = (core.pass r).oldest := by
  rw [oldest_pass, interrupted]
  cases core.passCut r <;> rfl

section Standing

variable {W : World} (h : Stands W core.chain core.storage) (hroot : core.oldest = core.chain.root)

include h in
/-- The cut of a pass is on the path of the head. -/
theorem desc_passCut (hcut : core.passCut r = some cut) : Desc core.storage.parent cut core.head := by
  obtain ⟨path, c, i, a, hpath, -, -, -, hget⟩ := passCut_eq_some_iff.1 hcut
  have hstored := core.storage.stored_of_desc h.planted.root_stored h.tip.canonical.desc
  obtain ⟨b, hhead⟩ := heldPath_head hpath hstored
  exact heldPath_le hpath (Nat.zero_le _) hhead hget

include h hroot

/-- A pass moves the recorded oldest forward, or leaves it, exactly where the policy reaches no lower. -/
theorem forward_iff : core.Forward r ↔ Desc core.storage.parent core.oldest (core.pass r).oldest := by
  rw [oldest_pass]
  constructor
  · intro hforward
    cases hcut : core.passCut r with
    | none => exact Desc.refl
    | some cut =>
      obtain ⟨path, c, i, a, hpath, hc, hfirst, hmin, hget⟩ := passCut_eq_some_iff.1 hcut
      obtain ⟨j, b, holdest, hij⟩ := hforward path c i hpath hc hfirst hmin
      exact heldPath_le hpath (by omega) hget holdest
  · intro hdesc path c i hpath hc hfirst hmin
    have hpos : 0 < i := r.keep.pos.trans_le hfirst.stale.past
    obtain ⟨d, b, hentry, -⟩ := hfirst.stale.old
    obtain ⟨hi, -⟩ := List.getElem?_eq_some_iff.1 hentry
    have hlt : i - 1 < path.length := by omega
    have hget : path[i - 1]? = some (path[i - 1].1, path[i - 1].2) := List.getElem?_eq_getElem hlt
    have hcut : core.passCut r = some path[i - 1].1 :=
      passCut_eq_some_iff.2 ⟨path, c, i, _, hpath, hc, hfirst, hmin, hget⟩
    rw [hcut] at hdesc
    have hstored : core.storage.Stored core.oldest := hroot ▸ h.planted.root_stored
    have hhead : Desc core.storage.parent core.oldest core.head := hroot ▸ h.tip.canonical.desc
    obtain ⟨j, a, holdest⟩ := heldPath_mem hstored hpath hhead
    refine ⟨j, a, holdest, ?_⟩
    by_contra hlow
    -- the cut would be a strict ancestor of what descends from it
    have hback := heldPath_lt hpath (by omega : j < i - 1) holdest hget
    exact h.planted.acyclic.transGen.irrefl.irrefl _ (Relation.TransGen.trans_left hback hdesc)

/-- A pass that does leaves a chain on what it recorded, done or stopped anywhere. -/
theorem stands_pass (hforward : core.Forward r) :
    (Stands W (core.pass r).chain (core.pass r).storage ∧ (core.pass r).oldest = (core.pass r).chain.root) ∧
      ∀ n, ∃ chain, Stands W chain (core.interrupted r n).1 ∧ (core.interrupted r n).2 = chain.root := by
  have hdesc := (forward_iff h hroot).1 hforward
  rw [oldest_pass] at hdesc
  rw [pass_eq]
  unfold interrupted
  cases hcut : core.passCut r with
  | none => exact ⟨⟨h, hroot⟩, fun n => ⟨core.chain, h, hroot⟩⟩
  | some cut =>
    rw [hcut, hroot] at hdesc
    have hcanonical : Canonical core.storage.parent core.storage.rank core.chain.root cut :=
      (h.tip.canonical_iff core.storage.rank_injective h.planted.acyclic).2 ⟨hdesc, desc_passCut h hcut⟩
    obtain ⟨⟨n, t, hrun, hstands⟩, hstopped⟩ := h.compact hcanonical
    dsimp only
    rw [hrun]
    exact ⟨⟨hstands, rfl⟩, fun n => ⟨_, hstopped n, rfl⟩⟩

end Standing

end Core

/-! ## Runs -/

/-- A daemon: up, over a core, or down with the storage and the oldest envelope its state directory
records. -/
inductive Daemon where
  | up (core : Core)
  | down (storage : MemStorage) (oldest : EnvelopeDigest)

namespace Daemon

def storage : Daemon → MemStorage
  | up core => core.storage
  | down storage _ => storage

def oldest : Daemon → EnvelopeDigest
  | up core => core.oldest
  | down _ oldest => oldest

variable [Externals]

/-- The states of a daemon started on an empty store, with every envelope that goes in among
`contents`, whose passes all meet `allowed`. It may go down at any time, at any operation of a pass
on its store included, and comes back up at the recorded oldest. -/
inductive Reached (contents : Set SignedPortion) (allowed : Core → Retention → Prop) : Daemon → Prop
  | init {clock : StoredAt} {e : Envelope} {chain : Chain} {s : MemStorage} (content : e.toSignedPortion ∈ contents)
    (run : Chain.init e (MemStorage.empty clock) = (.ok chain, s)) : Reached contents allowed (up ⟨chain, s, chain.root⟩)
  | adopt {clock : StoredAt} {e : Envelope} {state : FullCheckpoint} {chain : Chain} {s : MemStorage}
    (content : e.toSignedPortion ∈ contents) (run : Chain.adopt e state (MemStorage.empty clock) = (.ok chain, s)) :
    Reached contents allowed (up ⟨chain, s, chain.root⟩)
  | insert {core : Core} {chain : Chain} {s : MemStorage} {es : List Envelope} {r : Res Error Insert}
    (h : Reached contents allowed (up core)) (content : ∀ e ∈ es, e.toSignedPortion ∈ contents)
    (run : core.chain.insertBatch es core.storage = (r, chain, s)) :
    Reached contents allowed (up ⟨chain, s, core.oldest⟩)
  | tick {core : Core} (h : Reached contents allowed (up core)) (clock : StoredAt) :
    Reached contents allowed (up { core with storage := { core.storage with clock } })
  | pass {core : Core} (h : Reached contents allowed (up core)) (r : Retention) (meets : allowed core r) :
    Reached contents allowed (up (core.pass r))
  | crash {core : Core} (h : Reached contents allowed (up core)) :
    Reached contents allowed (down core.storage core.oldest)
  | interrupted {core : Core} (h : Reached contents allowed (up core)) (r : Retention) (meets : allowed core r) (n : Nat) :
    Reached contents allowed (down (core.interrupted r n).1 (core.interrupted r n).2)
  | restart {s s' : MemStorage} {oldest : EnvelopeDigest} {chain : Chain} (h : Reached contents allowed (down s oldest))
    (run : Chain.open oldest s = (.ok chain, s')) : Reached contents allowed (up ⟨chain, s', oldest⟩)

/-- What is recorded is a root to stand on: it is stored, its version is held, and reopening there
finds a head down the canonical path from it, the chain itself where the daemon is up. -/
structure Recorded (daemon : Daemon) : Prop where
  stored : daemon.storage.Stored daemon.oldest
  held : daemon.storage.Held daemon.oldest
  opens : ∃ chain, Chain.open daemon.oldest daemon.storage = (.ok chain, daemon.storage) ∧ chain.root = daemon.oldest ∧
    Tip daemon.storage.parent daemon.storage.rank daemon.oldest chain.head ∧ ∀ core, daemon = up core → core.chain = chain

/-- The invariant: a chain stands on what is recorded, the core's own where the daemon is up. -/
def Standing (W : World) (daemon : Daemon) : Prop :=
  ∃ chain, Stands W chain daemon.storage ∧ daemon.oldest = chain.root ∧ ∀ core, daemon = up core → core.chain = chain

variable {W : World} {core : Core} {daemon : Daemon}

theorem Standing.up (h : Stands W core.chain core.storage) (hroot : core.oldest = core.chain.root) :
    Standing W (up core) := by
  refine ⟨core.chain, h, hroot, fun core' heq => ?_⟩
  cases heq; rfl

theorem Standing.stands (h : Standing W (Daemon.up core)) :
    Stands W core.chain core.storage ∧ core.oldest = core.chain.root := by
  obtain ⟨chain, hstands, hroot, hcore⟩ := h
  obtain rfl := hcore core rfl
  exact ⟨hstands, hroot⟩

theorem Standing.recorded (h : Standing W daemon) : Recorded daemon := by
  obtain ⟨chain, hstands, hroot, hcore⟩ := h
  refine ⟨hroot ▸ hstands.planted.root_stored, hroot ▸ hstands.pathHeld _ Canonical.refl, chain, ?_, hroot.symm, ?_, hcore⟩
  · rw [hroot]; exact hstands.open
  · rw [hroot]; exact hstands.tip

/-- A node starts on a store that holds its root alone. -/
theorem Standing.single {clock : StoredAt} {d : EnvelopeDigest} {e : Envelope} (hd : e.digest = .ok d)
    (content : e.toSignedPortion ∈ W.contents) (hgenesis : d = W.genesis) :
    Standing W (Daemon.up ⟨⟨d, ⟨d⟩⟩, ((MemStorage.empty clock).install d W.state).putEnvelope d e, d⟩) := by
  subst hgenesis
  exact .up ((Good.single hd content .genesis).stands rfl) rfl

theorem Reached.standing {contents : Set SignedPortion} (laws : DigestLaws contents) (h : Reached contents Core.Forward daemon) :
    ∃ W : World, W.contents = contents ∧ Standing W daemon := by
  induction h with
  | init content run =>
    obtain ⟨msg, status, d, hmsg, hcheck, hd, -, rfl, rfl⟩ := init_eq_ok run
    refine ⟨⟨contents, laws, d, msg.state.namespaces, validateCheckpoint_ruled hcheck, fun e' he' hd' msg' hmsg' => ?_⟩,
      rfl, .single hd content rfl⟩
    rw [laws.collisionFree _ he' _ content d hd' hd, hmsg] at hmsg'
    cases hmsg'
    exact ⟨hcheck, rfl⟩
  | @adopt clock e state chain s content run =>
    obtain ⟨d, hinit, hcheck, hd, rfl, rfl⟩ := adopt_eq_ok run
    refine ⟨⟨contents, laws, d, state.namespaces, validateCheckpoint_ruled hcheck, fun e' he' hd' msg' hmsg' => ?_⟩,
      rfl, .single hd content rfl⟩
    rw [laws.collisionFree _ he' _ content d hd' hd] at hmsg'
    exact absurd hmsg' (hinit msg')
  | insert h content run ih =>
    obtain ⟨W, rfl, hs⟩ := ih
    obtain ⟨hstands, hroot⟩ := hs.stands
    obtain ⟨hstands', hroot'⟩ := hstands.insertBatch content run
    exact ⟨W, rfl, .up hstands' (hroot.trans hroot'.symm)⟩
  | tick h clock ih =>
    obtain ⟨W, rfl, hs⟩ := ih
    obtain ⟨hstands, hroot⟩ := hs.stands
    exact ⟨W, rfl, .up (hstands.tick clock) hroot⟩
  | pass h r meets ih =>
    obtain ⟨W, rfl, hs⟩ := ih
    obtain ⟨hstands, hroot⟩ := hs.stands
    obtain ⟨⟨hstands', hroot'⟩, -⟩ := Core.stands_pass hstands hroot meets
    exact ⟨W, rfl, .up hstands' hroot'⟩
  | crash h ih =>
    obtain ⟨W, rfl, hs⟩ := ih
    obtain ⟨hstands, hroot⟩ := hs.stands
    exact ⟨W, rfl, _, hstands, hroot, nofun⟩
  | interrupted h r meets n ih =>
    obtain ⟨W, rfl, hs⟩ := ih
    obtain ⟨hstands, hroot⟩ := hs.stands
    obtain ⟨-, hstopped⟩ := Core.stands_pass hstands hroot meets
    obtain ⟨chain, hstands', hroot'⟩ := hstopped n
    exact ⟨W, rfl, chain, hstands', hroot', nofun⟩
  | @restart s s' oldest chain' h run ih =>
    obtain ⟨W, rfl, chain, hstands, hroot, -⟩ := ih
    obtain rfl : oldest = chain.root := hroot
    have hopen : Chain.open chain.root s = (.ok chain, s) := hstands.open
    rw [hopen] at run
    cases run
    exact ⟨W, rfl, .up hstands rfl⟩

/-- Over every run none of whose passes reaches below what is recorded, the recorded oldest names an
envelope to reopen at; the next pass, done or stopped anywhere, leaves it or moves it to a descendant
exactly where it reaches no lower either. -/
theorem Reached.oldest_forward {contents : Set SignedPortion} (laws : DigestLaws contents)
    (h : Reached contents Core.Forward daemon) : Recorded daemon ∧ ∀ core, daemon = Daemon.up core → ∀ r,
      (core.Forward r ↔ Desc core.storage.parent core.oldest (core.pass r).oldest) ∧
        ∀ n, (core.interrupted r n).2 = (core.pass r).oldest := by
  obtain ⟨W, -, hs⟩ := h.standing laws
  refine ⟨hs.recorded, fun core heq r => ?_⟩
  subst heq
  obtain ⟨hstands, hroot⟩ := hs.stands
  exact ⟨Core.forward_iff hstands hroot, Core.oldest_interrupted⟩

theorem Reached.mono {contents : Set SignedPortion} {allowed allowed' : Core → Retention → Prop}
    (hsub : ∀ core r, allowed core r → allowed' core r) (h : Reached contents allowed daemon) :
    Reached contents allowed' daemon := by
  induction h with
  | init content run => exact .init content run
  | adopt content run => exact .adopt content run
  | insert _ content run ih => exact .insert ih content run
  | tick _ clock ih => exact .tick ih clock
  | pass _ r meets ih => exact .pass ih r (hsub _ r meets)
  | crash _ ih => exact .crash ih
  | interrupted _ r meets n ih => exact .interrupted ih r (hsub _ r meets) n
  | restart _ run ih => exact .restart ih run

end Daemon

end IrohLotus.Lotusd

/-! ## The samples -/

namespace IrohLotus.Lotusd

open Std Outcome Forest IrohLotus.Wire IrohLotus.Wire.Sample IrohLotus.Storage IrohLotus.State

/-- The store of a chain of four. -/
def wholeStore : MemStorage := ((Chain.mk genesisDigest ⟨genesisDigest⟩).insertBatch [first, second, third] genesisStore).2.2

/-- A daemon on it, and the one that comes back up after a pass was stopped before it pruned any of it. -/
def wholeCore : Core := ⟨⟨genesisDigest, ⟨thirdDigest⟩⟩, wholeStore, genesisDigest⟩

def reopenedCore : Core := ⟨⟨thirdDigest, ⟨thirdDigest⟩⟩, wholeStore, thirdDigest⟩

/-- Keep the newest `keep` envelopes, and nothing for its age. -/
def newest (keep : ℕ+) : Retention := ⟨keep, some 1, 0, ∅⟩

theorem reached_wholeCore : Daemon.Reached Sample.contents Core.Forward (.up wholeCore) := by
  have hgenesis : genesis.toSignedPortion ∈ table.map Prod.fst := by decide +kernel
  have hmem : ∀ e ∈ [first, second, third], e.toSignedPortion ∈ table.map Prod.fst := by decide +kernel
  have hinit : Chain.init genesis (MemStorage.empty 0) = (.ok ⟨genesisDigest, ⟨genesisDigest⟩⟩, genesisStore) := by
    decide +kernel
  have hrun : (Chain.mk genesisDigest ⟨genesisDigest⟩).insertBatch [first, second, third] genesisStore =
      (.ok .extended, ⟨genesisDigest, ⟨thirdDigest⟩⟩, wholeStore) := by
    decide +kernel
  have hstart : Daemon.Reached Sample.contents Core.Forward
      (.up ⟨⟨genesisDigest, ⟨genesisDigest⟩⟩, genesisStore, genesisDigest⟩) := .init hgenesis hinit
  exact .insert hstart hmem hrun

theorem reached_reopenedCore : Daemon.Reached Sample.contents Core.Forward (.up reopenedCore) := by
  obtain ⟨W, -, hs⟩ := reached_wholeCore.standing sample_laws
  obtain ⟨hstands, hroot⟩ := hs.stands
  have hpass : (wholeCore.pass (newest 1)).oldest = thirdDigest := by decide +kernel
  have hforward : wholeCore.Forward (newest 1) := by
    refine (Core.forward_iff hstands hroot).2 ?_
    rw [hpass]
    exact hroot ▸ hstands.tip.canonical.desc
  have hdown : wholeCore.interrupted (newest 1) 0 = (wholeStore, thirdDigest) := by decide +kernel
  have hopen : Chain.open thirdDigest wholeStore = (.ok ⟨thirdDigest, ⟨thirdDigest⟩⟩, wholeStore) := by decide +kernel
  have hstopped := Daemon.Reached.interrupted reached_wholeCore (newest 1) hforward 0
  rw [hdown] at hstopped
  exact .restart hstopped hopen

theorem oldest_forward_reopenedCore : Daemon.Reached Sample.contents Core.Forward (.up reopenedCore) ∧
    (Daemon.up reopenedCore).Recorded ∧ reopenedCore.Forward (newest 1) := by
  obtain ⟨hrecorded, hpasses⟩ := Daemon.Reached.oldest_forward sample_laws reached_reopenedCore
  refine ⟨reached_reopenedCore, hrecorded, (hpasses reopenedCore rfl (newest 1)).1.2 ?_⟩
  have hpass : (reopenedCore.pass (newest 1)).oldest = thirdDigest := by decide +kernel
  rw [hpass]
  exact Desc.refl

/-- Keeping two envelopes once a pass that kept one was stopped moves the recorded oldest back to the
parent of what was recorded. -/
theorem not_oldest_forward : ¬ ∀ core : Core, Daemon.Reached Sample.contents (fun _ _ => True) (.up core) → ∀ r,
    Desc core.storage.parent core.oldest (core.pass r).oldest := by
  intro hall
  obtain ⟨W, -, hs⟩ := reached_reopenedCore.standing sample_laws
  have hpass : (reopenedCore.pass (newest 2)).oldest = secondDigest := by decide +kernel
  have hparent : reopenedCore.storage.parent thirdDigest = some secondDigest := by decide +kernel
  have hback := hall reopenedCore (reached_reopenedCore.mono fun _ _ _ => trivial) (newest 2)
  rw [hpass] at hback
  exact hs.stands.1.planted.acyclic.not_desc_parent hparent hback

end IrohLotus.Lotusd
