/-
Trees stored as shared nodes. A graph gives each node a row and, at each slot, at most one child; a
node unfolds to a tree when its row holds the top of the tree and its children unfold to the tree's
parts. Nodes may be shared by any number of trees, so what is here is how unfoldings behave when the
graph grows, when a node is still being filled, and when what no root reaches is dropped.
-/
import Mathlib

namespace Unfold

/-- Nodes `ι` with a row each, and at most one child at each slot. -/
@[ext] structure Graph (ι σ α : Type) where
  row : ι → Option α
  child : ι → σ → Option ι

/-- Trees with parts at slots, and which rows can stand for the top of a tree: a row and the parts
determine the tree, and no tree has parts forever. -/
class Shape (τ : Type) (σ α : outParam Type) where
  part : τ → σ → Option τ
  Holds : α → τ → Prop
  wf : WellFounded fun t u : τ => ∃ s, part u s = some t
  ext : ∀ {a t u}, Holds a t → Holds a u → (∀ s, part t s = part u s) → t = u

open Shape

variable {ι σ α τ : Type} [Shape τ σ α]

/-- `t` is a part of `u`. -/
def PartOf (t u : τ) : Prop := ∃ s, part u s = some t

/-- `p` has the child `c` at some slot. -/
def Edge (g : Graph ι σ α) (p c : ι) : Prop := ∃ s, g.child p s = some c

/-- The nodes reached from `id`, itself included. -/
def Reach (g : Graph ι σ α) : ι → ι → Prop := Relation.ReflTransGen (Edge g)

/-- The node `id` unfolds to `t`, through nodes of the region `R` only. -/
inductive Unfolds (g : Graph ι σ α) (R : ι → Prop) : ι → τ → Prop
  | mk {id : ι} {a : α} {t : τ} (region : R id) (row : g.row id = some a) (holds : Holds a t)
      (slots : ∀ s, (g.child id s).isSome = (part t s).isSome)
      (parts : ∀ s c u, g.child id s = some c → part t s = some u → Unfolds g R c u) : Unfolds g R id t

variable {g g' : Graph ι σ α} {R S : ι → Prop} {id n c : ι} {s : σ} {a : α} {t u : τ}

namespace Unfolds

theorem region (h : Unfolds g R id t) : R id := by
  cases h; assumption

theorem exists_row (h : Unfolds g R id t) : ∃ a, g.row id = some a ∧ Holds a t := by
  cases h with
  | mk _ row holds _ _ => exact ⟨_, row, holds⟩

theorem row_ne_none (h : Unfolds g R id t) : g.row id ≠ none := by
  obtain ⟨a, ha, -⟩ := h.exists_row
  rw [ha]; exact Option.some_ne_none a

theorem isSome_child (h : Unfolds g R id t) (s : σ) : (g.child id s).isSome = (part t s).isSome := by
  cases h with
  | mk _ _ _ slots _ => exact slots s

/-- A child unfolds to the part at its slot. -/
theorem child (h : Unfolds g R id t) (hc : g.child id s = some c) : ∃ u, part t s = some u ∧ Unfolds g R c u := by
  cases h with
  | mk _ _ _ slots parts =>
    have hs := slots s
    rw [hc, Option.isSome_some] at hs
    obtain ⟨u, hu⟩ := Option.isSome_iff_exists.1 hs.symm
    exact ⟨u, hu, parts s c u hc hu⟩

theorem child_none (h : Unfolds g R id t) (hc : g.child id s = none) : part t s = none := by
  have hs := h.isSome_child s
  rw [hc] at hs
  simpa using hs.symm

/-- A part is what the child at its slot unfolds to. -/
theorem part (h : Unfolds g R id t) (hu : part t s = some u) : ∃ c, g.child id s = some c ∧ Unfolds g R c u := by
  cases hc : g.child id s with
  | none => rw [h.child_none hc] at hu; cases hu
  | some c =>
    obtain ⟨u', hu', hc'⟩ := h.child hc
    rw [hu] at hu'; cases hu'
    exact ⟨c, rfl, hc'⟩

theorem part_none (h : Unfolds g R id t) (hu : Shape.part t s = none) : g.child id s = none := by
  have hs := h.isSome_child s
  rw [hu] at hs
  simpa using hs

theorem mono (h : Unfolds g R id t) (hRS : ∀ n, R n → S n) : Unfolds g S id t := by
  induction h with
  | mk region row holds slots _ ih => exact .mk (hRS _ region) row holds slots ih

/-- An unfolding only looks at the rows and children of its region. -/
theorem frame (h : Unfolds g R id t)
    (hsame : ∀ n, R n → g.row n ≠ none → g'.row n = g.row n ∧ g'.child n = g.child n) : Unfolds g' R id t := by
  induction h with
  | @mk id a t region row holds slots _ ih =>
    obtain ⟨hrow, hchild⟩ := hsame id region (by rw [row]; exact Option.some_ne_none a)
    refine .mk region (hrow.trans row) holds (fun s => by rw [hchild]; exact slots s) fun s c u hc hu => ?_
    rw [hchild] at hc
    exact ih s c u hc hu

/-- A node unfolds to one tree. -/
theorem unique (h : Unfolds g R id t) (h' : Unfolds g S id u) : t = u := by
  induction h generalizing u with
  | @mk id a t _ row holds slots _ ih =>
    obtain ⟨b, hb, hu⟩ := h'.exists_row
    rw [row] at hb; cases hb
    refine Shape.ext holds hu fun s => ?_
    cases hc : g.child id s with
    | none =>
      have hs := slots s
      rw [hc] at hs
      rw [h'.child_none hc]
      simpa using hs.symm
    | some c =>
      obtain ⟨v, hv, hcv⟩ := h'.child hc
      have hs := slots s
      rw [hc, Option.isSome_some] at hs
      obtain ⟨w, hw⟩ := Option.isSome_iff_exists.1 hs.symm
      rw [hw, hv, ih s c w hc hw hcv]

/-- An unfolding goes through nodes only. -/
theorem in_rows (h : Unfolds g R id t) : Unfolds g (fun n => g.row n ≠ none) id t := by
  induction h with
  | mk _ row holds slots _ ih => exact .mk (by rw [row]; exact Option.some_ne_none _) row holds slots ih

/-- An unfolding stays among the nodes its root reaches. -/
theorem of_reach (h : Unfolds g R id t) (hS : ∀ n, Reach g id n → S n) : Unfolds g S id t := by
  induction h with
  | mk _ row holds slots _ ih =>
    refine .mk (hS _ .refl) row holds slots fun s c u hc hu => ?_
    exact ih s c u hc hu fun n hn => hS n (.head ⟨s, hc⟩ hn)

/-- What a node properly reaches unfolds to a proper part of its tree. -/
theorem proper (h : Unfolds g R id t) (hn : Relation.TransGen (Edge g) id n) :
    ∃ u, Relation.TransGen PartOf u t ∧ Unfolds g R n u := by
  induction hn with
  | single hc =>
    obtain ⟨s, hc⟩ := hc
    obtain ⟨u, hu, hcu⟩ := h.child hc
    exact ⟨u, .single ⟨s, hu⟩, hcu⟩
  | tail _ hc ih =>
    obtain ⟨s, hc⟩ := hc
    obtain ⟨u, hut, hnu⟩ := ih
    obtain ⟨v, hv, hcv⟩ := hnu.child hc
    exact ⟨v, .head ⟨s, hv⟩ hut, hcv⟩

/-- No node that unfolds is on a cycle. -/
theorem acyclic (h : Unfolds g R id t) : ¬ Relation.TransGen (Edge g) id id := by
  intro hcycle
  obtain ⟨u, hut, hu⟩ := h.proper hcycle
  rw [← h.unique hu] at hut
  exact (WellFounded.transGen (Shape.wf (τ := τ))).irrefl.irrefl t hut

/-- A child unfolds without coming back to the node it is a child of. -/
theorem child_avoids (h : Unfolds g R id t) (hc : g.child id s = some c) :
    ∃ u, Shape.part t s = some u ∧ Unfolds g (fun n => R n ∧ n ≠ id) c u := by
  obtain ⟨u, hu, hcu⟩ := h.child hc
  have hR : Unfolds g (fun n => R n ∧ Reach g c n) c u := by
    refine hcu.of_reach fun n hn => ⟨?_, hn⟩
    obtain ⟨v, -, hv⟩ := h.proper (Relation.TransGen.trans_left (.single ⟨s, hc⟩) hn)
    exact hv.region
  refine ⟨u, hu, hR.mono fun n hn => ⟨hn.1, ?_⟩⟩
  rintro rfl
  exact h.acyclic (Relation.TransGen.trans_left (.single ⟨s, hc⟩) hn.2)

end Unfolds

/-! ## Graphs all of whose nodes unfold -/

/-- Every node of `g` is one of `g'`, with the same row and children. -/
def Extends (g g' : Graph ι σ α) : Prop :=
  ∀ id, g.row id ≠ none → g'.row id = g.row id ∧ g'.child id = g.child id

/-- Only nodes have children. -/
def Clean (g : Graph ι σ α) : Prop := ∀ id, g.row id = none → ∀ s, g.child id s = none

/-- Every node of the region unfolds inside it. -/
def Sound (τ : Type) [Shape τ σ α] (g : Graph ι σ α) (R : ι → Prop) : Prop :=
  ∀ id, R id → g.row id ≠ none → ∃ t : τ, Unfolds g R id t

/-- Every node unfolds, and nothing but a node has children. -/
structure Good (τ : Type) [Shape τ σ α] (g : Graph ι σ α) : Prop where
  clean : Clean g
  sound : ∀ id, g.row id ≠ none → ∃ t : τ, Unfolds g (fun _ => True) id t

theorem Extends.refl (g : Graph ι σ α) : Extends g g := fun _ _ => ⟨rfl, rfl⟩

theorem Extends.row_ne_none (h : Extends g g') (hid : g.row id ≠ none) : g'.row id ≠ none := by
  rw [(h id hid).1]; exact hid

theorem Extends.trans {g'' : Graph ι σ α} (h : Extends g g') (h' : Extends g' g'') : Extends g g'' := by
  intro id hid
  obtain ⟨hrow, hchild⟩ := h id hid
  obtain ⟨hrow', hchild'⟩ := h' id (h.row_ne_none hid)
  exact ⟨hrow'.trans hrow, hchild'.trans hchild⟩

theorem Extends.row_none (h : Extends g g') (hid : g'.row id = none) : g.row id = none := by
  by_contra hne
  exact h.row_ne_none hne hid

theorem Unfolds.extends (h : Unfolds g R id t) (hext : Extends g g') : Unfolds g' R id t :=
  h.frame fun n _ hn => hext n hn

/-- Every child of a node is a node. -/
theorem Good.child_row (h : Good τ g) (hc : g.child id s = some c) : g.row c ≠ none := by
  have hid : g.row id ≠ none := by
    intro hid
    rw [h.clean id hid s] at hc; cases hc
  obtain ⟨t, ht⟩ := h.sound id hid
  obtain ⟨u, -, hu⟩ := ht.child hc
  exact hu.row_ne_none

theorem Good.acyclic (h : Good τ g) (id : ι) : ¬ Relation.TransGen (Edge g) id id := by
  intro hcycle
  obtain ⟨n, ⟨s, hn⟩, -⟩ := Relation.TransGen.head'_iff.1 hcycle
  by_cases hid : g.row id = none
  · rw [h.clean id hid s] at hn; cases hn
  · obtain ⟨t, ht⟩ := h.sound id hid
    exact ht.acyclic hcycle

/-- A graph that grew by nodes that unfold stays good. -/
theorem Good.grow (h : Good τ g) (hext : Extends g g') (hclean : Clean g')
    (hnew : ∀ id, g.row id = none → g'.row id ≠ none → ∃ t : τ, Unfolds g' (fun _ => True) id t) : Good τ g' := by
  refine ⟨hclean, fun id hid => ?_⟩
  by_cases hold : g.row id = none
  · exact hnew id hold hid
  · obtain ⟨t, ht⟩ := h.sound id hold
    exact ⟨t, ht.extends hext⟩

/-! ## Adding a node -/

section Add

variable [DecidableEq ι]

/-- `g` with the row `a` and the children `kids` at `id`. -/
def Graph.add (g : Graph ι σ α) (id : ι) (a : α) (kids : σ → Option ι) : Graph ι σ α where
  row := Function.update g.row id (some a)
  child := Function.update g.child id kids

@[simp] theorem Graph.add_row_self (g : Graph ι σ α) (id : ι) (a : α) (kids : σ → Option ι) :
    (g.add id a kids).row id = some a := Function.update_self ..

@[simp] theorem Graph.add_child_self (g : Graph ι σ α) (id : ι) (a : α) (kids : σ → Option ι) :
    (g.add id a kids).child id = kids := Function.update_self ..

theorem Graph.add_row_of_ne (g : Graph ι σ α) (a : α) (kids : σ → Option ι) (h : n ≠ id) :
    (g.add id a kids).row n = g.row n := Function.update_of_ne h ..

theorem Graph.add_child_of_ne (g : Graph ι σ α) (a : α) (kids : σ → Option ι) (h : n ≠ id) :
    (g.add id a kids).child n = g.child n := Function.update_of_ne h ..

theorem Extends.add (hid : g.row id = none) (a : α) (kids : σ → Option ι) : Extends g (g.add id a kids) := by
  intro n hn
  have hne : n ≠ id := by rintro rfl; exact hn hid
  exact ⟨g.add_row_of_ne a kids hne, g.add_child_of_ne a kids hne⟩

theorem Clean.add (h : Clean g) (id : ι) (a : α) (kids : σ → Option ι) : Clean (g.add id a kids) := by
  intro n hn s
  by_cases hne : n = id
  · subst hne; simp at hn
  · rw [g.add_row_of_ne a kids hne] at hn
    rw [g.add_child_of_ne a kids hne]
    exact h n hn s

/-- A fresh node whose row holds the top of `t`, over children that unfold to its parts, unfolds to `t`. -/
theorem Unfolds.add {kids : σ → Option ι} (hid : g.row id = none) (hR : R id) (holds : Holds a t)
    (slots : ∀ s, (kids s).isSome = (Shape.part t s).isSome)
    (parts : ∀ s c u, kids s = some c → Shape.part t s = some u → Unfolds g R c u) :
    Unfolds (g.add id a kids) R id t := by
  refine .mk hR (by simp) holds (by simpa using slots) fun s c u hc hu => ?_
  rw [Graph.add_child_self] at hc
  exact (parts s c u hc hu).extends (.add hid a kids)

theorem Good.add (h : Good τ g) {kids : σ → Option ι} (hid : g.row id = none) (holds : Holds a t)
    (slots : ∀ s, (kids s).isSome = (Shape.part t s).isSome)
    (parts : ∀ s c u, kids s = some c → Shape.part t s = some u → Unfolds g (fun _ => True) c u) :
    Good τ (g.add id a kids) := by
  refine h.grow (.add hid a kids) (h.clean.add id a kids) fun n hn hn' => ?_
  by_cases hne : n = id
  · subst hne
    exact ⟨t, .add hid trivial holds slots parts⟩
  · rw [g.add_row_of_ne a kids hne] at hn'
    exact absurd hn hn'

end Add

/-! ## Filling a node -/

section Build

/-- The node `id`, new since `base`, is being filled: so far it unfolds to `t` through nodes that are
new too and do not come back to it, and each of these unfolds. -/
structure Building (base g : Graph ι σ α) (id : ι) (t : τ) : Prop where
  fresh : base.row id = none
  extends_ : Extends base g
  clean : Clean g
  unfolds : ∃ a, g.row id = some a ∧ Holds a t
  slots : ∀ s, (g.child id s).isSome = (Shape.part t s).isSome
  parts : ∀ s c u, g.child id s = some c → Shape.part t s = some u →
    Unfolds g (fun n => n ≠ id ∧ base.row n = none) c u
  sound : Sound τ g fun n => n ≠ id ∧ base.row n = none

/-- A node that is filled unfolds, as does every node that came with it. -/
theorem Building.done {base : Graph ι σ α} (h : Building base g id t) :
    Unfolds g (fun n => base.row n = none) id t ∧ Sound τ g fun n => base.row n = none := by
  have hid : Unfolds g (fun n => base.row n = none) id t := by
    obtain ⟨a, ha, hat⟩ := h.unfolds
    exact .mk h.fresh ha hat h.slots fun s c u hc hu => (h.parts s c u hc hu).mono fun n hn => hn.2
  refine ⟨hid, fun n hn hrow => ?_⟩
  by_cases hne : n = id
  · subst hne; exact ⟨t, hid⟩
  · obtain ⟨u, hu⟩ := h.sound n ⟨hne, hn⟩ hrow
    exact ⟨u, hu.mono fun m hm => hm.2⟩

variable [DecidableEq ι] {base : Graph ι σ α}

theorem Building.start (hclean : Clean base) (hid : base.row id = none) (holds : Holds a t) (hparts : ∀ s, Shape.part t s = none) :
    Building base (base.add id a fun _ => none) id t where
  fresh := hid
  extends_ := .add hid a _
  clean := hclean.add id a _
  unfolds := ⟨a, by simp, holds⟩
  slots s := by simp [hparts]
  parts s c u hc _ := by simp at hc
  sound := by
    rintro n ⟨hne, hn⟩ hn'
    rw [base.add_row_of_ne a _ hne] at hn'
    exact absurd hn hn'

variable [DecidableEq σ]

/-- `g` with `c` made the child of `id` at `s`. -/
def Graph.link (g : Graph ι σ α) (id : ι) (s : σ) (c : ι) : Graph ι σ α :=
  { g with child := Function.update g.child id (Function.update (g.child id) s (some c)) }

@[simp] theorem Graph.link_row (g : Graph ι σ α) (id : ι) (s : σ) (c : ι) : (g.link id s c).row = g.row := rfl

theorem Graph.link_child_self (g : Graph ι σ α) (id : ι) (s : σ) (c : ι) :
    (g.link id s c).child id = Function.update (g.child id) s (some c) := Function.update_self ..

theorem Graph.link_child_of_ne (g : Graph ι σ α) (s : σ) (c : ι) (h : n ≠ id) :
    (g.link id s c).child n = g.child n := Function.update_of_ne h ..

theorem Unfolds.link (h : Unfolds g R n t) (hid : ¬ R id) (s : σ) (c : ι) : Unfolds (g.link id s c) R n t := by
  refine h.frame fun m hm _ => ⟨rfl, g.link_child_of_ne s c ?_⟩
  rintro rfl
  exact hid hm

/-- One more child: the tree of a value that was stored since, at a slot that was free. -/
theorem Building.link {g₁ : Graph ι σ α} (h : Building base g id t) (hext : Extends g g₁) (hclean : Clean g₁)
    (hc : Unfolds g₁ (fun n => g.row n = none) c u) (hnew : Sound τ g₁ fun n => g.row n = none)
    {t' : τ} (holds : ∀ a, Holds a t → Holds a t') (hs : Shape.part t' s = some u)
    (hother : ∀ s', s' ≠ s → Shape.part t' s' = Shape.part t s') : Building base (g₁.link id s c) id t' := by
  have hid : g.row id ≠ none := by
    obtain ⟨a, ha, -⟩ := h.unfolds
    rw [ha]; exact Option.some_ne_none a
  obtain ⟨hrow, hchild⟩ := hext id hid
  -- what is new since `g` is new since `base`, and is not `id`
  have hsub : ∀ n, g.row n = none → n ≠ id ∧ base.row n = none := by
    intro n hn
    refine ⟨?_, h.extends_.row_none hn⟩
    rintro rfl
    exact hid hn
  have hout : ¬ ((fun n => n ≠ id ∧ base.row n = none) id) := fun hout => hout.1 rfl
  refine ⟨h.fresh, ?_, ?_, ?_, ?_, ?_, ?_⟩
  · intro n hn
    have hne : n ≠ id := by rintro rfl; exact hn h.fresh
    rw [g₁.link_row, g₁.link_child_of_ne s c hne]
    exact (h.extends_.trans hext) n hn
  · intro n hn s'
    rw [g₁.link_row] at hn
    have hne : n ≠ id := by
      rintro rfl
      rw [hrow] at hn
      exact hid hn
    rw [g₁.link_child_of_ne s c hne]
    exact hclean n hn s'
  · obtain ⟨a, ha, hat⟩ := h.unfolds
    exact ⟨a, by rw [g₁.link_row, hrow, ha], holds a hat⟩
  · intro s'
    rw [g₁.link_child_self, hchild]
    by_cases hs' : s' = s
    · subst hs'; simp [hs]
    · rw [Function.update_of_ne hs', hother s' hs']
      exact h.slots s'
  · intro s' c' u' hc' hu'
    rw [g₁.link_child_self, hchild] at hc'
    by_cases hs' : s' = s
    · subst hs'
      rw [Function.update_self] at hc'
      rw [hs] at hu'
      cases hc'; cases hu'
      exact (hc.mono hsub).link hout s' c
    · rw [Function.update_of_ne hs'] at hc'
      rw [hother s' hs'] at hu'
      exact ((h.parts s' c' u' hc' hu').extends hext).link hout s c
  · intro n hn hrow'
    rw [g₁.link_row] at hrow'
    by_cases hold : g.row n = none
    · obtain ⟨v, hv⟩ := hnew n hold hrow'
      exact ⟨v, (hv.mono hsub).link hout s c⟩
    · obtain ⟨v, hv⟩ := h.sound n hn hold
      exact ⟨v, (hv.extends hext).link hout s c⟩

end Build

/-! ## Dropping what is not reached -/

section Sweep

variable (keep : ι → Prop) [DecidablePred keep]

/-- `g` without the nodes outside `keep`. -/
def Graph.sweep (g : Graph ι σ α) : Graph ι σ α where
  row id := if keep id then g.row id else none
  child id := if keep id then g.child id else fun _ => none

variable {keep}

theorem Unfolds.sweep (h : Unfolds g R id t) (hkeep : ∀ n, Reach g id n → keep n) : Unfolds (g.sweep keep) R id t := by
  have hk : Unfolds g (fun n => R n ∧ keep n) id t := by
    refine h.of_reach fun n hn => ⟨?_, hkeep n hn⟩
    rcases Relation.reflTransGen_iff_eq_or_transGen.1 hn with rfl | hn
    · exact h.region
    · obtain ⟨u, -, hu⟩ := h.proper hn
      exact hu.region
  refine (hk.frame fun n hn _ => ?_).mono fun n hn => hn.1
  simp only [Graph.sweep, if_pos hn.2, and_self]

/-- Sweeping what is closed under children leaves a good graph. -/
theorem Good.sweep (h : Good τ g) (hclosed : ∀ n c, keep n → Edge g n c → keep c) : Good τ (g.sweep keep) := by
  have hreach : ∀ id n, keep id → Reach g id n → keep n := by
    intro id n hid hn
    induction hn with
    | refl => exact hid
    | tail _ hc ih => exact hclosed _ _ ih hc
  refine ⟨fun id hid s => ?_, fun id hid => ?_⟩
  · by_cases hk : keep id
    · simp only [Graph.sweep, if_pos hk] at hid ⊢
      exact h.clean id hid s
    · simp only [Graph.sweep, if_neg hk]
  · by_cases hk : keep id
    · simp only [Graph.sweep, if_pos hk] at hid
      obtain ⟨t, ht⟩ := h.sound id hid
      exact ⟨t, ht.sweep fun n hn => hreach id n hk hn⟩
    · simp only [Graph.sweep, if_neg hk, ne_eq, not_true_eq_false] at hid

end Sweep

end Unfold
