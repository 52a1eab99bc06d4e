/-
Forests given by a parent function, and greedy fork choice over them: from a base, take the child
of the greatest rank until there is none (`Canonical`, `Tip`). What is here is how ancestry and the
canonical path behave when the forest is restricted, when a leaf is added, and when two forests
agree wherever the walk can go.
-/
import Mathlib

namespace Forest

variable {D : Type*}

/-- `c` hangs off `p`. -/
def Child (parent : D → Option D) (p c : D) : Prop := parent c = some p

/-- `x` is `a`, or hangs off it through children of children. -/
def Desc (parent : D → Option D) : D → D → Prop := Relation.ReflTransGen (Child parent)

/-- No infinite chain of parents, cycles included. -/
def Acyclic (parent : D → Option D) : Prop := WellFounded (Child parent)

/-- Every parent `parent` names is the one `parent'` names. -/
def Extends (parent parent' : D → Option D) : Prop := ∀ c p, parent c = some p → parent' c = some p

/-! ## Ancestry -/

section Ancestry

variable {parent parent' : D → Option D} {a b c p x y : D}

theorem Desc.refl : Desc parent a a := Relation.ReflTransGen.refl

theorem Desc.trans (h : Desc parent a b) (h' : Desc parent b c) : Desc parent a c :=
  Relation.ReflTransGen.trans h h'

theorem Desc.child (h : Desc parent a p) (hc : parent c = some p) : Desc parent a c :=
  Relation.ReflTransGen.tail h hc

theorem Desc.of_child (h : parent c = some p) : Desc parent p c := Desc.refl.child h

/-- A descendant that is not the ancestor itself descends from it through its own parent. -/
theorem Desc.exists_parent (h : Desc parent a x) (hne : x ≠ a) : ∃ p, parent x = some p ∧ Desc parent a p := by
  rcases Relation.ReflTransGen.cases_tail h with rfl | ⟨p, hp, hx⟩
  · exact absurd rfl hne
  · exact ⟨p, hx, hp⟩

/-- A descendant that is not the ancestor itself descends from one of its children. -/
theorem Desc.exists_child (h : Desc parent a x) (hne : x ≠ a) : ∃ c, parent c = some a ∧ Desc parent c x := by
  rcases Relation.ReflTransGen.cases_head h with rfl | ⟨c, hc, hx⟩
  · exact absurd rfl hne
  · exact ⟨c, hc, hx⟩

theorem Desc.of_parent (h : Desc parent a x) (hne : x ≠ a) (hp : parent x = some p) : Desc parent a p := by
  obtain ⟨q, hq, ha⟩ := h.exists_parent hne
  rw [hp] at hq; cases hq; exact ha

/-- Two ancestors of one node lie on one path. -/
theorem Desc.total (h : Desc parent a x) (h' : Desc parent b x) : Desc parent a b ∨ Desc parent b a := by
  induction h with
  | refl => exact .inr h'
  | @tail p x hp hx ih =>
    by_cases hb : x = b
    · subst hb; exact .inl (Desc.child hp hx)
    · exact ih (h'.of_parent hb hx)

theorem Desc.mono (hext : Extends parent parent') (h : Desc parent a x) : Desc parent' a x :=
  Relation.ReflTransGen.mono (fun p c hc => hext c p hc) _ _ h

theorem Acyclic.mono (hext : Extends parent parent') (h : Acyclic parent') : Acyclic parent :=
  Subrelation.wf (fun {p c} hc => hext c p hc) h

theorem Acyclic.not_desc_parent (h : Acyclic parent) (hc : parent c = some p) : ¬ Desc parent c p := by
  intro hd
  have hcyc : Relation.TransGen (Child parent) c c := Relation.TransGen.tail' hd hc
  exact h.transGen.irrefl.irrefl c hcyc

theorem Acyclic.antisymm (h : Acyclic parent) (hab : Desc parent a b) (hba : Desc parent b a) : a = b := by
  by_contra hne
  obtain ⟨p, hp, hbp⟩ := hab.exists_parent (Ne.symm hne)
  exact h.not_desc_parent hp (hba.trans hbp)

theorem Acyclic.ne_parent (h : Acyclic parent) (hc : parent c = some p) : c ≠ p := by
  rintro rfl; exact h.not_desc_parent hc Desc.refl

/-- Siblings share no descendant. -/
theorem Acyclic.eq_of_sibling (h : Acyclic parent) (hx : parent x = some p) (hy : parent y = some p)
    (hax : Desc parent x a) (hay : Desc parent y a) : x = y := by
  by_contra hne
  rcases hax.total hay with hd | hd
  · exact h.not_desc_parent hx (hd.of_parent (Ne.symm hne) hy)
  · exact h.not_desc_parent hy (hd.of_parent hne hx)

/-- Dropping nodes that nothing kept hangs off keeps ancestry among what is kept. -/
theorem Desc.restrict (keep : D → Prop) (hagree : ∀ c p, keep c → c ≠ a → parent c = some p → parent' c = some p)
    (hup : ∀ c p, keep c → c ≠ a → parent c = some p → keep p) (h : Desc parent a x) (hx : keep x) :
    Desc parent' a x := by
  induction h with
  | refl => exact Desc.refl
  | @tail p x hp hc ih =>
    by_cases hxa : x = a
    · subst hxa; exact Desc.refl
    · exact (ih (hup x p hx hxa hc)).child (hagree x p hx hxa hc)

end Ancestry

/-! ## Paths -/

section Paths

variable {parent : D → Option D} {a b c d p t x : D} {path older newer cs ds : List D}

/-- A node with its ancestors, nearest first. -/
inductive Lineage (parent : D → Option D) : D → List D → Prop
  | top {d : D} (h : parent d = none) : Lineage parent d [d]
  | child {d p : D} {path : List D} (h : parent d = some p) (rest : Lineage parent p path) : Lineage parent d (d :: path)

/-- Each node hangs off the one before, from `a` on to `t`. -/
inductive Climbs (parent : D → Option D) : D → List D → D → Prop
  | nil {a : D} : Climbs parent a [] a
  | cons {a c t : D} {cs : List D} (h : parent c = some a) (rest : Climbs parent c cs t) : Climbs parent a (c :: cs) t

theorem Lineage.mem_iff (h : Lineage parent d path) : x ∈ path ↔ Desc parent x d := by
  induction h with
  | @top d h =>
    rw [List.mem_singleton]
    refine ⟨fun hx => hx ▸ Desc.refl, fun hx => ?_⟩
    by_contra hne
    obtain ⟨p, hp, -⟩ := hx.exists_parent (Ne.symm hne)
    rw [h] at hp; cases hp
  | @child d p path h rest ih =>
    rw [List.mem_cons, ih]
    constructor
    · rintro (rfl | hx)
      · exact Desc.refl
      · exact hx.child h
    · intro hx
      by_cases hne : d = x
      · exact .inl hne.symm
      · exact .inr (hx.of_parent hne h)

theorem Lineage.nodup (hac : Acyclic parent) (h : Lineage parent d path) : path.Nodup := by
  induction h with
  | top => exact List.nodup_singleton _
  | child hp rest ih => exact List.nodup_cons.2 ⟨fun hmem => hac.not_desc_parent hp (rest.mem_iff.1 hmem), ih⟩

/-- The last of the ancestors has no parent. -/
theorem Lineage.getLast (h : Lineage parent d path) : ∃ x, path.getLast? = some x ∧ parent x = none := by
  induction h with
  | @top d h => exact ⟨d, rfl, h⟩
  | @child d p path h rest ih =>
    obtain ⟨x, hx, hnone⟩ := ih
    refine ⟨x, ?_, hnone⟩
    cases path with
    | nil => cases hx
    | cons y path => rw [List.getLast?_cons_cons]; exact hx

theorem Climbs.append (h : Climbs parent a cs b) (h' : Climbs parent b ds t) : Climbs parent a (cs ++ ds) t := by
  induction h with
  | nil => exact h'
  | cons h _ ih => exact .cons h (ih h')

theorem Climbs.desc (h : Climbs parent a cs t) : Desc parent a t := by
  induction h with
  | nil => exact Desc.refl
  | cons h _ ih => exact (Desc.of_child h).trans ih

/-- A climb stops anywhere on its way. -/
theorem Climbs.take (h : Climbs parent a cs t) : ∀ n, ∃ m, Climbs parent a (cs.take n) m ∧ Climbs parent m (cs.drop n) t := by
  induction h with
  | @nil a => exact fun n => ⟨a, by rw [List.take_nil]; exact .nil, by rw [List.drop_nil]; exact .nil⟩
  | @cons a c t cs h rest ih =>
    intro n
    cases n with
    | zero => exact ⟨a, .nil, .cons h rest⟩
    | succ n =>
      obtain ⟨m, hm, hmt⟩ := ih n
      exact ⟨m, .cons h hm, hmt⟩

/-- What comes before an ancestor climbs back from it. -/
theorem Lineage.climbs (h : Lineage parent d path) (hsplit : path = newer ++ a :: older) : Climbs parent a newer.reverse d := by
  induction h generalizing newer with
  | top h =>
    cases newer with
    | nil => cases hsplit; exact .nil
    | cons x newer => simp at hsplit
  | @child d p path h rest ih =>
    cases newer with
    | nil => cases hsplit; exact .nil
    | cons x newer =>
      rw [List.cons_append] at hsplit
      obtain ⟨rfl, hrest⟩ := List.cons.inj hsplit
      rw [List.reverse_cons]
      exact (ih hrest).append (.cons h .nil)

end Paths

/-! ## Counting -/

section Counting

open Classical

variable {parent : D → Option D} {nodes : Finset D} {c p x : D}

/-- The nodes among `nodes` that descend from `x`. -/
noncomputable def below (parent : D → Option D) (nodes : Finset D) (x : D) : Finset D := nodes.filter (Desc parent x)

/-- The nodes among `nodes` that `x` descends from. -/
noncomputable def above (parent : D → Option D) (nodes : Finset D) (x : D) : Finset D :=
  nodes.filter fun a => Desc parent a x

@[simp] theorem mem_below : c ∈ below parent nodes x ↔ c ∈ nodes ∧ Desc parent x c := by simp [below]

@[simp] theorem mem_above : c ∈ above parent nodes x ↔ c ∈ nodes ∧ Desc parent c x := by simp [above]

theorem card_below_le : (below parent nodes x).card ≤ nodes.card := Finset.card_filter_le _ _

theorem card_above_le : (above parent nodes x).card ≤ nodes.card := Finset.card_filter_le _ _

theorem card_below_pos (hx : x ∈ nodes) : 0 < (below parent nodes x).card :=
  Finset.card_pos.2 ⟨x, mem_below.2 ⟨hx, Desc.refl⟩⟩

theorem below_lt (h : Acyclic parent) (hc : parent c = some p) (hp : p ∈ nodes) :
    (below parent nodes c).card < (below parent nodes p).card := by
  apply Finset.card_lt_card
  refine ⟨fun y hy => ?_, fun hsub => ?_⟩
  · rw [mem_below] at hy ⊢
    exact ⟨hy.1, (Desc.of_child hc).trans hy.2⟩
  · have := hsub (mem_below.2 ⟨hp, Desc.refl⟩)
    exact h.not_desc_parent hc (mem_below.1 this).2

theorem above_lt (h : Acyclic parent) (hc : parent c = some p) (hn : c ∈ nodes) :
    (above parent nodes p).card < (above parent nodes c).card := by
  apply Finset.card_lt_card
  refine ⟨fun y hy => ?_, fun hsub => ?_⟩
  · rw [mem_above] at hy ⊢
    exact ⟨hy.1, hy.2.child hc⟩
  · have := hsub (mem_above.2 ⟨hn, Desc.refl⟩)
    exact h.not_desc_parent hc (mem_above.1 this).2

end Counting

/-! ## Fork choice -/

variable {R : Type*} [LinearOrder R]

/-- `c` is the child of `p` with the greatest rank. -/
structure Winner (parent : D → Option D) (rank : D → R) (p c : D) : Prop where
  child : parent c = some p
  best : ∀ c', parent c' = some p → rank c' ≤ rank c

/-- What the walk from `base` passes through. -/
def Canonical (parent : D → Option D) (rank : D → R) : D → D → Prop := Relation.ReflTransGen (Winner parent rank)

/-- Where the walk from `base` ends: a canonical node with no child. -/
structure Tip (parent : D → Option D) (rank : D → R) (base h : D) : Prop where
  canonical : Canonical parent rank base h
  childless : ∀ c, parent c ≠ some h

section Choice

variable {parent parent' : D → Option D} {rank rank' : D → R} {base a c d h h' p q x y : D}

theorem Canonical.refl : Canonical parent rank a a := Relation.ReflTransGen.refl

theorem Canonical.winner (hx : Canonical parent rank base x) (hw : Winner parent rank x y) :
    Canonical parent rank base y := Relation.ReflTransGen.tail hx hw

theorem Canonical.trans (hx : Canonical parent rank a x) (hy : Canonical parent rank x y) :
    Canonical parent rank a y := Relation.ReflTransGen.trans hx hy

theorem Canonical.desc (hx : Canonical parent rank base x) : Desc parent base x :=
  Relation.ReflTransGen.mono (fun _ _ hw => Winner.child hw) _ _ hx

theorem Winner.unique (hinj : Function.Injective rank) (hx : Winner parent rank p x) (hy : Winner parent rank p y) :
    x = y := hinj (le_antisymm (hy.best x hx.child) (hx.best y hy.child))

/-- What lies between the base and a canonical node is canonical, and the node is so from there. -/
theorem Canonical.between (hx : Canonical parent rank base x) (hy : Desc parent base y) (hyx : Desc parent y x)
    (hac : Acyclic parent) : Canonical parent rank base y ∧ Canonical parent rank y x := by
  induction hx with
  | refl =>
    obtain rfl := hac.antisymm hy hyx
    exact ⟨Canonical.refl, Canonical.refl⟩
  | @tail p x hp hw ih =>
    by_cases hxy : x = y
    · subst hxy; exact ⟨Canonical.winner hp hw, Canonical.refl⟩
    · obtain ⟨h1, h2⟩ := ih (hyx.of_parent hxy hw.child)
      exact ⟨h1, h2.winner hw⟩

/-- Every canonical node is on the way to the tip. -/
theorem Tip.of_canonical (hinj : Function.Injective rank) (ht : Tip parent rank base h)
    (hx : Canonical parent rank base x) : Tip parent rank x h := by
  induction hx with
  | refl => exact ht
  | @tail p x hp hw ih =>
    rcases Relation.ReflTransGen.cases_head ih.canonical with rfl | ⟨y, hy, hyh⟩
    · exact absurd hw.child (ih.childless x)
    · obtain rfl := Winner.unique hinj hw hy
      exact ⟨hyh, ih.childless⟩

theorem Tip.unique (hinj : Function.Injective rank) (ht : Tip parent rank base h) (ht' : Tip parent rank base h') :
    h = h' := by
  have hc := ht.of_canonical hinj ht'.canonical
  rcases Relation.ReflTransGen.cases_head hc.canonical with heq | ⟨y, hy, -⟩
  · exact heq.symm
  · exact absurd hy.child (ht'.childless y)

theorem Tip.canonical_iff (hinj : Function.Injective rank) (hac : Acyclic parent) (ht : Tip parent rank base h) :
    Canonical parent rank base x ↔ Desc parent base x ∧ Desc parent x h := by
  constructor
  · intro hx; exact ⟨hx.desc, (ht.of_canonical hinj hx).canonical.desc⟩
  · rintro ⟨h1, h2⟩; exact (ht.canonical.between h1 h2 hac).1

/-- Against the tip, a node is on its path or lost a fork on the way to it. -/
theorem Tip.fork (hinj : Function.Injective rank) (hac : Acyclic parent) (ht : Tip parent rank base h)
    (hx : Desc parent base a) : Desc parent a h ∨ ∃ f x y, parent x = some f ∧ parent y = some f ∧
      rank x < rank y ∧ Desc parent base f ∧ Desc parent x a ∧ Desc parent y h := by
  induction hx with
  | refl => exact .inl ht.canonical.desc
  | @tail p a hp ha ih =>
    rcases ih with hph | ⟨f, x, y, hx, hy, hlt, hf, hxp, hyh⟩
    · have hcp := (ht.canonical_iff hinj hac).2 ⟨hp, hph⟩
      rcases Relation.ReflTransGen.cases_head (ht.of_canonical hinj hcp).canonical with rfl | ⟨y, hy, hyh⟩
      · exact absurd ha (ht.childless a)
      · by_cases hay : a = y
        · subst hay; exact .inl (Canonical.desc hyh)
        · have hlt : rank a < rank y := lt_of_le_of_ne (hy.best a ha) fun heq => hay (hinj heq)
          exact .inr ⟨p, a, y, ha, hy.child, hlt, hp, Desc.refl, Canonical.desc hyh⟩
    · exact .inr ⟨f, x, y, hx, hy, hlt, hf, hxp.child ha, hyh⟩

/-- A node some sibling outranks is on no canonical path, and neither is anything below it. -/
theorem Canonical.not_outranked (hac : Acyclic parent) (hc : Canonical parent rank base c) (hf : Desc parent base p)
    (hx : parent x = some p) (hy : parent y = some p) (hlt : rank x < rank y) : ¬ Desc parent x c := by
  intro hxc
  have hxn : Canonical parent rank base x := (hc.between (hf.child hx) hxc hac).1
  rcases Relation.ReflTransGen.cases_tail hxn with rfl | ⟨q, -, hw⟩
  · exact hac.not_desc_parent hx hf
  · have hq := hw.child
    rw [hx] at hq; cases hq
    exact absurd (hw.best y hy) (not_lt_of_ge · hlt)

/-- The way to `a` stays canonical while the forest grows only below `a`. -/
theorem Canonical.grow (hac : Acyclic parent') (hext : Extends parent parent')
    (hrank : ∀ c p, parent c = some p → rank' c = rank c)
    (hnew : ∀ c p, parent' c = some p → parent c = some p ∨ Desc parent' a p) (hx : Canonical parent rank base x)
    (hxa : Desc parent' x a) : Canonical parent' rank' base x := by
  induction hx with
  | refl => exact Canonical.refl
  | @tail p x _ hw ih =>
    have hchild := hext x p hw.child
    refine (ih ((Desc.of_child hchild).trans hxa)).winner ⟨hchild, fun c hc => ?_⟩
    rcases hnew c p hc with hc | hap
    · rw [hrank c p hc, hrank x p hw.child]; exact hw.best c hc
    · exact absurd (hxa.trans hap) (hac.not_desc_parent hchild)

/-! ## Forests the walk cannot tell apart -/

/-- Wherever the walk of the first forest goes, the second has the same children at the same ranks. -/
def Agree (parent parent' : D → Option D) (rank rank' : D → R) (base : D) : Prop :=
  ∀ x, Canonical parent rank base x → ∀ c, (parent c = some x ↔ parent' c = some x) ∧
    (parent c = some x → rank c = rank' c)

theorem Agree.winner (h : Agree parent parent' rank rank' base) (hx : Canonical parent rank base x) :
    Winner parent rank x y ↔ Winner parent' rank' x y := by
  have hc := h x hx
  constructor
  · rintro ⟨hy, hb⟩
    refine ⟨(hc y).1.1 hy, fun c hcx => ?_⟩
    have hcx' := (hc c).1.2 hcx
    rw [← (hc c).2 hcx', ← (hc y).2 hy]
    exact hb c hcx'
  · rintro ⟨hy, hb⟩
    have hy' := (hc y).1.2 hy
    refine ⟨hy', fun c hcx => ?_⟩
    rw [(hc c).2 hcx, (hc y).2 hy']
    exact hb c ((hc c).1.1 hcx)

theorem Agree.canonical (h : Agree parent parent' rank rank' base) :
    Canonical parent rank base x ↔ Canonical parent' rank' base x := by
  constructor
  · intro hx
    induction hx with
    | refl => exact Canonical.refl
    | tail hp hw ih => exact ih.winner ((h.winner hp).1 hw)
  · intro hx
    induction hx with
    | refl => exact Canonical.refl
    | tail _ hw ih => exact ih.winner ((h.winner ih).2 hw)

theorem Agree.tip (h : Agree parent parent' rank rank' base) : Tip parent rank base a ↔ Tip parent' rank' base a := by
  constructor
  · rintro ⟨hc, hn⟩
    exact ⟨h.canonical.1 hc, fun c hca => hn c (((h a hc) c).1.2 hca)⟩
  · rintro ⟨hc, hn⟩
    have hc' := h.canonical.2 hc
    exact ⟨hc', fun c hca => hn c (((h a hc') c).1.1 hca)⟩

/-! ## Adding a leaf -/

/-- `parent'` is `parent` with the new node `d` hung off `q`, everything else ranked as before. -/
structure AddLeaf (parent parent' : D → Option D) (rank rank' : D → R) (q d : D) : Prop where
  absent : parent d = none
  fresh : ∀ c, parent c ≠ some d
  ne : q ≠ d
  parent_new : parent' d = some q
  parent_old : ∀ c, c ≠ d → parent' c = parent c
  rank_old : ∀ c, c ≠ d → rank' c = rank c

omit [LinearOrder R] in
theorem AddLeaf.extends (h : AddLeaf parent parent' rank rank' q d) : Extends parent parent' := by
  intro c p hc
  have hcd : c ≠ d := by rintro rfl; rw [h.absent] at hc; cases hc
  rw [h.parent_old c hcd]; exact hc

/-- A leaf makes at most itself canonical. -/
theorem AddLeaf.canonical (h : AddLeaf parent parent' rank rank' q d) (hx : Canonical parent' rank' base x) :
    Canonical parent rank base x ∨ x = d ∧ Canonical parent rank base q := by
  induction hx with
  | refl => exact .inl Canonical.refl
  | @tail p x _ hw ih =>
    have hchild := hw.child
    by_cases hxd : x = d
    · subst hxd
      rw [h.parent_new] at hchild; cases hchild
      rcases ih with hp | ⟨rfl, -⟩
      · exact .inr ⟨rfl, hp⟩
      · exact absurd rfl h.ne
    · rw [h.parent_old x hxd] at hchild
      rcases ih with hp | ⟨rfl, -⟩
      · refine .inl (hp.winner ⟨hchild, fun c hc => ?_⟩)
        have hcd : c ≠ d := by rintro rfl; rw [h.absent] at hc; cases hc
        rw [← h.rank_old c hcd, ← h.rank_old x hxd]
        exact hw.best c (by rw [h.parent_old c hcd]; exact hc)
      · exact absurd hchild (h.fresh x)

/-- A leaf hung off the tip is the new tip. -/
theorem AddLeaf.tip (h : AddLeaf parent parent' rank rank' q d) (hac : Acyclic parent') (ht : Tip parent rank base q) :
    Tip parent' rank' base d := by
  have hold : ∀ c p, parent' c = some p → c ≠ d → parent c = some p := by
    intro c p hc hcd
    rw [← h.parent_old c hcd]; exact hc
  have hcanonical : Canonical parent' rank' base q := by
    refine ht.canonical.grow hac h.extends (fun c p hc => h.rank_old c ?_) (fun c p hc => ?_) Desc.refl
    · rintro rfl; rw [h.absent] at hc; cases hc
    · by_cases hcd : c = d
      · subst hcd
        rw [h.parent_new] at hc; cases hc
        exact .inr Desc.refl
      · exact .inl (hold c p hc hcd)
  refine ⟨hcanonical.winner ⟨h.parent_new, fun c hc => ?_⟩, fun c hc => ?_⟩
  · by_cases hcd : c = d
    · rw [hcd]
    · exact absurd (hold c q hc hcd) (ht.childless c)
  · by_cases hcd : c = d
    · exact hac.ne_parent hc hcd
    · exact h.fresh c (hold c d hc hcd)

/-! ## Exchanging paths -/

variable {whole first second merged : D → Option D} {rank₁ rank₂ rank₃ : D → R} {b : D}

omit [LinearOrder R] in
/-- What lies between the base and a node of a part of a forest is in that part. -/
theorem Desc.of_extends (hac : Acyclic whole) (hext : Extends first whole) (hx : Desc first base x) (hyx : Desc whole y x)
    (hy : Desc whole base y) : Desc first base y ∧ Desc first y x := by
  induction hx with
  | refl =>
    obtain rfl := hac.antisymm hy hyx
    exact ⟨Desc.refl, Desc.refl⟩
  | @tail p x hp hc ih =>
    by_cases hxy : x = y
    · subst hxy
      exact ⟨Desc.child hp hc, Desc.refl⟩
    · obtain ⟨hby, hyp⟩ := ih (hyx.of_parent hxy (hext x p hc))
      exact ⟨hby, hyp.child hc⟩

/-- Once the first forest has the canonical path of the second, nothing that the second hangs off a
canonical node of the first outranks all the first has there. -/
theorem Tip.exists_child_ge (hac : Acyclic whole) (hfirst : Extends first whole) (hsecond : Extends second whole)
    (hrank : ∀ x p, first x = some p → second x = some p → rank₁ x = rank₂ x) (hinj : Function.Injective rank₂)
    (ht : Tip second rank₂ base b) (hpath : ∀ x p, second x = some p → Desc second x b → first x = some p)
    (hx : Canonical first rank₁ base x) (hc : second c = some x) (hbc : Desc second base c) :
    ∃ v, first v = some x ∧ rank₂ c ≤ rank₁ v := by
  rcases ht.fork hinj (hac.mono hsecond) hbc with hcb | ⟨f, u, v, hu, hv, hlt, hbf, huc, hvb⟩
  · have hin := hpath c x hc hcb
    exact ⟨c, hin, le_of_eq (hrank c x hin hc).symm⟩
  · have hv' := hpath v f hv hvb
    have hvrank := hrank v f hv' hv
    by_cases hcu : c = u
    · subst hcu
      rw [hc] at hu; cases hu
      exact ⟨v, hv', hvrank ▸ le_of_lt hlt⟩
    · -- the fork lies below `x`, and the first forest would have taken the other side of it
      exfalso
      have hux : Desc second u x := huc.of_parent hcu hc
      obtain ⟨hbu, hux'⟩ := Desc.of_extends hac hfirst hx.desc (hux.mono hsecond) ((hbf.child hu).mono hsecond)
      have hne : u ≠ base := by
        rintro rfl
        exact (hac.mono hsecond).not_desc_parent hu hbf
      obtain ⟨f', hf', hbf'⟩ := hbu.exists_parent hne
      obtain rfl : f' = f := by
        have := hfirst u f' hf'
        rw [hsecond u f hu] at this
        exact (Option.some.inj this).symm
      refine hx.not_outranked (hac.mono hfirst) hbf' hf' hv' ?_ hux'
      rw [hrank u f' hf' hu, hvrank]
      exact hlt

/-- A forest made of the second and of the canonical path of the first, which itself has the canonical
path of the second, ends where the first does. -/
theorem Tip.exchange (hac : Acyclic whole) (hfirst : Extends first whole) (hsecond : Extends second whole)
    (hrank : ∀ x p, first x = some p → second x = some p → rank₁ x = rank₂ x) (hinj : Function.Injective rank₂)
    (ha : Tip first rank₁ base a) (hb : Tip second rank₂ base b) (hbase : ∀ c x, second c = some x → Desc second base c)
    (hpath : ∀ x p, second x = some p → Desc second x b → first x = some p)
    (hgot : ∀ x p, first x = some p → Desc first x a → merged x = some p ∧ rank₃ x = rank₁ x)
    (hfrom : ∀ c x, merged c = some x → second c = some x ∧ rank₃ c = rank₂ c ∨ first c = some x ∧ rank₃ c = rank₁ c) :
    Tip merged rank₃ base a := by
  -- every child the merged forest has of a node canonical in the first is matched there
  have hmatch : ∀ {x c}, Canonical first rank₁ base x → merged c = some x → ∃ v, first v = some x ∧ rank₃ c ≤ rank₁ v := by
    intro x c hx hc
    rcases hfrom c x hc with ⟨hc', hr⟩ | ⟨hc', hr⟩
    · rw [hr]
      exact Tip.exists_child_ge hac hfirst hsecond hrank hinj hb hpath hx hc' (hbase c x hc')
    · exact ⟨c, hc', le_of_eq hr⟩
  refine ⟨?_, fun c hc => ?_⟩
  · have hcanonical : ∀ {x}, Canonical first rank₁ base x → Desc first x a → Canonical merged rank₃ base x := by
      intro x hx
      induction hx with
      | refl => exact fun _ => Canonical.refl
      | @tail p x hp hw ih =>
        intro hxa
        obtain ⟨hchild, hr⟩ := hgot x p hw.child hxa
        refine (ih ((Desc.of_child hw.child).trans hxa)).winner ⟨hchild, fun c hc => ?_⟩
        obtain ⟨v, hv, hle⟩ := hmatch hp hc
        rw [hr]
        exact hle.trans (hw.best v hv)
    exact hcanonical ha.canonical Desc.refl
  · obtain ⟨v, hv, -⟩ := hmatch ha.canonical hc
    exact ha.childless v hv

end Choice

end Forest
