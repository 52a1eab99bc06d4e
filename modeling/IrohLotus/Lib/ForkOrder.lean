/-
The order fork choice puts on the nodes of a forest: a node comes before what descends from it, and at a
fork the side that is outranked comes before the other. A walk that takes the best child at every step ends
at the greatest node there is, so walks over parts of one forest are compared by where they end.
-/
import IrohLotus.Lib.Forest

namespace Forest

variable {D : Type*} {R : Type*} [LinearOrder R] {parent part : D → Option D} {rank rank' : D → R} {a b c f h x y : D}

/-- The ways to `a` and to `b` part at a fork, where the side of `a` is outranked. -/
def Outranked (parent : D → Option D) (rank : D → R) (a b : D) : Prop :=
  ∃ f x y, parent x = some f ∧ parent y = some f ∧ rank x < rank y ∧ Desc parent x a ∧ Desc parent y b

/-- Fork choice passes `a` on the way to `b`, or prefers `b`. -/
def Before (parent : D → Option D) (rank : D → R) (a b : D) : Prop := Desc parent a b ∨ Outranked parent rank a b

theorem Outranked.irrefl (hac : Acyclic parent) : ¬ Outranked parent rank a a := by
  rintro ⟨f, x, y, hx, hy, hlt, hxa, hya⟩
  obtain rfl := hac.eq_of_sibling hx hy hxa hya
  exact lt_irrefl _ hlt

theorem Outranked.desc (h : Outranked parent rank a b) (hbc : Desc parent b c) : Outranked parent rank a c := by
  obtain ⟨f, x, y, hx, hy, hlt, hxa, hyb⟩ := h
  exact ⟨f, x, y, hx, hy, hlt, hxa, hyb.trans hbc⟩

/-- What is passed on the way to an outranked node is passed on the way to the other, or outranked by it. -/
theorem Outranked.of_desc (h : Outranked parent rank b c) (hab : Desc parent a b) : Before parent rank a c := by
  obtain ⟨g, u, v, hu, hv, hlt, hub, hvc⟩ := h
  rcases hab.total hub with hau | hua
  · by_cases hne : u = a
    · exact .inr ⟨g, u, v, hu, hv, hlt, hne ▸ Desc.refl, hvc⟩
    · exact .inl (((hau.of_parent hne hu).child hv).trans hvc)
  · exact .inr ⟨g, u, v, hu, hv, hlt, hua, hvc⟩

theorem Outranked.trans (h : Outranked parent rank a b) (h' : Outranked parent rank b c) :
    Outranked parent rank a c := by
  obtain ⟨f, x, y, hx, hy, hlt, hxa, hyb⟩ := h
  obtain ⟨g, u, v, hu, hv, hlt', hub, hvc⟩ := h'
  -- the two forks lie on the way to `b`, and the higher of the two decides
  by_cases hyu : y = u
  · subst hyu
    rw [hy] at hu
    cases hu
    exact ⟨f, x, v, hx, hv, hlt.trans hlt', hxa, hvc⟩
  rcases hyb.total hub with habove | hbelow
  · have hyg : Desc parent y g := habove.of_parent (Ne.symm hyu) hu
    exact ⟨f, x, y, hx, hy, hlt, hxa, (hyg.child hv).trans hvc⟩
  · have huf : Desc parent u f := hbelow.of_parent hyu hy
    exact ⟨g, u, v, hu, hv, hlt', (huf.child hx).trans hxa, hvc⟩

theorem Before.refl : Before parent rank a a := .inl Desc.refl

theorem Before.trans (h : Before parent rank a b) (h' : Before parent rank b c) : Before parent rank a c := by
  rcases h with hab | hab
  · rcases h' with hbc | hbc
    · exact .inl (hab.trans hbc)
    · exact hbc.of_desc hab
  · rcases h' with hbc | hbc
    · exact .inr (hab.desc hbc)
    · exact .inr (hab.trans hbc)

theorem Before.antisymm (hac : Acyclic parent) (h : Before parent rank a b) (h' : Before parent rank b a) : a = b := by
  rcases h with hab | hab
  · rcases h' with hba | hba
    · exact hac.antisymm hab hba
    · exact absurd (hba.desc hab) (Outranked.irrefl hac)
  · rcases h' with hba | hba
    · exact absurd (hab.desc hba) (Outranked.irrefl hac)
    · exact absurd (hab.trans hba) (Outranked.irrefl hac)

/-- The order of a part of a forest is that of the forest. -/
theorem Before.mono (hext : Extends part parent) (hrank : ∀ c p, part c = some p → rank' c = rank c)
    (h : Before part rank' a b) : Before parent rank a b := by
  rcases h with hab | ⟨f, x, y, hx, hy, hlt, hxa, hyb⟩
  · exact .inl (hab.mono hext)
  · rw [hrank x f hx, hrank y f hy] at hlt
    exact .inr ⟨f, x, y, hext x f hx, hext y f hy, hlt, hxa.mono hext, hyb.mono hext⟩

/-- The walk ends at the greatest node. -/
theorem Tip.before (hinj : Function.Injective rank) (hac : Acyclic parent) (ht : Tip parent rank a h) (hd : Desc parent a b) :
    Before parent rank b h := by
  rcases ht.fork hinj hac hd with hbh | ⟨f, x, y, hx, hy, hlt, -, hxb, hyh⟩
  · exact .inl hbh
  · exact .inr ⟨f, x, y, hx, hy, hlt, hxb, hyh⟩

/-- Where everyone's node comes before everyone's along some steps, there is one node. -/
theorem Before.eq_of_connected {ι : Type*} {tip : ι → D} {heard : ι → ι → Prop} (hac : Acyclic parent)
    (hbefore : ∀ i j, heard i j → Before parent rank (tip i) (tip j)) {i j : ι} (hij : Relation.ReflTransGen heard i j)
    (hji : Relation.ReflTransGen heard j i) : tip i = tip j := by
  have hle : ∀ {i j}, Relation.ReflTransGen heard i j → Before parent rank (tip i) (tip j) := by
    intro i j hpath
    induction hpath with
    | refl => exact .refl
    | tail _ hstep ih => exact ih.trans (hbefore _ _ hstep)
  exact (hle hij).antisymm hac (hle hji)

end Forest
