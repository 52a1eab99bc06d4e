/-
The SQLite backend's writes follow the in-memory ones. A path copy ends as the descent through the
value it copies does, so a commit returns exactly when the update of the parent's version does, and
panics exactly when that panics; what is written represents the updated version, and no node that was
there is changed.
-/
import IrohLotus.Storage.Copy
import IrohLotus.Storage.Update
import IrohLotus.Storage.Log

namespace IrohLotus.Storage

open Std Outcome Unfold Relational IrohLotus.Wire

/-- The values an operation writes are as the source has them. -/
def NamespaceOp.Ordered : NamespaceOp → Prop
  | .put _ ns => Wire.Ordered ns.value
  | .delete _ => True
  | .setAt _ _ value => ∀ v, value = some v → Wire.Ordered v
  | .amendAt _ _ op => ∀ entry, op = .appendEntry entry → Wire.Ordered entry

namespace SqliteStorage

variable [Externals] [Backing] {E : Type}

/-! ## Path copies -/

/-- A node and the database it is in, against the value it is to represent. -/
def Yields (db : SqliteStorage) (r : NodeId × SqliteStorage) (v : Value) : Prop := Grows db r.2 ∧ r.2.Represents r.1 v

/-- What becomes of the end of a path, against the value-level terminal. -/
def Replaces (db : SqliteStorage) (r : Option NodeId × SqliteStorage) (o : Option Value) : Prop :=
  Grows db r.2 ∧ Option.Rel r.2.Represents r.1 o

/-- A terminal of a path copy ends as a terminal of a descent does. -/
def Follows (terminal : Terminal) (terminal' : ValueTerminal E) : Prop :=
  ∀ {db : SqliteStorage} {old : Option NodeId} {o : Option Value}, Good Value db.graph → Option.Rel db.Represents old o →
    Res.Sim (Replaces db) (terminal db old) (terminal' o)

variable {db : SqliteStorage} {id : NodeId} {v : Value}

omit [Externals] [Backing] in
/-- A call that returned what it should ends like one that returned. -/
theorem sim_of_ok {α β : Type} {P : α → β → Prop} {x : Res SqliteError α} {a : α} {b : β} (hx : x = .ok a) (h : P a b) :
    Res.Sim P x (.ok b : Res E β) := by
  rw [hx]; exact h

theorem newContainerRetaining_sim (hgood : Good Value db.graph) (hv : db.Represents id v) (predicate : Predicate) :
    Res.Sim (Yields db) (db.newContainerRetaining id predicate) (amendAt (E := E) v none (.deleteMatching predicate)) := by
  cases v with
  | map entries =>
    obtain ⟨id', db', hdb', hgrows, hrep⟩ := newContainerRetaining_map hgood hv predicate
    exact sim_of_ok hdb' ⟨hgrows, hrep⟩
  | array items =>
    obtain ⟨id', db', hdb', hgrows, hrep⟩ := newContainerRetaining_array hgood hv predicate
    exact sim_of_ok hdb' ⟨hgrows, hrep⟩
  | string | int | bool | key =>
    unfold newContainerRetaining
    rw [nodeKind_of_unfolds hv]
    trivial

theorem incrementLeaf_sim (hgood : Good Value db.graph) (hv : db.Represents id v) (inc : IncrementDecrement) :
    Res.Sim (Yields db) (db.incrementLeaf id inc) (amendAt (E := E) v none (.incrementDecrement inc)) := by
  cases v with
  | int n =>
    simp only [amendAt, segmentsOf_none, walkMut, Res.expect_some, Res.ok_bind]
    cases hsum : inc.apply n with
    | some sum =>
      obtain ⟨id', db', hdb', hgrows, hrep⟩ := incrementLeaf_spec hgood hv hsum
      exact sim_of_ok hdb' ⟨hgrows, hrep⟩
    | none =>
      obtain ⟨leaf, hn, hleaf⟩ := node_of_unfolds hv
      obtain ⟨bytes, rfl, hdec⟩ := hleaf rfl
      unfold incrementLeaf
      rw [hn]
      simp only [kind, Res.ok_bind, Res.okOr_some, hdec, Res.ofExcept_ok, hsum]
      trivial
  | string | bool | key =>
    obtain ⟨leaf, hn, hleaf⟩ := node_of_unfolds hv
    obtain ⟨bytes, rfl, hdec⟩ := hleaf rfl
    unfold incrementLeaf
    rw [hn]
    simp only [kind, Res.ok_bind, Res.okOr_some, hdec, Res.ofExcept_ok]
    trivial
  | map | array =>
    obtain ⟨leaf, hn, -⟩ := node_of_unfolds hv
    unfold incrementLeaf
    rw [hn]
    trivial

/-- An append to a node that stands for no array panics, as the append to its value does. -/
theorem newArrayAppending_sim (hgood : Good Value db.graph) (hv : db.Represents id v) {c : NodeId} {entry : Value}
    (hc : db.Represents c entry) :
    Res.Sim (Yields db) (db.newArrayAppending id c) (amendAt (E := E) v none (.appendEntry entry)) := by
  cases v with
  | array items =>
    obtain ⟨id', db', hdb', hgrows, hrep⟩ := newArrayAppending_spec hgood hv hc
    exact sim_of_ok hdb' ⟨hgrows, hrep⟩
  | string | int | bool | key | map =>
    unfold newArrayAppending
    rw [nodeKind_of_unfolds hv]
    trivial

theorem Yields.trans {db₁ : SqliteStorage} {r : NodeId × SqliteStorage} (h : Grows db db₁) (hr : Yields db₁ r v) :
    Yields db r v :=
  ⟨h.trans hr.1, hr.2⟩

theorem amendNode_sim (hgood : Good Value db.graph) (hv : db.Represents id v) {op : AmendOp}
    (hop : ∀ entry, op = .appendEntry entry → Ordered entry) :
    Res.Sim (Yields db) (db.amendNode id op) (amendAt (E := E) v none op) := by
  cases op with
  | appendEntry entry =>
    obtain ⟨c, db₁, hdb₁, hstored⟩ := insertValue_stored entry hgood.clean (hop entry rfl)
    have hgrows := hstored.grows hgood
    unfold amendNode
    simp only [hdb₁, Res.ok_bind]
    exact (newArrayAppending_sim hgrows.good (hgrows.represents hv) hstored.represents).mono fun r w hr => hr.trans hgrows
  | incrementDecrement inc => exact incrementLeaf_sim hgood hv inc
  | deleteMatching predicate => exact newContainerRetaining_sim hgood hv predicate

/-! ## Terminals -/

theorem setTerminal_follows {value : Option Value} (hvalue : ∀ v, value = some v → Ordered v) :
    Follows (E := E) (setTerminal value) (setValue value) := by
  intro db old o hgood hold
  cases value with
  | some value =>
    obtain ⟨c, db₁, hdb₁, hstored⟩ := insertValue_stored value hgood.clean (hvalue value rfl)
    unfold setTerminal
    simp only [hdb₁, Res.ok_bind]
    exact ⟨hstored.grows hgood, .some hstored.represents⟩
  | none =>
    cases hold with
    | none => trivial
    | some => exact ⟨.refl hgood, .none⟩

theorem amendTerminal_follows {op : AmendOp} (hop : ∀ entry, op = .appendEntry entry → Ordered entry) :
    Follows (E := E) (amendTerminal op) (amendValue op) := by
  intro db old o hgood hold
  cases hold with
  | @some target v hv =>
    have hamend := amendNode_sim (E := E) hgood hv hop
    have hbind : Res.Sim (Replaces db)
        (db.amendNode target op >>= fun r => pure (some r.1, r.2))
        (amendAt v none op >>= fun w => pure (some w) : Res E (Option Value)) :=
      hamend.bind fun r w hr => ⟨hr.1, .some hr.2⟩
    cases op with
    | appendEntry entry =>
      have heq : amendTerminal (.appendEntry entry) db (some target) =
          (db.amendNode target (.appendEntry entry) >>= fun r => pure (some r.1, r.2)) := by
        simp only [amendTerminal, amendNode, bind_assoc]
      rw [heq]; exact hbind
    | incrementDecrement inc => exact hbind
    | deleteMatching predicate => exact hbind
  | none =>
    cases op with
    | appendEntry entry =>
      obtain ⟨c, db₁, hdb₁, hstored⟩ := insertValue_stored entry hgood.clean (hop entry rfl)
      have hgrows := hstored.grows hgood
      obtain ⟨db₂, hdb₂, hgrows₂, hrep⟩ := singleton_spec hgrows.good hstored.represents
      unfold amendTerminal
      simp only [hdb₁, Res.ok_bind, insertNode] at hdb₂ ⊢
      rw [hdb₂]
      exact ⟨hgrows.trans hgrows₂, .some hrep⟩
    | incrementDecrement inc => trivial
    | deleteMatching predicate => trivial

/-! ## Copies along a path -/

theorem copyMap_sim {entries : List (String × Value)} (hv : db.Represents id (.map entries))
    {r : Option NodeId × SqliteStorage} {o : Option Value} (hr : Replaces db r o) (name : String) :
    Res.Sim (Yields db) (do
      let (id, db) ← r.2.newMapWithout id name
      match r.1 with
      | some child => do
        let db ← db.insertMapEdge id name child
        pure (id, db)
      | none => pure (id, db)) (.ok (putEntry entries name o) : Res E Value) := by
  obtain ⟨c, db₁⟩ := r
  obtain ⟨hgrows, hrel⟩ := hr
  cases hrel with
  | @some c u hc =>
    obtain ⟨id', db₂, db₃, hdb₂, hdb₃, hgrows₃, hrep⟩ := newMapWithout_inserting hgrows.good (hgrows.represents hv) hc name
    simp only [hdb₂, Res.ok_bind, hdb₃]
    exact ⟨hgrows.trans hgrows₃, hrep⟩
  | none =>
    obtain ⟨id', db₂, hdb₂, hgrows₂, hrep⟩ := newMapWithout_removing hgrows.good (hgrows.represents hv) name
    simp only [hdb₂, Res.ok_bind]
    exact ⟨hgrows.trans hgrows₂, hrep⟩

theorem copyArray_sim {items : List Value} (hv : db.Represents id (.array items))
    {r : Option NodeId × SqliteStorage} {o : Option Value} (hr : Replaces db r o) {idx : UInt32}
    (hidx : idx.toNat < items.length) :
    Res.Sim (Yields db) (match r with
      | (some child, db) => db.newArrayReplacing id idx child
      | (none, db) => db.newArrayRemoving id idx) (.ok (putItem items idx o) : Res E Value) := by
  obtain ⟨c, db₁⟩ := r
  obtain ⟨hgrows, hrel⟩ := hr
  cases hrel with
  | @some c u hc =>
    obtain ⟨id', db₂, hdb₂, hgrows₂, hrep⟩ := newArrayReplacing_spec hgrows.good (hgrows.represents hv) hidx hc
    exact sim_of_ok hdb₂ ⟨hgrows.trans hgrows₂, hrep⟩
  | none =>
    obtain ⟨id', db₂, hdb₂, hgrows₂, hrep⟩ := newArrayRemoving_spec hgrows.good (hgrows.represents hv) idx
    exact sim_of_ok hdb₂ ⟨hgrows.trans hgrows₂, hrep⟩

/-- A path copy ends as the descent through the value it copies does. -/
theorem replaceChild_sim {terminal : Terminal} {terminal' : ValueTerminal E} (h : Follows terminal terminal') :
    ∀ {path : List Subkey} {db : SqliteStorage} {id : NodeId} {v : Value}, Good Value db.graph → db.Represents id v →
      Res.Sim (Yields db) (replaceChild terminal path id db) (replaceAt terminal' path v)
  | [], _, _, _, _, _ => trivial
  | segment :: rest, db, id, v, hgood, hv => by
    unfold replaceChild
    rw [nodeKind_of_unfolds hv, Res.ok_bind]
    cases v <;> cases segment <;> try trivial
    case map.key entries name =>
      simp only [kind, replaceAt]
      have hrel : Option.Rel db.Represents (db.mapChild id name) (Entries.get entries name) :=
        rel_of_represents hv (.key name)
      by_cases hrest : rest = []
      · simp only [if_pos hrest]
        exact (h hgood hrel).bind fun r o hr => copyMap_sim hv hr name
      · simp only [if_neg hrest]
        generalize db.mapChild id name = c at hrel
        generalize Entries.get entries name = o at hrel
        cases hrel with
        | none => trivial
        | some hc =>
          refine (replaceChild_sim h hgood hc).bind fun r w hr => ?_
          exact copyMap_sim (r := (some r.1, r.2)) (o := some w) hv ⟨hr.1, .some hr.2⟩ name
    case array.index items i =>
      simp only [kind, replaceAt]
      have hrel := rel_of_represents hv (.index i.toNat)
      change Option.Rel db.Represents (db.arrayChild id i) items[i.toNat]? at hrel
      cases hitem : items[i.toNat]? with
      | none =>
        rw [hitem] at hrel
        generalize db.arrayChild id i = c at hrel
        cases hrel
        trivial
      | some u =>
        rw [hitem] at hrel
        generalize db.arrayChild id i = c at hrel
        obtain ⟨hidx, -⟩ := List.getElem?_eq_some_iff.1 hitem
        cases hrel with
        | @some c _ hc =>
          simp only [Res.expect_some, Res.ok_bind]
          split
          · exact (h hgood (.some hc)).bind fun r o hr => copyArray_sim hv hr hidx
          · refine (replaceChild_sim h hgood hc).bind fun r w hr => ?_
            exact copyArray_sim (r := (some r.1, r.2)) (o := some w) hv ⟨hr.1, .some hr.2⟩ hidx

/-- The root a `SetAt` makes represents the value with the part set. -/
theorem setRoot_sim (hgood : Good Value db.graph) (hv : db.Represents id v) (path : SubkeyPath) {value : Option Value}
    (hvalue : ∀ v, value = some v → Ordered v) :
    Res.Sim (Yields db) (replaceChild (setTerminal value) path.segments id db) (setAt (E := E) v path value) :=
  (replaceChild_sim (setTerminal_follows (E := E) hvalue) hgood hv).trans_eq (setAt_sim path value v)

/-- The root an `AmendAt` makes represents the value with the part amended. -/
theorem amendRoot_sim (hgood : Good Value db.graph) (hv : db.Represents id v) (path : Option SubkeyPath) {op : AmendOp}
    (hop : ∀ entry, op = .appendEntry entry → Ordered entry) :
    Res.Sim (Yields db) (db.amendRoot id path op) (amendAt (E := E) v path op) := by
  cases path with
  | none => exact amendNode_sim hgood hv hop
  | some path => exact (replaceChild_sim (amendTerminal_follows (E := E) hop) hgood hv).trans_eq (amendAt_sim path op v)

end SqliteStorage

end IrohLotus.Storage
