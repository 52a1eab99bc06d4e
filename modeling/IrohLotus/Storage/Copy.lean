/-
What the writes of the SQLite backend make of the node graph. Storing a value adds nodes that unfold
to it and touches no other; a copy of a container adds one node whose edges are the original's but
for what was changed. Both leave every node that was there as it was, which is what lets versions
share them.
-/
import IrohLotus.Storage.Tree

namespace IrohLotus.Storage

open Std Outcome Unfold Relational IrohLotus.Wire

namespace SqliteStorage

variable [Externals] [Backing]

/-- The tables beside the trees are as they were. -/
structure Untouched (db db' : SqliteStorage) : Prop where
  versions : db'.versions = db.versions
  versionNamespaces : db'.versionNamespaces = db.versionNamespaces
  envelopes : db'.envelopes = db.envelopes

omit [Externals] [Backing] in
theorem Untouched.refl (db : SqliteStorage) : Untouched db db := ⟨rfl, rfl, rfl⟩

omit [Externals] [Backing] in
theorem Untouched.trans {a b c : SqliteStorage} (h : Untouched a b) (h' : Untouched b c) : Untouched a c :=
  ⟨h'.versions.trans h.versions, h'.versionNamespaces.trans h.versionNamespaces, h'.envelopes.trans h.envelopes⟩

/-- A transaction so far: it added nodes, and every node unfolds. -/
structure Grows (db db' : SqliteStorage) : Prop where
  good : Good Value db'.graph
  extends_ : Extends db.graph db'.graph
  untouched : Untouched db db'

theorem Grows.trans {a b c : SqliteStorage} (h : Grows a b) (h' : Grows b c) : Grows a c :=
  ⟨h'.good, h.extends_.trans h'.extends_, h.untouched.trans h'.untouched⟩

theorem Grows.refl {db : SqliteStorage} (h : Good Value db.graph) : Grows db db := ⟨h, .refl _, .refl _⟩

theorem Grows.represents {db db' : SqliteStorage} {id : NodeId} {v : Value} (h : Grows db db') (hv : db.Represents id v) :
    db'.Represents id v :=
  hv.extends h.extends_

/-! ## One row at a time -/

section Rows

variable {db : SqliteStorage}

theorem row_rowid (db : SqliteStorage) : db.graph.row (Backing.rowid db.nodes) = none := Backing.rowid_free db.nodes

theorem untouched_insertNode (db : SqliteStorage) (kind : Nat) (leaf : Option Bytes.Blob) :
    Untouched db (db.insertNode kind leaf).2 :=
  ⟨rfl, rfl, rfl⟩

/-- A new row of `nodes` is a node without children. -/
theorem graph_insertNode (hclean : Clean db.graph) (kind : Nat) (leaf : Option Bytes.Blob) :
    (db.insertNode kind leaf).2.graph = db.graph.add (Backing.rowid db.nodes) ⟨kind, leaf⟩ fun _ => none := by
  ext1
  · funext n
    simp only [graph, insertNode, Graph.add, ExtTreeMap.getElem?_insert, Std.compare_eq_iff_eq, Function.update_apply]
    by_cases hn : n = Backing.rowid db.nodes
    · rw [if_pos hn, if_pos hn.symm]
    · rw [if_neg hn, if_neg (Ne.symm hn)]
  · funext n
    by_cases hn : n = Backing.rowid db.nodes
    · subst hn
      rw [Graph.add_child_self]
      funext s
      exact hclean _ (row_rowid db) s
    · rw [Graph.add_child_of_ne _ _ _ hn]
      rfl

omit [Externals] [Backing] in
theorem graph_replace_mapEdges (db : SqliteStorage) (id : NodeId) (name : String) (c : NodeId) :
    ({ db with mapEdges := db.mapEdges.replace id name c } : SqliteStorage).graph = db.graph.link id (.key name) c := by
  ext1
  · rfl
  · funext n
    by_cases hn : n = id
    · subst hn
      rw [Graph.link_child_self]
      funext s
      cases s with
      | key other =>
        simp only [graph, Table.rows_replace, if_true, ExtTreeMap.getElem?_insert, Std.compare_eq_iff_eq, Function.update_apply,
          Slot.key.injEq]
        by_cases ho : name = other
        · rw [if_pos ho, if_pos ho.symm]
        · rw [if_neg ho, if_neg (Ne.symm ho)]
      | index i => simp [graph]
    · rw [Graph.link_child_of_ne _ _ _ hn]
      funext s
      cases s with
      | key other => simp only [graph, Table.rows_replace, if_neg (Ne.symm hn)]
      | index i => rfl

omit [Externals] [Backing] in
theorem graph_replace_arrayEdges (db : SqliteStorage) (id : NodeId) (i : Nat) (c : NodeId) :
    ({ db with arrayEdges := db.arrayEdges.replace id i c } : SqliteStorage).graph = db.graph.link id (.index i) c := by
  ext1
  · rfl
  · funext n
    by_cases hn : n = id
    · subst hn
      rw [Graph.link_child_self]
      funext s
      cases s with
      | key other => simp [graph]
      | index j =>
        simp only [graph, Table.rows_replace, if_true, ExtTreeMap.getElem?_insert, Std.compare_eq_iff_eq, Function.update_apply,
          Slot.index.injEq]
        by_cases hj : i = j
        · rw [if_pos hj, if_pos hj.symm]
        · rw [if_neg hj, if_neg (Ne.symm hj)]
    · rw [Graph.link_child_of_ne _ _ _ hn]
      funext s
      cases s with
      | key other => rfl
      | index j => simp only [graph, Table.rows_replace, if_neg (Ne.symm hn)]

omit [Externals] [Backing] in
/-- An edge of a map goes in at a key that is free. -/
theorem insertMapEdge_of_free {id c : NodeId} {name : String} (h : db.graph.child id (.key name) = none) :
    ∃ db', db.insertMapEdge id name c = .ok db' ∧ db'.graph = db.graph.link id (.key name) c ∧ Untouched db db' := by
  have hfree : name ∉ db.mapEdges.rows id := by
    rw [ExtTreeMap.mem_iff_isSome_getElem?]
    have h : (db.mapEdges.rows id)[name]? = none := h
    simp [h]
  refine ⟨{ db with mapEdges := db.mapEdges.replace id name c }, ?_, graph_replace_mapEdges db id name c, ⟨rfl, rfl, rfl⟩⟩
  unfold insertMapEdge
  rw [Table.insert_of_free hfree]
  rfl

omit [Externals] [Backing] in
/-- An edge of an array goes in at an index that is free. -/
theorem insertArrayEdge_of_free {id c : NodeId} {i : Nat} (h : db.graph.child id (.index i) = none) :
    ∃ db', db.insertArrayEdge id i c = .ok db' ∧ db'.graph = db.graph.link id (.index i) c ∧ Untouched db db' := by
  have hfree : i ∉ db.arrayEdges.rows id := by
    rw [ExtTreeMap.mem_iff_isSome_getElem?]
    have h : (db.arrayEdges.rows id)[i]? = none := h
    simp [h]
  refine ⟨{ db with arrayEdges := db.arrayEdges.replace id i c }, ?_, graph_replace_arrayEdges db id i c, ⟨rfl, rfl, rfl⟩⟩
  unfold insertArrayEdge
  rw [Table.insert_of_free hfree]
  rfl

end Rows

/-! ## Storing a value -/

/-- `v` was stored as a tree of nodes of its own, rooted at `id`. -/
structure Stored (db db' : SqliteStorage) (id : NodeId) (v : Value) : Prop where
  extends_ : Extends db.graph db'.graph
  clean : Clean db'.graph
  unfolds : Unfolds db'.graph (fun n => db.graph.row n = none) id v
  sound : Sound Value db'.graph fun n => db.graph.row n = none
  untouched : Untouched db db'

theorem Stored.grows {db db' : SqliteStorage} {id : NodeId} {v : Value} (h : Stored db db' id v)
    (hgood : Good Value db.graph) : Grows db db' := by
  refine ⟨hgood.grow h.extends_ h.clean fun n hn hn' => ?_, h.extends_, h.untouched⟩
  obtain ⟨u, hu⟩ := h.sound n hn hn'
  exact ⟨u, hu.mono fun _ _ => trivial⟩

theorem Stored.represents {db db' : SqliteStorage} {id : NodeId} {v : Value} (h : Stored db db' id v) : db'.Represents id v :=
  h.unfolds.mono fun _ _ => trivial

theorem Stored.of_building {db db' : SqliteStorage} {id : NodeId} {v : Value} (h : Building db.graph db'.graph id v)
    (huntouched : Untouched db db') : Stored db db' id v :=
  ⟨h.extends_, h.clean, h.done.1, h.done.2, huntouched⟩

theorem insertNode_building {db : SqliteStorage} {v : Value} {kind : Nat} {leaf : Option Bytes.Blob}
    (hclean : Clean db.graph) (holds : Holds ⟨kind, leaf⟩ v) (hparts : ∀ s, partAt v s = none) :
    Building db.graph (db.insertNode kind leaf).2.graph (Backing.rowid db.nodes) v := by
  rw [graph_insertNode hclean]
  exact .start hclean (row_rowid db) holds hparts

/-- A leaf is stored as the row that carries its encoding. -/
theorem insertLeaf_stored {db : SqliteStorage} (hclean : Clean db.graph) {v : Value} (hk : kind v = .leaf) :
    ∃ bytes, Backing.encodeValue v = .ok bytes ∧
      Stored db (db.insertNode LEAF (some bytes)).2 (db.insertNode LEAF (some bytes)).1 v := by
  obtain ⟨bytes, henc, hdec⟩ := Backing.decodeValue_encodeValue v hk
  exact ⟨bytes, henc, .of_building (insertNode_building hclean (.leaf hk hdec) (partAt_leaf hk)) ⟨rfl, rfl, rfl⟩⟩

/-- One more entry of a map being filled. -/
theorem building_linkEntry {base g g₁ : Graph NodeId Slot NodeRow} {id c : NodeId} {pre : List (String × Value)}
    {name : String} {u : Value} (h : Building base g id (Value.map pre)) (hext : Extends g g₁) (hclean : Clean g₁)
    (hc : Unfolds g₁ (fun n => g.row n = none) c u) (hnew : Sound Value g₁ fun n => g.row n = none)
    (hs : Entries.Sorted (pre ++ [(name, u)])) : Building base (g₁.link id (.key name) c) id (Value.map (pre ++ [(name, u)])) := by
  have hpre : ∀ other, Entries.get (pre ++ [(name, u)]) other = if other = name then some u else Entries.get pre other := by
    have hlt : ∀ e ∈ pre, e.1 < name := by
      intro e he
      unfold Entries.Sorted at hs
      rw [List.map_append, List.pairwise_append] at hs
      exact hs.2.2 e.1 (List.mem_map_of_mem he) name (by simp)
    intro other
    rw [← Entries.insert_last hlt, Entries.get_insert]
    by_cases ho : other = name
    · rw [if_pos ho, if_pos ho.symm]
    · rw [if_neg ho, if_neg (Ne.symm ho)]
  refine h.link hext hclean hc hnew (fun row hrow => ?_) ?_ fun s hne => ?_
  · exact Holds.map_iff.2 ⟨(Holds.map_iff.1 hrow).1, hs⟩
  · show Entries.get _ _ = _
    rw [hpre, if_pos rfl]
  · cases s with
    | key other =>
      show Entries.get _ _ = Entries.get _ _
      rw [hpre, if_neg fun ho => hne (by rw [ho])]
    | index i => rfl

/-- One more item of an array being filled. -/
theorem building_linkItem {base g g₁ : Graph NodeId Slot NodeRow} {id c : NodeId} {pre : List Value}
    {u : Value} (h : Building base g id (Value.array pre)) (hext : Extends g g₁) (hclean : Clean g₁)
    (hc : Unfolds g₁ (fun n => g.row n = none) c u) (hnew : Sound Value g₁ fun n => g.row n = none) :
    Building base (g₁.link id (.index pre.length) c) id (Value.array (pre ++ [u])) := by
  refine h.link hext hclean hc hnew (fun row hrow => ?_) ?_ fun s hne => ?_
  · exact Holds.array_iff.2 (Holds.array_iff.1 hrow)
  · show (pre ++ [u])[pre.length]? = some u
    simp
  · cases s with
    | key name => rfl
    | index i =>
      show (pre ++ [u])[i]? = pre[i]?
      have hi : i ≠ pre.length := fun hi => hne (by rw [hi])
      rw [List.getElem?_append]
      split
      · rfl
      · rw [List.getElem?_eq_none (by simp; omega), List.getElem?_eq_none (by omega)]

mutual

theorem insertValue_stored : ∀ (v : Value) {db : SqliteStorage}, Clean db.graph → Ordered v →
    ∃ id db', insertValue v db = .ok (id, db') ∧ Stored db db' id v
  | .map entries, db, hclean, hv => by
    unfold Ordered at hv
    have hstart : Building db.graph (db.insertNode MAP none).2.graph (Backing.rowid db.nodes) (Value.map []) :=
      insertNode_building hclean (.map .nil) fun s => by cases s <;> rfl
    obtain ⟨db', hdb', hb, hu⟩ := insertEntries_building entries hstart hv.2 hv.1
    refine ⟨_, db', ?_, .of_building hb ((untouched_insertNode db _ _).trans hu)⟩
    unfold insertValue
    simp only [insertNode] at hdb' ⊢
    rw [hdb']; rfl
  | .array items, db, hclean, hv => by
    unfold Ordered at hv
    have hstart : Building db.graph (db.insertNode ARRAY none).2.graph (Backing.rowid db.nodes) (Value.array []) :=
      insertNode_building hclean .array fun s => by cases s <;> rfl
    obtain ⟨db', hdb', hb, hu⟩ := insertItems_building items hstart hv
    refine ⟨_, db', ?_, .of_building hb ((untouched_insertNode db _ _).trans hu)⟩
    unfold insertValue
    simp only [insertNode] at hdb' ⊢
    rw [List.length_nil] at hdb'
    rw [hdb']; rfl
  | .string text, db, hclean, _ => by
    obtain ⟨bytes, henc, hstored⟩ := insertLeaf_stored hclean (v := .string text) rfl
    exact ⟨_, _, by unfold insertValue; rw [henc]; rfl, hstored⟩
  | .int n, db, hclean, _ => by
    obtain ⟨bytes, henc, hstored⟩ := insertLeaf_stored hclean (v := .int n) rfl
    exact ⟨_, _, by unfold insertValue; rw [henc]; rfl, hstored⟩
  | .bool flag, db, hclean, _ => by
    obtain ⟨bytes, henc, hstored⟩ := insertLeaf_stored hclean (v := .bool flag) rfl
    exact ⟨_, _, by unfold insertValue; rw [henc]; rfl, hstored⟩
  | .key key, db, hclean, _ => by
    obtain ⟨bytes, henc, hstored⟩ := insertLeaf_stored hclean (v := .key key) rfl
    exact ⟨_, _, by unfold insertValue; rw [henc]; rfl, hstored⟩

theorem insertEntries_building : ∀ (rest : List (String × Value)) {base : Graph NodeId Slot NodeRow} {db : SqliteStorage}
    {id : NodeId} {pre : List (String × Value)}, Building base db.graph id (Value.map pre) → OrderedEntries rest →
      Entries.Sorted (pre ++ rest) → ∃ db', insertEntries id rest db = .ok db' ∧
        Building base db'.graph id (Value.map (pre ++ rest)) ∧ Untouched db db'
  | [], base, db, id, pre, h, _, _ => by
    refine ⟨db, ?_, by simpa using h, .refl db⟩
    unfold insertEntries
    rfl
  | (name, v) :: rest, base, db, id, pre, h, hrest, hs => by
    unfold OrderedEntries at hrest
    have hs' : Entries.Sorted ((pre ++ [(name, v)]) ++ rest) := by simpa using hs
    have hs₁ : Entries.Sorted (pre ++ [(name, v)]) :=
      List.Pairwise.sublist ((List.sublist_append_left _ rest).map Prod.fst) hs'
    obtain ⟨c, db₁, hc, hstored⟩ := insertValue_stored v h.clean hrest.1
    have hid : db.graph.row id ≠ none := by
      obtain ⟨row, hrow, -⟩ := h.unfolds
      rw [hrow]; exact Option.some_ne_none row
    have hfree : db₁.graph.child id (.key name) = none := by
      rw [(hstored.extends_ id hid).2]
      have hslot := h.slots (.key name)
      have hget : Entries.get pre name = none := by
        rw [← Option.not_isSome_iff_eq_none, Entries.isSome_get]
        unfold Entries.Sorted at hs₁
        rw [List.map_append, List.pairwise_append] at hs₁
        exact fun hmem => (hs₁.2.2 name hmem name (by simp)).ne rfl
      have hpart : (Shape.part (Value.map pre) (Slot.key name) : Option Value) = none := hget
      rw [hpart] at hslot
      simpa using hslot
    obtain ⟨db₂, hedge, hgraph, hu₂⟩ := insertMapEdge_of_free (c := c) hfree
    have hb : Building base db₂.graph id (Value.map (pre ++ [(name, v)])) := by
      rw [hgraph]
      exact building_linkEntry h hstored.extends_ hstored.clean hstored.unfolds hstored.sound hs₁
    obtain ⟨db', hdb', hb', hu'⟩ := insertEntries_building rest hb hrest.2 hs'
    refine ⟨db', ?_, by simpa using hb', (hstored.untouched.trans hu₂).trans hu'⟩
    unfold insertEntries
    rw [hc, Res.ok_bind]
    simp only [hedge, Res.ok_bind]
    exact hdb'

theorem insertItems_building : ∀ (rest : List Value) {base : Graph NodeId Slot NodeRow} {db : SqliteStorage}
    {id : NodeId} {pre : List Value}, Building base db.graph id (Value.array pre) → OrderedItems rest →
      ∃ db', insertItems id pre.length rest db = .ok db' ∧
        Building base db'.graph id (Value.array (pre ++ rest)) ∧ Untouched db db'
  | [], base, db, id, pre, h, _ => by
    refine ⟨db, ?_, by simpa using h, .refl db⟩
    unfold insertItems
    rfl
  | v :: rest, base, db, id, pre, h, hrest => by
    unfold OrderedItems at hrest
    obtain ⟨c, db₁, hc, hstored⟩ := insertValue_stored v h.clean hrest.1
    have hid : db.graph.row id ≠ none := by
      obtain ⟨row, hrow, -⟩ := h.unfolds
      rw [hrow]; exact Option.some_ne_none row
    have hfree : db₁.graph.child id (.index pre.length) = none := by
      rw [(hstored.extends_ id hid).2]
      have hslot := h.slots (.index pre.length)
      have hpart : (Shape.part (Value.array pre) (Slot.index pre.length) : Option Value) = none :=
        List.getElem?_eq_none (Nat.le_refl _)
      rw [hpart] at hslot
      simpa using hslot
    obtain ⟨db₂, hedge, hgraph, hu₂⟩ := insertArrayEdge_of_free (c := c) hfree
    have hb : Building base db₂.graph id (Value.array (pre ++ [v])) := by
      rw [hgraph]
      exact building_linkItem h hstored.extends_ hstored.clean hstored.unfolds hstored.sound
    obtain ⟨db', hdb', hb', hu'⟩ := insertItems_building rest hb hrest.2
    refine ⟨db', ?_, by simpa using hb', (hstored.untouched.trans hu₂).trans hu'⟩
    unfold insertItems
    rw [hc, Res.ok_bind]
    simp only [hedge, Res.ok_bind]
    simpa using hdb'

end

/-! ## Adding one node -/

/-- `db'` is `db` with the row `row` at `id`, and whatever edges `id` has in it. -/
structure Adds (db db' : SqliteStorage) (id : NodeId) (row : NodeRow) : Prop where
  fresh : db.graph.row id = none
  graph : db'.graph = db.graph.add id row (db'.graph.child id)
  untouched : Untouched db db'

namespace Adds

variable {db db₁ db₂ : SqliteStorage} {id c : NodeId} {row : NodeRow}

theorem start (hclean : Clean db.graph) (kind : Nat) (leaf : Option Bytes.Blob) :
    Adds db (db.insertNode kind leaf).2 (Backing.rowid db.nodes) ⟨kind, leaf⟩ ∧
      ∀ s, (db.insertNode kind leaf).2.graph.child (Backing.rowid db.nodes) s = none := by
  have hgraph := graph_insertNode hclean kind leaf
  refine ⟨⟨row_rowid db, ?_, untouched_insertNode db kind leaf⟩, fun s => ?_⟩
  · rw [hgraph, Graph.add_child_self]
  · rw [hgraph, Graph.add_child_self]

omit [Externals] [Backing] in
theorem of_edges (h : Adds db db₁ id row) (hrow : db₂.graph.row = db₁.graph.row)
    (hchild : ∀ n, n ≠ id → db₂.graph.child n = db₁.graph.child n) (hu : Untouched db₁ db₂) : Adds db db₂ id row := by
  refine ⟨h.fresh, ?_, h.untouched.trans hu⟩
  ext1
  · rw [hrow, h.graph]
    rfl
  · funext n
    by_cases hn : n = id
    · subst hn
      rw [Graph.add_child_self]
    · rw [hchild n hn, h.graph, Graph.add_child_of_ne _ _ _ hn, Graph.add_child_of_ne _ _ _ hn]

omit [Externals] [Backing] in
theorem insertMapEdge (h : Adds db db₁ id row) {name : String} (hfree : db₁.graph.child id (.key name) = none) (c : NodeId) :
    ∃ db₂, db₁.insertMapEdge id name c = .ok db₂ ∧ Adds db db₂ id row ∧
      db₂.graph.child id = Function.update (db₁.graph.child id) (.key name) (some c) := by
  obtain ⟨db₂, hdb₂, hgraph, hu⟩ := insertMapEdge_of_free (c := c) hfree
  refine ⟨db₂, hdb₂, h.of_edges (by rw [hgraph]; rfl) (fun n hn => ?_) hu, ?_⟩
  · rw [hgraph, Graph.link_child_of_ne _ _ _ hn]
  · rw [hgraph, Graph.link_child_self]

omit [Externals] [Backing] in
theorem insertArrayEdge (h : Adds db db₁ id row) {i : Nat} (hfree : db₁.graph.child id (.index i) = none) (c : NodeId) :
    ∃ db₂, db₁.insertArrayEdge id i c = .ok db₂ ∧ Adds db db₂ id row ∧
      db₂.graph.child id = Function.update (db₁.graph.child id) (.index i) (some c) := by
  obtain ⟨db₂, hdb₂, hgraph, hu⟩ := insertArrayEdge_of_free (c := c) hfree
  refine ⟨db₂, hdb₂, h.of_edges (by rw [hgraph]; rfl) (fun n hn => ?_) hu, ?_⟩
  · rw [hgraph, Graph.link_child_of_ne _ _ _ hn]
  · rw [hgraph, Graph.link_child_self]

omit [Externals] [Backing] in
/-- Edges of a map copied under a node that has none. -/
theorem insertMapEdges (h : Adds db db₁ id row) (hnone : ∀ s, db₁.graph.child id s = none) {l : List (String × NodeId)}
    (hl : (l.map Prod.fst).Nodup) : ∃ db₂, db₁.insertMapEdges id l = .ok db₂ ∧ Adds db db₂ id row ∧
      (∀ name c, db₂.graph.child id (.key name) = some c ↔ (name, c) ∈ l) ∧ ∀ i, db₂.graph.child id (.index i) = none := by
  have hrows : ∀ name : String, (db₁.mapEdges.rows id)[name]? = none := fun name => hnone (.key name)
  obtain ⟨t, ht, hother, hid⟩ := Table.insertAll_of_free (t := db₁.mapEdges) (p := id) hl fun e _ => by
    rw [ExtTreeMap.mem_iff_isSome_getElem?, hrows]
    simp
  refine ⟨{ db₁ with mapEdges := t }, ?_, h.of_edges rfl (fun n hn => ?_) ⟨rfl, rfl, rfl⟩, fun name c => ?_, fun i => hnone (.index i)⟩
  · unfold SqliteStorage.insertMapEdges
    rw [ht]; rfl
  · funext s
    cases s with
    | key name => simp only [SqliteStorage.graph, hother n (Ne.symm hn)]
    | index i => rfl
  · refine (hid name c).trans ?_
    simp [hrows name]

omit [Externals] [Backing] in
/-- Edges of an array copied under a node that has none. -/
theorem insertArrayEdges (h : Adds db db₁ id row) (hnone : ∀ s, db₁.graph.child id s = none) {l : List (Nat × NodeId)}
    (hl : (l.map Prod.fst).Nodup) : ∃ db₂, db₁.insertArrayEdges id l = .ok db₂ ∧ Adds db db₂ id row ∧
      (∀ i c, db₂.graph.child id (.index i) = some c ↔ (i, c) ∈ l) ∧ ∀ name, db₂.graph.child id (.key name) = none := by
  have hrows : ∀ i : Nat, (db₁.arrayEdges.rows id)[i]? = none := fun i => hnone (.index i)
  obtain ⟨t, ht, hother, hid⟩ := Table.insertAll_of_free (t := db₁.arrayEdges) (p := id) hl fun e _ => by
    rw [ExtTreeMap.mem_iff_isSome_getElem?, hrows]
    simp
  refine ⟨{ db₁ with arrayEdges := t }, ?_, h.of_edges rfl (fun n hn => ?_) ⟨rfl, rfl, rfl⟩, fun i c => ?_, fun name => hnone (.key name)⟩
  · unfold SqliteStorage.insertArrayEdges
    rw [ht]; rfl
  · funext s
    cases s with
    | key name => rfl
    | index i => simp only [SqliteStorage.graph, hother n (Ne.symm hn)]
  · refine (hid i c).trans ?_
    simp [hrows i]

omit [Externals] [Backing] in
theorem extends_ (h : Adds db db₁ id row) : Extends db.graph db₁.graph := by
  rw [h.graph]
  exact .add h.fresh row _

/-- The new node represents the value whose top its row holds and whose parts its children represent. -/
theorem represents (h : Adds db db₁ id row) (hgood : Good Value db.graph) {v : Value} (holds : Holds row v)
    (hrel : ∀ s, Option.Rel db.Represents (db₁.graph.child id s) (partAt v s)) : Grows db db₁ ∧ db₁.Represents id v := by
  have hslots : ∀ s, (db₁.graph.child id s).isSome = (partAt v s).isSome := by
    intro s
    have hs := hrel s
    generalize db₁.graph.child id s = o at hs ⊢
    generalize partAt v s = o' at hs ⊢
    cases hs <;> rfl
  have hparts : ∀ s c u, db₁.graph.child id s = some c → partAt v s = some u → db.Represents c u := by
    intro s c u hc hu
    have hs := hrel s
    rw [hc, hu] at hs
    cases hs with
    | some hcu => exact hcu
  refine ⟨⟨?_, h.extends_, h.untouched⟩, ?_⟩
  · rw [h.graph]
    exact hgood.add h.fresh holds hslots hparts
  · unfold Represents
    rw [h.graph]
    exact .add h.fresh trivial holds hslots hparts

end Adds

/-! ## Copies of a map -/

section Copies

variable {db : SqliteStorage} {old c : NodeId} {u : Value}

omit [Externals] [Backing] in
theorem nodup_keys_toList {K : Type} [Ord K] [TransOrd K] [LawfulEqOrd K] (m : ExtTreeMap K NodeId) :
    (m.toList.map Prod.fst).Nodup := by
  rw [ExtTreeMap.map_fst_toList_eq_keys]
  exact ExtTreeMap.distinct_keys.imp fun h => by simpa using h

/-- The children of a node represent the parts of its value. -/
theorem rel_of_represents {id : NodeId} {v : Value} (h : db.Represents id v) (s : Slot) :
    Option.Rel db.Represents (db.graph.child id s) (partAt v s) := by
  cases hc : db.graph.child id s with
  | none =>
    have hu : partAt v s = none := h.child_none hc
    rw [hu]; exact .none
  | some c =>
    obtain ⟨u, hu, hcu⟩ := h.child hc
    have hu : partAt v s = some u := hu
    rw [hu]; exact .some hcu

theorem sorted_of_represents {entries : List (String × Value)} (h : db.Represents old (.map entries)) :
    Entries.Sorted entries := by
  obtain ⟨row, -, hrow⟩ := h.exists_row
  exact (Holds.map_iff.1 hrow).2

/-- The copy has the original's edges but for the one left out. -/
theorem newMapWithout_adds (hgood : Good Value db.graph) (old : NodeId) (name : String) :
    ∃ id db₁, db.newMapWithout old name = .ok (id, db₁) ∧ Adds db db₁ id ⟨MAP, none⟩ ∧
      (∀ other, db₁.graph.child id (.key other) = if other = name then none else db.graph.child old (.key other)) ∧
      ∀ i, db₁.graph.child id (.index i) = none := by
  obtain ⟨hstart, hnone⟩ := Adds.start hgood.clean MAP none
  have hl : ((((db.insertNode MAP none).2.mapEdges.rows old).toList.filter fun edge => edge.1 ≠ name).map Prod.fst).Nodup :=
    List.Nodup.sublist (List.filter_sublist.map Prod.fst) (nodup_keys_toList _)
  obtain ⟨db₁, hdb₁, hadds, hkeys, hindex⟩ := hstart.insertMapEdges hnone hl
  refine ⟨_, db₁, ?_, hadds, fun other => Option.ext fun c => ?_, hindex⟩
  · unfold newMapWithout
    simp only [insertNode] at hdb₁ ⊢
    rw [hdb₁]; rfl
  · rw [hkeys, List.mem_filter, ExtTreeMap.mem_toList_iff_getElem?_eq_some, decide_eq_true_eq]
    by_cases ho : other = name
    · simp [ho]
    · rw [if_neg ho]
      exact and_iff_left ho

theorem newMapWithout_removing (hgood : Good Value db.graph) {entries : List (String × Value)}
    (hold : db.Represents old (.map entries)) (name : String) :
    ∃ id db', db.newMapWithout old name = .ok (id, db') ∧ Grows db db' ∧
      db'.Represents id (.map (Entries.remove entries name)) := by
  obtain ⟨id, db₁, hdb₁, hadds, hkeys, hindex⟩ := newMapWithout_adds hgood old name
  refine ⟨id, db₁, hdb₁, hadds.represents hgood (.map ((sorted_of_represents hold).remove name)) fun s => ?_⟩
  cases s with
  | key other =>
    simp only [hkeys, partAt, Entries.get_remove]
    by_cases ho : other = name
    · rw [if_pos ho, if_pos ho.symm]; exact .none
    · rw [if_neg ho, if_neg (Ne.symm ho)]
      exact rel_of_represents hold (.key other)
  | index i => rw [hindex]; exact .none

theorem newMapWithout_inserting (hgood : Good Value db.graph) {entries : List (String × Value)}
    (hold : db.Represents old (.map entries)) (hc : db.Represents c u) (name : String) :
    ∃ id db₁ db', db.newMapWithout old name = .ok (id, db₁) ∧ db₁.insertMapEdge id name c = .ok db' ∧ Grows db db' ∧
      db'.Represents id (.map (Entries.insert entries name u)) := by
  obtain ⟨id, db₁, hdb₁, hadds, hkeys, hindex⟩ := newMapWithout_adds hgood old name
  obtain ⟨db', hdb', hadds', hchild⟩ := hadds.insertMapEdge (by rw [hkeys, if_pos rfl]) c
  refine ⟨id, db₁, db', hdb₁, hdb', hadds'.represents hgood (.map (sorted_of_represents hold).insert) fun s => ?_⟩
  rw [hchild]
  cases s with
  | key other =>
    simp only [Function.update_apply, Slot.key.injEq, hkeys, partAt, Entries.get_insert]
    by_cases ho : other = name
    · rw [if_pos ho, if_pos ho.symm]; exact .some hc
    · rw [if_neg ho, if_neg ho, if_neg (Ne.symm ho)]
      exact rel_of_represents hold (.key other)
  | index i =>
    rw [Function.update_of_ne (by simp), hindex]
    exact .none

/-! ## Copies of an array -/

theorem newArrayReplacing_spec (hgood : Good Value db.graph) {items : List Value} (hold : db.Represents old (.array items))
    {idx : UInt32} (hidx : idx.toNat < items.length) (hc : db.Represents c u) :
    ∃ id db', db.newArrayReplacing old idx c = .ok (id, db') ∧ Grows db db' ∧
      db'.Represents id (.array (items.set idx.toNat u)) := by
  obtain ⟨hstart, hnone⟩ := Adds.start hgood.clean ARRAY none
  have hl : ((((db.insertNode ARRAY none).2.arrayEdges.rows old).toList.filter fun edge => edge.1 ≠ idx.toNat).map
      Prod.fst).Nodup :=
    List.Nodup.sublist (List.filter_sublist.map Prod.fst) (nodup_keys_toList _)
  obtain ⟨db₁, hdb₁, hadds, hindex, hkeys⟩ := hstart.insertArrayEdges hnone hl
  have hindex : ∀ i, db₁.graph.child (Backing.rowid db.nodes) (.index i) =
      if i = idx.toNat then none else db.graph.child old (.index i) := by
    refine fun i => Option.ext fun c => ?_
    rw [hindex, List.mem_filter, ExtTreeMap.mem_toList_iff_getElem?_eq_some, decide_eq_true_eq]
    by_cases hi : i = idx.toNat
    · simp [hi]
    · rw [if_neg hi]
      exact and_iff_left hi
  obtain ⟨db', hdb', hadds', hchild⟩ := hadds.insertArrayEdge (by rw [hindex, if_pos rfl]) c
  refine ⟨_, db', ?_, hadds'.represents hgood .array fun s => ?_⟩
  · unfold newArrayReplacing
    simp only [insertNode] at hdb₁ hdb' ⊢
    rw [hdb₁, Res.ok_bind, hdb']; rfl
  · rw [hchild]
    cases s with
    | key name =>
      rw [Function.update_of_ne (by simp), hkeys]
      exact .none
    | index i =>
      simp only [Function.update_apply, Slot.index.injEq, hindex, partAt, List.getElem?_set]
      by_cases hi : i = idx.toNat
      · rw [if_pos hi, if_pos hi.symm, if_pos hidx]; exact .some hc
      · rw [if_neg hi, if_neg hi, if_neg (Ne.symm hi)]
        exact rel_of_represents hold (.index i)

theorem newArrayRemoving_spec (hgood : Good Value db.graph) {items : List Value} (hold : db.Represents old (.array items))
    (idx : UInt32) : ∃ id db', db.newArrayRemoving old idx = .ok (id, db') ∧ Grows db db' ∧
      db'.Represents id (.array (items.eraseIdx idx.toNat)) := by
  obtain ⟨hstart, hnone⟩ := Adds.start hgood.clean ARRAY none
  have hl : (((((db.insertNode ARRAY none).2.arrayEdges.rows old).toList.filter fun edge => edge.1 ≠ idx.toNat).map fun edge =>
      (if idx.toNat < edge.1 then edge.1 - 1 else edge.1, edge.2)).map Prod.fst).Nodup := by
    have hnodup := List.Nodup.sublist (List.filter_sublist (p := fun edge => edge.1 ≠ idx.toNat).map Prod.fst)
      (nodup_keys_toList ((db.insertNode ARRAY none).2.arrayEdges.rows old))
    rw [List.map_map]
    -- past the index left out the shift maps distinct indices to distinct ones
    have hinj := List.Nodup.map_on (f := fun i => if idx.toNat < i then i - 1 else i) (fun i hi j hj hij => by
      obtain ⟨e, he, rfl⟩ := List.mem_map.1 hi
      obtain ⟨f, hf, rfl⟩ := List.mem_map.1 hj
      have he := (List.mem_filter.1 he).2
      have hf := (List.mem_filter.1 hf).2
      simp only [decide_eq_true_eq, ne_eq] at he hf hij
      split at hij <;> split at hij <;> omega) hnodup
    rwa [List.map_map] at hinj
  obtain ⟨db₁, hdb₁, hadds, hindex, hkeys⟩ := hstart.insertArrayEdges hnone hl
  refine ⟨_, db₁, ?_, hadds.represents hgood .array fun s => ?_⟩
  · unfold newArrayRemoving
    simp only [insertNode] at hdb₁ ⊢
    rw [hdb₁]; rfl
  · cases s with
    | key name => rw [hkeys]; exact .none
    | index i =>
      have hchild : db₁.graph.child (Backing.rowid db.nodes) (.index i) =
          db.graph.child old (.index (if i < idx.toNat then i else i + 1)) := by
        refine Option.ext fun c => ?_
        rw [hindex, List.mem_map]
        constructor
        · rintro ⟨⟨j, c'⟩, hj, heq⟩
          obtain ⟨hj, hne⟩ := List.mem_filter.1 hj
          rw [ExtTreeMap.mem_toList_iff_getElem?_eq_some] at hj
          simp only [Prod.mk.injEq, decide_eq_true_eq, ne_eq] at heq hne
          obtain ⟨rfl, rfl⟩ := heq
          have hji : (if (if idx.toNat < j then j - 1 else j) < idx.toNat then (if idx.toNat < j then j - 1 else j)
              else (if idx.toNat < j then j - 1 else j) + 1) = j := by
            split <;> split <;> omega
          rw [hji]; exact hj
        · intro hc
          refine ⟨(if i < idx.toNat then i else i + 1, c), List.mem_filter.2 ⟨?_, ?_⟩, ?_⟩
          · exact ExtTreeMap.mem_toList_iff_getElem?_eq_some.2 hc
          · simp only [decide_eq_true_eq, ne_eq]
            split <;> omega
          · simp only [Prod.mk.injEq, and_true]
            split <;> split <;> omega
      rw [hchild]
      simp only [partAt, List.getElem?_eraseIdx]
      have hrel := rel_of_represents hold (.index (if i < idx.toNat then i else i + 1))
      split at hrel <;> rename_i hi
      · rw [if_pos hi, if_pos hi]; exact hrel
      · rw [if_neg hi, if_neg hi]; exact hrel

theorem newArrayAppending_spec (hgood : Good Value db.graph) {items : List Value} (hold : db.Represents old (.array items))
    (hc : db.Represents c u) : ∃ id db', db.newArrayAppending old c = .ok (id, db') ∧ Grows db db' ∧
      db'.Represents id (.array (items ++ [u])) := by
  obtain ⟨hstart, hnone⟩ := Adds.start hgood.clean ARRAY none
  obtain ⟨db₁, hdb₁, hadds, hindex, hkeys⟩ := hstart.insertArrayEdges hnone
    (nodup_keys_toList ((db.insertNode ARRAY none).2.arrayEdges.rows old))
  have hindex : ∀ i, db₁.graph.child (Backing.rowid db.nodes) (.index i) = db.graph.child old (.index i) := by
    refine fun i => Option.ext fun c => ?_
    rw [hindex, ExtTreeMap.mem_toList_iff_getElem?_eq_some]
    rfl
  have hlen : (db.arrayEdges.rows old).size = items.length := by
    rw [← ExtTreeMap.length_keys, keys_arrayEdges hold, List.length_range]
  have hfree : db.graph.child old (.index items.length) = none :=
    hold.part_none (s := Slot.index items.length) (List.getElem?_eq_none (Nat.le_refl _))
  obtain ⟨db', hdb', hadds', hchild⟩ := hadds.insertArrayEdge ((hindex items.length).trans hfree) c
  refine ⟨_, db', ?_, hadds'.represents hgood .array fun s => ?_⟩
  · unfold newArrayAppending
    rw [nodeKind_of_unfolds hold, Res.ok_bind]
    simp only [kind, hlen]
    simp only [insertNode] at hdb₁ hdb' ⊢
    rw [hdb₁, Res.ok_bind, hdb']; rfl
  · rw [hchild]
    cases s with
    | key name =>
      rw [Function.update_of_ne (by simp), hkeys]
      exact .none
    | index i =>
      simp only [Function.update_apply, Slot.index.injEq, hindex, partAt]
      by_cases hi : i = items.length
      · subst hi
        simp only [if_true, List.getElem?_concat_length]
        exact .some hc
      · rw [if_neg hi]
        have happend : (items ++ [u])[i]? = items[i]? := by
          rw [List.getElem?_append]
          split
          · rfl
          · rw [List.getElem?_eq_none (by simp; omega), List.getElem?_eq_none (by omega)]
        rw [happend]
        exact rel_of_represents hold (.index i)

/-- An array of one entry, under a node of its own. -/
theorem singleton_spec (hgood : Good Value db.graph) (hc : db.Represents c u) :
    ∃ db', (db.insertNode ARRAY none).2.insertArrayEdge (Backing.rowid db.nodes) 0 c = .ok db' ∧ Grows db db' ∧
      db'.Represents (Backing.rowid db.nodes) (.array [u]) := by
  obtain ⟨hstart, hnone⟩ := Adds.start hgood.clean ARRAY none
  obtain ⟨db', hdb', hadds', hchild⟩ := hstart.insertArrayEdge (hnone (.index 0)) c
  refine ⟨db', hdb', hadds'.represents hgood .array fun s => ?_⟩
  rw [hchild]
  cases s with
  | key name =>
    rw [Function.update_of_ne (by simp), hnone]
    exact .none
  | index i =>
    simp only [Function.update_apply, Slot.index.injEq, hnone, partAt]
    cases i with
    | zero => exact .some hc
    | succ i => exact .none

/-! ## Amended copies -/

theorem incrementLeaf_spec (hgood : Good Value db.graph) {n sum : Int64} (hold : db.Represents old (.int n))
    {inc : IncrementDecrement} (hsum : inc.apply n = some sum) :
    ∃ id db', db.incrementLeaf old inc = .ok (id, db') ∧ Grows db db' ∧ db'.Represents id (.int sum) := by
  obtain ⟨leaf, hn, hleaf⟩ := node_of_unfolds hold
  obtain ⟨bytes, rfl, hdec⟩ := hleaf rfl
  obtain ⟨bytes', henc, hstored⟩ := insertLeaf_stored hgood.clean (v := .int sum) rfl
  refine ⟨_, _, ?_, hstored.grows hgood, hstored.represents⟩
  unfold incrementLeaf
  rw [hn, Res.ok_bind]
  simp only [kind, Res.okOr_some, Res.ok_bind, hdec, Res.ofExcept_ok, hsum, Res.expect_some, henc]
  rfl

/-- The edges of a map under a new node, less those whose child `predicate` matches. -/
theorem retainEntries_adds {id : NodeId} {row : NodeRow} (predicate : Predicate) : ∀ {rest : List (String × NodeId)} {db₁ : SqliteStorage},
    Adds db db₁ id row → (rest.map Prod.fst).Nodup → (∀ e ∈ rest, db₁.graph.child id (.key e.1) = none) →
    (∀ e ∈ rest, ∃ u, db.Represents e.2 u) →
    ∃ db₂, retainEntries id predicate rest db₁ = .ok db₂ ∧ Adds db db₂ id row ∧
      (∀ name c, db₂.graph.child id (.key name) = some c ↔ db₁.graph.child id (.key name) = some c ∨
        (name, c) ∈ rest ∧ ∃ u, db.Represents c u ∧ predicate.matches u = false) ∧
      ∀ i, db₂.graph.child id (.index i) = db₁.graph.child id (.index i)
  | [], db₁, h, _, _, _ => ⟨db₁, rfl, h, fun name c => by simp, fun _ => rfl⟩
  | (name, c) :: rest, db₁, h, hnodup, hfree, hrest => by
    rw [List.map_cons, List.nodup_cons] at hnodup
    obtain ⟨u, hu⟩ := hrest (name, c) List.mem_cons_self
    have hvalue : db₁.valueOf c = .ok u := valueOf_of_unfolds (hu.extends h.extends_)
    have hrest' : ∀ e ∈ rest, ∃ u, db.Represents e.2 u := fun e he => hrest e (List.mem_cons_of_mem _ he)
    unfold retainEntries
    rw [hvalue, Res.ok_bind]
    cases hm : predicate.matches u with
    | true =>
      obtain ⟨db₂, hdb₂, hadds, hkeys, hindex⟩ := retainEntries_adds predicate h hnodup.2
        (fun e he => hfree e (List.mem_cons_of_mem _ he)) hrest'
      refine ⟨db₂, hdb₂, hadds, fun other d => ?_, hindex⟩
      rw [hkeys, List.mem_cons]
      refine or_congr_right ⟨fun hd => ⟨.inr hd.1, hd.2⟩, ?_⟩
      rintro ⟨heq | hmem, hd⟩
      · cases heq
        obtain ⟨u', hu', hm'⟩ := hd
        rw [hu.unique hu', hm'] at hm
        cases hm
      · exact ⟨hmem, hd⟩
    | false =>
      obtain ⟨db₂, hdb₂, hadds₂, hchild⟩ := h.insertMapEdge (hfree (name, c) List.mem_cons_self) c
      have hfree' : ∀ e ∈ rest, db₂.graph.child id (.key e.1) = none := by
        intro e he
        have hne : e.1 ≠ name := fun hne => hnodup.1 (List.mem_map.2 ⟨e, he, hne⟩)
        rw [hchild, Function.update_of_ne (by simpa using hne)]
        exact hfree e (List.mem_cons_of_mem _ he)
      obtain ⟨db₃, hdb₃, hadds, hkeys, hindex⟩ := retainEntries_adds predicate hadds₂ hnodup.2 hfree' hrest'
      refine ⟨db₃, ?_, hadds, fun other d => ?_, fun i => ?_⟩
      · simp only [Bool.false_eq_true, if_false, hdb₂, Res.ok_bind]
        exact hdb₃
      · simp only [hkeys, hchild, List.mem_cons, Prod.mk.injEq, Function.update_apply, Slot.key.injEq]
        by_cases ho : other = name
        · subst ho
          have hnot : ∀ d, (other, d) ∉ rest := fun d hd => hnodup.1 (List.mem_map.2 ⟨(other, d), hd, rfl⟩)
          rw [if_pos rfl, hfree (other, c) List.mem_cons_self]
          simp only [Option.some.injEq, hnot, false_and, or_false, reduceCtorEq, false_or, true_and]
          constructor
          · rintro rfl
            exact ⟨rfl, u, hu, hm⟩
          · rintro ⟨rfl, -⟩
            rfl
        · rw [if_neg ho]
          simp only [ho, false_and, false_or]
      · rw [hindex, hchild, Function.update_of_ne (by simp)]

/-- The children of an array, in order, represent its items. -/
theorem arrayChildren {items : List Value} (hold : db.Represents old (.array items)) :
    List.Forall₂ db.Represents ((db.arrayEdges.rows old).toList.map Prod.snd) items := by
  have hkeys := keys_arrayEdges hold
  rw [← ExtTreeMap.map_fst_toList_eq_keys] at hkeys
  have hlen : (db.arrayEdges.rows old).toList.length = items.length := by
    simpa using congrArg List.length hkeys
  refine List.forall₂_iff_get.2 ⟨by simpa using hlen, fun i hi hi' => ?_⟩
  have hil : i < (db.arrayEdges.rows old).toList.length := by simpa using hi
  have hfst : (db.arrayEdges.rows old).toList[i].1 = i := by
    have hi := congrArg (fun l => l[i]?) hkeys
    simp only [List.getElem?_map, List.getElem?_eq_getElem hil, List.getElem?_range hi'] at hi
    exact Option.some.inj hi
  have hmem : (i, (db.arrayEdges.rows old).toList[i].2) ∈ (db.arrayEdges.rows old).toList := by
    have := List.getElem_mem hil
    rwa [← Prod.mk.eta (p := (db.arrayEdges.rows old).toList[i]), hfst] at this
  obtain ⟨u, hu, hcu⟩ := hold.child (s := Slot.index i) (ExtTreeMap.mem_toList_iff_getElem?_eq_some.1 hmem)
  have hu : items[i]? = some u := hu
  rw [List.getElem?_eq_getElem hi'] at hu
  cases hu
  simpa using hcu

theorem keptItems_spec (predicate : Predicate) : ∀ {children : List NodeId} {items : List Value},
    List.Forall₂ db.Represents children items →
    ∃ kept, db.keptItems predicate children = .ok kept ∧
      List.Forall₂ db.Represents kept (items.filter fun entry => !predicate.matches entry)
  | [], _, .nil => ⟨[], rfl, .nil⟩
  | c :: children, _, .cons (b := u) hc hrest => by
    obtain ⟨kept, hkept, hrel⟩ := keptItems_spec predicate hrest
    unfold keptItems
    rw [valueOf_of_unfolds hc, Res.ok_bind, hkept, Res.ok_bind]
    cases hm : predicate.matches u with
    | true =>
      refine ⟨kept, rfl, ?_⟩
      rw [List.filter_cons_of_neg (by simpa using hm)]
      exact hrel
    | false =>
      refine ⟨c :: kept, rfl, ?_⟩
      rw [List.filter_cons_of_pos (by simpa using hm)]
      exact .cons hc hrel

omit [Externals] [Backing] in
/-- Children put under a new node one after another. -/
theorem linkItems_adds {id : NodeId} {row : NodeRow} : ∀ (rest pre : List NodeId) {db₁ : SqliteStorage}, Adds db db₁ id row →
    (∀ i, db₁.graph.child id (.index i) = pre[i]?) →
    ∃ db₂, linkItems id pre.length rest db₁ = .ok db₂ ∧ Adds db db₂ id row ∧
      (∀ i, db₂.graph.child id (.index i) = (pre ++ rest)[i]?) ∧
      ∀ name, db₂.graph.child id (.key name) = db₁.graph.child id (.key name)
  | [], pre, db₁, h, hpre => ⟨db₁, rfl, h, by simpa using hpre, fun _ => rfl⟩
  | c :: rest, pre, db₁, h, hpre => by
    have hfree : db₁.graph.child id (.index pre.length) = none := by
      rw [hpre]
      exact List.getElem?_eq_none (Nat.le_refl _)
    obtain ⟨db₂, hdb₂, hadds, hchild⟩ := h.insertArrayEdge hfree c
    obtain ⟨db₃, hdb₃, hadds', hindex, hkeys⟩ := linkItems_adds rest (pre ++ [c]) hadds fun i => by
      simp only [hchild, Function.update_apply, Slot.index.injEq, hpre, List.getElem?_append]
      by_cases hi : i = pre.length
      · simp [hi]
      · rw [if_neg hi]
        split
        · rfl
        · rw [List.getElem?_eq_none (by omega), List.getElem?_eq_none (by simp; omega)]
    refine ⟨db₃, ?_, hadds', by simpa using hindex, fun name => ?_⟩
    · unfold linkItems
      rw [hdb₂, Res.ok_bind]
      simpa using hdb₃
    · rw [hkeys, hchild, Function.update_of_ne (by simp)]

theorem newContainerRetaining_map (hgood : Good Value db.graph) {entries : List (String × Value)}
    (hold : db.Represents old (.map entries)) (predicate : Predicate) :
    ∃ id db', db.newContainerRetaining old predicate = .ok (id, db') ∧ Grows db db' ∧
      db'.Represents id (.map (Entries.retain entries fun entry => !predicate.matches entry)) := by
  obtain ⟨hstart, hnone⟩ := Adds.start hgood.clean MAP none
  have hchildren : ∀ e ∈ (db.mapEdges.rows old).toList, ∃ u, db.Represents e.2 u := by
    intro e he
    obtain ⟨u, -, hu⟩ := hold.child (s := Slot.key e.1) (ExtTreeMap.mem_toList_iff_getElem?_eq_some.1 he)
    exact ⟨u, hu⟩
  obtain ⟨db', hdb', hadds, hkeys, hindex⟩ := retainEntries_adds predicate hstart (nodup_keys_toList (db.mapEdges.rows old))
    (fun e _ => hnone _) hchildren
  have hs := sorted_of_represents hold
  have hs' : Entries.Sorted (Entries.retain entries fun entry => !predicate.matches entry) := hs.filter _
  refine ⟨_, db', ?_, hadds.represents hgood (.map hs') fun s => ?_⟩
  · unfold newContainerRetaining
    rw [nodeKind_of_unfolds hold, Res.ok_bind]
    simp only [kind]
    simp only [insertNode] at hdb' ⊢
    rw [hdb']; rfl
  · cases s with
    | key name =>
      have hget : ∀ u, Entries.get (Entries.retain entries fun entry => !predicate.matches entry) name = some u ↔
          Entries.get entries name = some u ∧ predicate.matches u = false := by
        intro u
        rw [hs'.get_eq_some, hs.get_eq_some]
        simp [Entries.retain]
      show Option.Rel _ _ (Entries.get _ _)
      cases hc : db'.graph.child (Backing.rowid db.nodes) (.key name) with
      | some c =>
        rw [hkeys, hnone] at hc
        obtain ⟨hmem, u, hu, hm⟩ := hc.resolve_left (by simp)
        obtain ⟨u', hu', hcu'⟩ := hold.child (s := Slot.key name) (ExtTreeMap.mem_toList_iff_getElem?_eq_some.1 hmem)
        rw [hu.unique hcu'] at hm
        rw [(hget u').2 ⟨hu', hm⟩]
        exact .some hcu'
      | none =>
        cases hget' : Entries.get (Entries.retain entries fun entry => !predicate.matches entry) name with
        | none => exact .none
        | some u =>
          obtain ⟨hu, hm⟩ := (hget u).1 hget'
          obtain ⟨c, hcu, hu⟩ := hold.part (s := Slot.key name) hu
          have hsome := (hkeys name c).2 (.inr ⟨ExtTreeMap.mem_toList_iff_getElem?_eq_some.2 hcu, u, hu, hm⟩)
          rw [hc] at hsome
          cases hsome
    | index i =>
      rw [hindex, hnone]
      exact .none

theorem newContainerRetaining_array (hgood : Good Value db.graph) {items : List Value}
    (hold : db.Represents old (.array items)) (predicate : Predicate) :
    ∃ id db', db.newContainerRetaining old predicate = .ok (id, db') ∧ Grows db db' ∧
      db'.Represents id (.array (items.filter fun entry => !predicate.matches entry)) := by
  obtain ⟨kept, hkept, hrel⟩ := keptItems_spec predicate (arrayChildren hold)
  obtain ⟨hstart, hnone⟩ := Adds.start hgood.clean ARRAY none
  obtain ⟨db', hdb', hadds, hindex, hkeys⟩ := linkItems_adds kept [] hstart fun i => by
    rw [hnone]; rfl
  refine ⟨_, db', ?_, hadds.represents hgood .array fun s => ?_⟩
  · unfold newContainerRetaining
    rw [nodeKind_of_unfolds hold, Res.ok_bind]
    simp only [kind]
    rw [hkept, Res.ok_bind]
    simp only [insertNode, List.length_nil] at hdb' ⊢
    rw [hdb']; rfl
  · cases s with
    | key name =>
      rw [hkeys, hnone]
      exact .none
    | index i =>
      rw [hindex, List.nil_append]
      show Option.Rel _ _ ((items.filter _)[i]?)
      cases hi : kept[i]? with
      | none =>
        rw [List.getElem?_eq_none (by rw [← hrel.length_eq]; exact List.getElem?_eq_none_iff.1 hi)]
        exact .none
      | some c =>
        obtain ⟨hi', rfl⟩ := List.getElem?_eq_some_iff.1 hi
        have hi'' := hrel.length_eq ▸ hi'
        rw [List.getElem?_eq_getElem hi'']
        exact .some ((List.forall₂_iff_get.1 hrel).2 i hi' hi'')

end Copies

end SqliteStorage

end IrohLotus.Storage
