/-
Values as the SQLite backend stores them. The rows of `nodes` and the two tables of edges are one
graph, and a node represents a value when it unfolds to it; every read of the backend is shown to be
the read of the value the node represents. A read down a tree never meets a node twice, so it goes
through no more levels than there are nodes.
-/
import IrohLotus.Lib.Unfold
import IrohLotus.Storage.Sqlite
import IrohLotus.Storage.Walk
import IrohLotus.Wire.Order

namespace IrohLotus.Storage

open Std Outcome Unfold Relational IrohLotus.Wire

/-! ## Parts of a value -/

/-- Where a part of a container stands: an array is indexed by any number, not only by a path's. -/
inductive Slot where
  | key (name : String)
  | index (i : Nat)
deriving DecidableEq

/-- The slot a segment of a path names. -/
def Slot.of : Subkey → Slot
  | .key name => .key name
  | .index i => .index i.toNat

/-- The part of a value at a slot. -/
def partAt : Value → Slot → Option Value
  | .map entries, .key name => Entries.get entries name
  | .array items, .index i => items[i]?
  | _, _ => none

theorem partAt_of (v : Value) (segment : Subkey) : partAt v (.of segment) = v.child segment := by
  cases v <;> cases segment <;> rfl

theorem partAt_leaf {v : Value} (h : kind v = .leaf) (s : Slot) : partAt v s = none := by
  cases v <;> first | rfl | cases h

theorem sizeOf_partAt {v u : Value} {s : Slot} (h : partAt v s = some u) : sizeOf u < sizeOf v := by
  cases v <;> cases s <;> simp only [partAt, reduceCtorEq] at h
  case array.index items i =>
    have := List.sizeOf_lt_of_mem (List.mem_of_getElem? h)
    simp only [Value.array.sizeOf_spec]
    omega
  case map.key entries name =>
    have := List.sizeOf_lt_of_mem (Entries.mem_of_get h)
    simp only [Prod.mk.sizeOf_spec] at this
    simp only [Value.map.sizeOf_spec]
    omega

section

variable [Externals] [Backing]

/-- The row of a node is the top of a value: a container's names its kind, a leaf's carries its encoding. -/
inductive Holds : NodeRow → Value → Prop
  | map {entries : List (String × Value)} : Entries.Sorted entries → Holds ⟨MAP, none⟩ (.map entries)
  | array {items : List Value} : Holds ⟨ARRAY, none⟩ (.array items)
  | leaf {v : Value} {bytes : Bytes.Blob} : kind v = .leaf → Backing.decodeValue bytes = .ok v → Holds ⟨LEAF, some bytes⟩ v

theorem Holds.kindFrom {row : NodeRow} {v : Value} (h : Holds row v) : kindFrom row.kind = .ok (kind v) := by
  cases h with
  | map => rfl
  | array => rfl
  | leaf hk => rw [hk]; rfl

theorem Holds.map_iff {row : NodeRow} {entries : List (String × Value)} :
    Holds row (.map entries) ↔ row = ⟨MAP, none⟩ ∧ Entries.Sorted entries := by
  constructor
  · intro h
    cases h with
    | map hs => exact ⟨rfl, hs⟩
    | leaf hk => cases hk
  · rintro ⟨rfl, hs⟩
    exact .map hs

theorem Holds.array_iff {row : NodeRow} {items : List Value} : Holds row (.array items) ↔ row = ⟨ARRAY, none⟩ := by
  constructor
  · intro h
    cases h with
    | array => rfl
    | leaf hk => cases hk
  · rintro rfl
    exact .array

theorem Holds.leaf_iff {row : NodeRow} {v : Value} (hk : kind v = .leaf) :
    Holds row v ↔ ∃ bytes, row = ⟨LEAF, some bytes⟩ ∧ Backing.decodeValue bytes = .ok v := by
  constructor
  · intro h
    cases h with
    | map => cases hk
    | array => cases hk
    | leaf _ hd => exact ⟨_, rfl, hd⟩
  · rintro ⟨bytes, rfl, hd⟩
    exact .leaf hk hd

/-- One row tops values of one kind. -/
theorem Holds.same_kind {row : NodeRow} {v u : Value} (h : Holds row v) (h' : Holds row u) : kind v = kind u :=
  Except.ok.inj (h.kindFrom.symm.trans h'.kindFrom)

theorem Holds.ext {row : NodeRow} {v u : Value} (h : Holds row v) (h' : Holds row u)
    (hparts : ∀ s, partAt v s = partAt u s) : v = u := by
  have hk := h.same_kind h'
  cases h with
  | @map entries hs =>
    cases u <;> try cases hk
    case map entries' =>
      rw [hs.ext (Holds.map_iff.1 h').2 fun name => hparts (.key name)]
  | @array items =>
    cases u <;> try cases hk
    case array items' =>
      rw [List.ext_getElem? fun i => hparts (.index i)]
  | @leaf v bytes hl hd =>
    obtain ⟨bytes', hrow, hd'⟩ := (Holds.leaf_iff (hk.symm.trans hl)).1 h'
    cases hrow
    rw [hd] at hd'
    exact Except.ok.inj hd'

instance : Shape Value Slot NodeRow where
  part := partAt
  Holds := Holds
  wf := Subrelation.wf (fun ⟨_, h⟩ => sizeOf_partAt h) (measure sizeOf).wf
  ext := Holds.ext

end

namespace SqliteStorage

/-- The rows of `nodes` with the edges between them. -/
def graph (db : SqliteStorage) : Graph NodeId Slot NodeRow where
  row id := db.nodes[id]?
  child id
    | .key name => (db.mapEdges.rows id)[name]?
    | .index i => (db.arrayEdges.rows id)[i]?

variable [Externals] [Backing]

/-- The node `id` represents `v`. -/
abbrev Represents (db : SqliteStorage) (id : NodeId) (v : Value) : Prop := Unfolds db.graph (fun _ => True) id v

variable {db : SqliteStorage} {id : NodeId} {v : Value} {R : NodeId → Prop}

/-! ## Reading rows -/

theorem node_of_unfolds (h : Unfolds db.graph R id v) : ∃ leaf, db.node id = .ok (kind v, leaf) ∧
    (kind v = .leaf → ∃ bytes, leaf = some bytes ∧ Backing.decodeValue bytes = .ok v) := by
  obtain ⟨row, hrow, hv⟩ := h.exists_row
  have hrow : db.nodes[id]? = some row := hrow
  refine ⟨row.leaf, ?_, fun hk => ?_⟩
  · unfold node
    rw [hrow, Res.okOr_some, Res.ok_bind, hv.kindFrom]
    rfl
  · obtain ⟨bytes, rfl, hd⟩ := (Holds.leaf_iff hk).1 hv
    exact ⟨bytes, rfl, hd⟩

theorem nodeKind_of_unfolds (h : Unfolds db.graph R id v) : db.nodeKind id = .ok (kind v) := by
  obtain ⟨leaf, hn, -⟩ := node_of_unfolds h
  unfold nodeKind
  rw [hn]; rfl

/-- The edges of a map node are named by the keys of its map, in order. -/
theorem keys_mapEdges {entries : List (String × Value)} (h : Unfolds db.graph R id (Value.map entries)) :
    (db.mapEdges.rows id).keys = entries.map Prod.fst := by
  obtain ⟨row, -, hv⟩ := h.exists_row
  have hs : Entries.Sorted entries := (Holds.map_iff.1 hv).2
  have hkeys : (db.mapEdges.rows id).keys.Pairwise (· < ·) :=
    ExtTreeMap.ordered_keys.imp Entries.lt_of_compare
  refine hkeys.eq_of_mem_iff hs fun name => ?_
  rw [ExtTreeMap.mem_keys, ExtTreeMap.mem_iff_isSome_getElem?, ← Entries.isSome_get]
  exact Eq.congr_left (h.isSome_child (Slot.key name))

/-- The edges of an array node are numbered from zero, as many as its array has items. -/
theorem keys_arrayEdges {items : List Value} (h : Unfolds db.graph R id (Value.array items)) :
    (db.arrayEdges.rows id).keys = List.range items.length := by
  have hkeys : (db.arrayEdges.rows id).keys.Pairwise (· < ·) :=
    ExtTreeMap.ordered_keys.imp fun h => Nat.compare_eq_lt.1 h
  refine hkeys.eq_of_mem_iff List.pairwise_lt_range fun i => ?_
  rw [ExtTreeMap.mem_keys, ExtTreeMap.mem_iff_isSome_getElem?, List.mem_range]
  have hi : ((db.arrayEdges.rows id)[i]?).isSome = (items[i]?).isSome := h.isSome_child (Slot.index i)
  rw [hi, isSome_getElem?]

theorem metaOfNode_of_unfolds (h : Unfolds db.graph R id v) : db.metaOfNode id = .ok (metaOf v) := by
  unfold metaOfNode
  rw [nodeKind_of_unfolds h, Res.ok_bind]
  cases v with
  | map entries => simp only [kind, keys_mapEdges h]; rfl
  | array items => simp only [kind, ← ExtTreeMap.length_keys, keys_arrayEdges h, List.length_range]; rfl
  | string | int | bool | key => rfl

/-! ## Reading trees -/

theorem valueOfWithin_of_unfolds : ∀ {fuel : Nat} {nodes : Finset NodeId} {id : NodeId} {v : Value},
    Unfolds db.graph (· ∈ nodes) id v → nodes.card ≤ fuel → db.valueOfWithin fuel id = .ok v
  | 0, nodes, id, v, h, hcard => by
    have := Finset.card_pos.2 ⟨id, h.region⟩
    omega
  | fuel + 1, nodes, id, v, h, hcard => by
    -- a child is read through the nodes without its parent
    have hchild : ∀ s c, db.graph.child id s = some c → ∃ u, partAt v s = some u ∧ db.valueOfWithin fuel c = .ok u := by
      intro s c hc
      obtain ⟨u, hu, hcu⟩ := h.child_avoids hc
      have hin : Unfolds db.graph (· ∈ nodes.erase id) c u := hcu.mono fun n hn => Finset.mem_erase.2 ⟨hn.2, hn.1⟩
      refine ⟨u, hu, valueOfWithin_of_unfolds hin ?_⟩
      rw [Finset.card_erase_of_mem h.region]
      omega
    obtain ⟨leaf, hn, hleaf⟩ := node_of_unfolds h
    unfold valueOfWithin
    rw [hn, Res.ok_bind]
    cases v with
    | map entries =>
      have hs : Entries.Sorted entries := (Holds.map_iff.1 h.exists_row.choose_spec.2).2
      have hlist : (db.mapEdges.rows id).toList.map (fun e => (e.1, ((Entries.get entries e.1).getD (.bool false)))) = entries := by
        have hmap := congrArg (List.map fun name => (name, (Entries.get entries name).getD (.bool false))) (keys_mapEdges h)
        rw [← ExtTreeMap.map_fst_toList_eq_keys, List.map_map, List.map_map] at hmap
        refine (hmap.trans (List.map_congr_left fun e he => ?_)).trans (List.map_id entries)
        simp only [Function.comp, hs.get_of_mem he]
        rfl
      simp only [kind]
      rw [Res.mapM_of_ok (g := fun e => (e.1, (Entries.get entries e.1).getD (.bool false))), Res.ok_bind, hlist,
        Entries.Sorted.collect (by simpa using hs)]
      · rfl
      · rintro ⟨name, c⟩ he
        obtain ⟨u, hu, hcu⟩ := hchild (.key name) c (ExtTreeMap.mem_toList_iff_getElem?_eq_some.1 he)
        have hu : Entries.get entries name = some u := hu
        simp only [hcu, hu]
        rfl
    | array items =>
      have hlist : (db.arrayEdges.rows id).toList.map (fun e => (items[e.1]?).getD (.bool false)) = items := by
        have hmap := congrArg (List.map fun i => (items[i]?).getD (.bool false)) (keys_arrayEdges h)
        rw [← ExtTreeMap.map_fst_toList_eq_keys, List.map_map] at hmap
        refine hmap.trans (List.ext_getElem (by simp) fun i hi hi' => ?_)
        simp [hi']
      simp only [kind]
      rw [Res.mapM_of_ok (g := fun e => (items[e.1]?).getD (.bool false)), Res.ok_bind, hlist]
      · rfl
      · rintro ⟨i, c⟩ he
        obtain ⟨u, hu, hcu⟩ := hchild (.index i) c (ExtTreeMap.mem_toList_iff_getElem?_eq_some.1 he)
        have hu : items[i]? = some u := hu
        simp only [hcu, hu]
        rfl
    | string | int | bool | key =>
      obtain ⟨bytes, rfl, hd⟩ := hleaf rfl
      simp only [kind, Res.okOr_some, Res.ok_bind, hd, Res.ofExcept_ok]

/-- A node reads back as the value it represents. -/
theorem valueOf_of_unfolds (h : Unfolds db.graph R id v) : db.valueOf id = .ok v := by
  have hin : Unfolds db.graph (· ∈ db.nodes.keys.toFinset) id v := by
    refine h.in_rows.mono fun n hn => ?_
    rw [List.mem_toFinset, ExtTreeMap.mem_keys, ExtTreeMap.mem_iff_isSome_getElem?]
    exact Option.isSome_iff_ne_none.2 hn
  refine valueOfWithin_of_unfolds hin ?_
  rw [← ExtTreeMap.length_keys]
  exact List.toFinset_card_le _

/-! ## Reading paths -/

omit [Externals] [Backing] in
/-- A segment that fits the node it reached looks up the child at its slot. -/
theorem childAt_of_child (db : SqliteStorage) (id : NodeId) {segment : Subkey} (h : (v.child segment).isSome) :
    db.childAt id (kind v) segment = some (db.graph.child id (.of segment)) := by
  cases v <;> cases segment <;> simp only [Value.child, Option.isSome_none, Bool.false_eq_true] at h <;> rfl

theorem resolveFrom_of_unfolds : ∀ {path : List Subkey} {depth : Nat} {id : NodeId} {v : Value},
    Unfolds db.graph R id v → db.resolveFrom depth id path = .ok (Storage.resolveFrom depth v path)
  | [], depth, id, v, h => by
    unfold resolveFrom
    rw [nodeKind_of_unfolds h]
    cases v <;> rfl
  | segment :: rest, depth, id, v, h => by
    unfold resolveFrom
    rw [nodeKind_of_unfolds h, Res.ok_bind]
    cases hc : v.child segment with
    | some u =>
      obtain ⟨c, hcu, hu⟩ := h.part ((partAt_of v segment).trans hc)
      rw [childAt_of_child db id (by rw [hc]; rfl), hcu, resolveFrom_child hc]
      exact resolveFrom_of_unfolds hu
    | none =>
      have hnone := h.part_none ((partAt_of v segment).trans hc)
      cases v <;> cases segment <;> simp only [childAt, kind, reduceCtorEq, if_false, if_true] <;> try rfl
      case array.index items i =>
        have hi : items[i.toNat]? = none := hc
        have hchild : db.arrayChild id i = none := hnone
        simp only [hchild, Storage.resolveFrom, hi]
        rfl
      case map.key entries name =>
        have hname : Entries.get entries name = none := hc
        have hchild : db.mapChild id name = none := hnone
        simp only [hchild, Storage.resolveFrom, hname]
        rfl

/-- The walk of a path ends at the node of what the path addresses. -/
theorem walkFrom_of_unfolds : ∀ {path : List Subkey} {id : NodeId} {v : Value}, Unfolds db.graph R id v →
    ∃ n, db.walkFrom id path = .ok n ∧ (∀ u, v.walk path = some u → ∃ m, n = some m ∧ Unfolds db.graph R m u) ∧
      (v.walk path = none → n = none)
  | [], id, v, h => by
    refine ⟨some id, rfl, fun u hu => ?_, fun hu => ?_⟩
    · cases hu
      exact ⟨id, rfl, h⟩
    · cases hu
  | segment :: rest, id, v, h => by
    unfold walkFrom
    rw [nodeKind_of_unfolds h, Res.ok_bind]
    simp only [Value.walk_cons]
    cases hc : v.child segment with
    | some u =>
      obtain ⟨c, hcu, hu⟩ := h.part ((partAt_of v segment).trans hc)
      rw [childAt_of_child db id (by rw [hc]; rfl), hcu]
      exact walkFrom_of_unfolds hu
    | none =>
      have hnone := h.part_none ((partAt_of v segment).trans hc)
      refine ⟨none, ?_, fun u hu => (nomatch hu), fun _ => rfl⟩
      have hjoin : (db.childAt id (kind v) segment).join = none := by
        cases segment with
        | key name =>
          simp only [childAt]
          split
          · exact hnone
          · rfl
        | index i =>
          simp only [childAt]
          split
          · exact hnone
          · rfl
      rw [hjoin]
      rfl

end SqliteStorage

end IrohLotus.Storage
