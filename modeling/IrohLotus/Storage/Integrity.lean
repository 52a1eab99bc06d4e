/-
The node graph of a SQLite database, in every state its writes can reach: what the tables satisfy, that
a write to one version changes the reads of no other, and that a sweep takes what no kept version
reaches and nothing else. The order that makes the graph acyclic is the one of the values its nodes
unfold to, not the one its rows were inserted in.
-/
import IrohLotus.Storage.Sample
import IrohLotus.Storage.Versions

namespace IrohLotus.Storage.SqliteStorage

open Std Outcome Unfold Relational IrohLotus.Wire

variable [Externals] [Backing]

/-! ## Writes -/

/-- A transaction that writes versions. -/
inductive Write where
  | install (head : EnvelopeDigest) (namespaces : List (NamespaceKey × Namespace))
  | commit (parent head : EnvelopeDigest) (op : NamespaceOp)
  | retain (keep : List EnvelopeDigest)

/-- The values it writes are as the source has them. -/
def Write.Ordered : Write → Prop
  | .install _ namespaces => ∀ e ∈ namespaces, Wire.Ordered e.2.value
  | .commit _ _ op => op.Ordered
  | .retain _ => True

/-- What a transaction makes of the database. -/
def write (db : SqliteStorage) : Write → Res SqliteError SqliteStorage
  | .install head namespaces => db.install head namespaces
  | .commit parent head op => db.commit parent head op
  | .retain keep => pure (db.retain keep)

/-- The databases writes lead to from an empty one. A transaction that fails is rolled back. -/
inductive Reached : SqliteStorage → Prop
  | empty : Reached SqliteStorage.empty
  | write {db db' : SqliteStorage} {w : Write} : Reached db → w.Ordered → db.write w = .ok db' → Reached db'

/-! ## Invariants -/

/-- What the tables satisfy. -/
structure Integrity (db : SqliteStorage) : Prop where
  roots : ∀ (head : Bytes.Blob) (name : String) (root : NodeId),
    (db.versionNamespaces.rows head)[name]? = some root → root ∈ db.nodes
  mapEdges : ∀ (parent : NodeId) (name : String) (child : NodeId), (db.mapEdges.rows parent)[name]? = some child →
    (∃ row, db.nodes[parent]? = some row ∧ row.kind = MAP) ∧ child ∈ db.nodes
  arrayEdges : ∀ (parent : NodeId) (i : Nat) (child : NodeId), (db.arrayEdges.rows parent)[i]? = some child →
    (∃ row, db.nodes[parent]? = some row ∧ row.kind = ARRAY) ∧ child ∈ db.nodes
  kinds : ∀ (id : NodeId) (row : NodeRow), db.nodes[id]? = some row →
    (row.kind = LEAF ∧ row.leaf.isSome) ∨ (row.kind = MAP ∧ row.leaf = none) ∨ (row.kind = ARRAY ∧ row.leaf = none)
  indices : ∀ id : NodeId, ∃ n, (db.arrayEdges.rows id).keys = List.range n
  acyclic : ∀ id : NodeId, ¬ Relation.TransGen (Edge db.graph) id id
  free : ∀ id : NodeId, id ∉ db.nodes → db.mapEdges.rows id = ∅ ∧ db.arrayEdges.rows id = ∅
  valueOf : ∀ id ∈ db.nodes, ∃ v, db.valueOf id = .ok v
  resolve : ∀ head, db.containsVersion head = true → ∀ key path, ∃ r, db.resolve head key path = .ok r
  walk : ∀ head, db.containsVersion head = true → ∀ key path, ∃ n, db.walk head key path = .ok n

/-- Every read of the version at `d` gives the same from both. -/
structure SameReads (db db' : SqliteStorage) (d : EnvelopeDigest) : Prop where
  containsVersion : db'.containsVersion d = db.containsVersion d
  resolve : ∀ key path, db'.resolve d key path = db.resolve d key path
  valueAt : ∀ key path, db'.valueAt d key path = db.valueAt d key path
  metaAt : ∀ key path, db'.metaAt d key path = db.metaAt d key path
  nsAt : ∀ key, db'.nsAt d key = db.nsAt d key
  namespaces : db'.namespaces d = db.namespaces d
  namespaceKeys : db'.namespaceKeys d = db.namespaceKeys d

/-- A root of a kept version reaches the node. -/
def Kept (db : SqliteStorage) (keep : List EnvelopeDigest) (id : NodeId) : Prop :=
  ∃ d ∈ keep, ∃ (name : String) (root : NodeId),
    (db.versionNamespaces.rows (asSlice d))[name]? = some root ∧ Reach db.graph root id

variable {db db' : SqliteStorage} {versions versions' : EnvelopeDigest → Option Version}

section

omit [Externals] [Backing]

theorem mem_nodes {id : NodeId} : id ∈ db.nodes ↔ db.graph.row id ≠ none := by
  rw [ExtTreeMap.mem_iff_isSome_getElem?, Option.isSome_iff_ne_none]
  rfl

end

theorem Abstracts.integrity (h : Abstracts db versions) : Integrity db := by
  have hparent : ∀ {id c : NodeId} {s : Slot}, db.graph.child id s = some c → ∃ v : Value, db.Represents id v := by
    intro id c s hc
    refine h.good.sound id fun hid => ?_
    rw [h.good.clean id hid s] at hc
    cases hc
  refine ⟨?roots, ?mapEdges, ?arrayEdges, ?kinds, ?indices, h.good.acyclic, ?free, ?valueOf, ?resolve, ?walk⟩
  case roots =>
    intro head name root hroot
    obtain ⟨d, rfl⟩ := h.digests head (.inr fun hempty => by rw [hempty] at hroot; simp at hroot)
    have hname : name ≠ "" := by
      rintro rfl
      exact (h.rows d).named (ExtTreeMap.mem_iff_isSome_getElem?.2 (by rw [hroot]; rfl))
    have hrel := (h.rows d).root ⟨name, hname⟩
    simp only [hroot] at hrel
    generalize ((versions d).getD ∅)[(⟨name, hname⟩ : NamespaceKey)]? = o at hrel
    cases hrel with
    | some hns => exact mem_nodes.2 hns.row_ne_none
  case mapEdges =>
    intro parent name child hc
    have hc : db.graph.child parent (.key name) = some child := hc
    obtain ⟨v, hv⟩ := hparent hc
    obtain ⟨u, hu, -⟩ := hv.child hc
    obtain ⟨row, hrow, holds⟩ := hv.exists_row
    refine ⟨⟨row, hrow, ?_⟩, mem_nodes.2 (h.good.child_row hc)⟩
    cases v with
    | map entries => rw [(Holds.map_iff.1 holds).1]
    | string | int | bool | array | key => cases hu
  case arrayEdges =>
    intro parent i child hc
    have hc : db.graph.child parent (.index i) = some child := hc
    obtain ⟨v, hv⟩ := hparent hc
    obtain ⟨u, hu, -⟩ := hv.child hc
    obtain ⟨row, hrow, holds⟩ := hv.exists_row
    refine ⟨⟨row, hrow, ?_⟩, mem_nodes.2 (h.good.child_row hc)⟩
    cases v with
    | array items => rw [Holds.array_iff.1 holds]
    | string | int | bool | map | key => cases hu
  case kinds =>
    intro id row hrow
    obtain ⟨v, hv⟩ := h.good.sound id (by rw [show db.graph.row id = some row from hrow]; exact Option.some_ne_none row)
    obtain ⟨row', hrow', holds⟩ := hv.exists_row
    rw [show db.graph.row id = some row from hrow] at hrow'
    cases hrow'
    cases holds with
    | map => exact .inr (.inl ⟨rfl, rfl⟩)
    | array => exact .inr (.inr ⟨rfl, rfl⟩)
    | leaf => exact .inl ⟨rfl, rfl⟩
  case free =>
    intro id hid
    have hrow : db.graph.row id = none := by
      by_contra hrow
      exact hid (mem_nodes.2 hrow)
    exact ⟨ExtTreeMap.ext_getElem? fun name => by
        rw [ExtTreeMap.getElem?_empty]; exact h.good.clean id hrow (.key name),
      ExtTreeMap.ext_getElem? fun i => by
        rw [ExtTreeMap.getElem?_empty]; exact h.good.clean id hrow (.index i)⟩
  case indices =>
    intro id
    by_cases harray : ∃ items, db.Represents id (.array items)
    · obtain ⟨items, hitems⟩ := harray
      exact ⟨items.length, keys_arrayEdges hitems⟩
    · -- a node that stands for no array has no edge of an array
      have hempty : db.arrayEdges.rows id = ∅ := by
        refine ExtTreeMap.ext_getElem? fun i => ?_
        rw [ExtTreeMap.getElem?_empty]
        cases hc : (db.arrayEdges.rows id)[i]? with
        | none => rfl
        | some c =>
          have hc : db.graph.child id (.index i) = some c := hc
          obtain ⟨v, hv⟩ := hparent hc
          obtain ⟨u, hu, -⟩ := hv.child hc
          cases v with
          | array items => exact absurd ⟨items, hv⟩ harray
          | string | int | bool | map | key => cases hu
      exact ⟨0, by rw [hempty]; simp⟩
  case valueOf =>
    intro id hid
    obtain ⟨v, hv⟩ := h.good.sound id (mem_nodes.1 hid)
    exact ⟨v, valueOf_of_unfolds hv⟩
  case resolve =>
    intro head hhead key path
    unfold containsVersion at hhead
    rw [h.held, Option.isSome_iff_exists] at hhead
    obtain ⟨version, hv⟩ := hhead
    exact ⟨_, h.resolve hv key path⟩
  case walk =>
    intro head hhead key path
    unfold containsVersion at hhead
    rw [h.held, Option.isSome_iff_exists] at hhead
    obtain ⟨version, hv⟩ := hhead
    obtain ⟨n, hn, -⟩ := h.walk hv key path
    exact ⟨n, hn⟩

/-! ## Reads across writes -/

/-- A version that is absent has no root, and asking for one is a broken invariant. -/
theorem Abstracts.absent (h : Abstracts db versions) {d : EnvelopeDigest} (hd : versions d = none) :
    db.versionNamespaces.rows (asSlice d) = ∅ ∧ db.versionExists d = false := by
  have hheld := h.held d
  have hrows := h.rows d
  rw [hd] at hheld hrows
  refine ⟨ExtTreeMap.ext_getElem? fun name => ?_, hheld⟩
  rw [ExtTreeMap.getElem?_empty]
  by_cases hname : name = ""
  · subst hname
    exact ExtTreeMap.getElem?_eq_none hrows.named
  · have hrel := hrows.root ⟨name, hname⟩
    simp only [Option.getD_none, ExtTreeMap.getElem?_empty] at hrel
    generalize (db.versionNamespaces.rows (asSlice d))[name]? = o at hrel
    cases hrel
    rfl

/-- What is read of a version is a matter of what it holds. -/
theorem Abstracts.sameReads (h : Abstracts db versions) (h' : Abstracts db' versions') {d : EnvelopeDigest}
    (hd : versions' d = versions d) : SameReads db db' d := by
  have hcontains : db'.containsVersion d = db.containsVersion d := by
    unfold containsVersion
    rw [h.held, h'.held, hd]
  cases hv : versions d with
  | some version =>
    have hv' := hd.trans hv
    exact {
      containsVersion := hcontains
      resolve := fun key path => (h'.resolve hv' key path).trans (h.resolve hv key path).symm
      valueAt := fun key path => (h'.valueAt hv' key path).trans (h.valueAt hv key path).symm
      metaAt := fun key path => (h'.metaAt hv' key path).trans (h.metaAt hv key path).symm
      nsAt := fun key => (h'.nsAt hv' key).trans (h.nsAt hv key).symm
      namespaces := (h'.namespaces hv').trans (h.namespaces hv).symm
      namespaceKeys := (h'.namespaceKeys hv').trans (h.namespaceKeys hv).symm }
  | none =>
    obtain ⟨hrows, hexists⟩ := h.absent hv
    obtain ⟨hrows', hexists'⟩ := h'.absent (hd.trans hv)
    have hroot : ∀ key, db'.namespaceRoot d key = db.namespaceRoot d key := by
      intro key
      unfold SqliteStorage.namespaceRoot
      rw [hrows, hrows', hexists, hexists']
    have hroots : db'.namespaceRoots d = db.namespaceRoots d := by
      unfold SqliteStorage.namespaceRoots
      rw [hrows, hrows', hexists, hexists']
    have hpanic : ∀ key, db.namespaceRoot d key = .error (.panic "head is pre-validated: the version exists") := by
      intro key
      unfold SqliteStorage.namespaceRoot
      rw [hrows, hexists]
      simp
    have hpanics : db.namespaceRoots d = .error (.panic "head is pre-validated: the version exists") := by
      unfold SqliteStorage.namespaceRoots
      rw [hrows, hexists]
      simp
    refine ⟨hcontains, fun key path => ?_, fun key path => ?_, fun key path => ?_, fun key => ?_, ?_, ?_⟩
    · unfold SqliteStorage.resolve
      rw [hroot, hpanic]
      rfl
    · unfold SqliteStorage.valueAt SqliteStorage.walk
      rw [hroot, hpanic]
      rfl
    · unfold SqliteStorage.metaAt SqliteStorage.walk
      rw [hroot, hpanic]
      rfl
    · unfold SqliteStorage.nsAt
      rw [hroot, hpanic]
      rfl
    · unfold SqliteStorage.namespaces
      rw [hroots, hpanics]
      rfl
    · unfold SqliteStorage.namespaceKeys
      rw [hroots, hpanics]

theorem Abstracts.install (h : Abstracts db versions) {head : EnvelopeDigest} {l : List (NamespaceKey × Namespace)}
    (hl : ∀ e ∈ l, Ordered e.2.value) (hdb' : db.install head l = .ok db') :
    ∃ version, Abstracts db' (Function.update versions head (some version)) := by
  obtain ⟨db₁, hdb₁, hw⟩ := install_of_abstracts h head hl
  rw [hdb'] at hdb₁
  cases hdb₁
  exact ⟨_, hw.1⟩

theorem Abstracts.commit (h : Abstracts db versions) {parent head : EnvelopeDigest} {op : NamespaceOp} (hop : op.Ordered)
    (hdb' : db.commit parent head op = .ok db') :
    ∃ version, Abstracts db' (Function.update versions head (some version)) := by
  cases hv : versions parent with
  | none =>
    rw [commit_absent h hv] at hdb'
    cases hdb'
  | some version =>
    have hsim := commit_sim (E := Empty) h hv head hop
    rw [hdb'] at hsim
    generalize op.update (E := Empty) (if head = parent then ∅ else version) = r at hsim
    match r with
    | .ok version' => exact ⟨version', hsim.1⟩

theorem Reached.abstracts (h : Reached db) : ∃ versions, Abstracts db versions := by
  induction h with
  | empty => exact ⟨_, .empty⟩
  | @write db db' w _ hw hdb' ih =>
    obtain ⟨versions, ih⟩ := ih
    cases w with
    | install head namespaces =>
      obtain ⟨version, hv⟩ := ih.install hw hdb'
      exact ⟨_, hv⟩
    | commit parent head op =>
      obtain ⟨version, hv⟩ := ih.commit hw hdb'
      exact ⟨_, hv⟩
    | retain keep =>
      cases hdb'
      exact ⟨_, ih.retain keep⟩

/-! ## What a sweep takes -/

section

omit [Externals] [Backing]

theorem mem_reachable_dropUnkept {keep : List EnvelopeDigest} {id : NodeId} :
    id ∈ (db.dropUnkept keep).reachable ↔ db.Kept keep id := by
  have hrows : ∀ blob, (db.dropUnkept keep).versionNamespaces.rows blob =
      if blob ∈ keep.map asSlice then db.versionNamespaces.rows blob else ∅ := by
    intro blob
    simp only [dropUnkept, Table.rows_filter, decide_eq_true_eq]
  rw [mem_reachable]
  constructor
  · rintro ⟨blob, name, root, hroot, hid⟩
    rw [hrows] at hroot
    split at hroot
    · rename_i hblob
      obtain ⟨d, hd, rfl⟩ := List.mem_map.1 hblob
      exact ⟨d, hd, name, root, hroot, hid⟩
    · simp at hroot
  · rintro ⟨d, hd, name, root, hroot, hid⟩
    exact ⟨asSlice d, name, root, by rw [hrows, if_pos (List.mem_map_of_mem hd)]; exact hroot, hid⟩

/-- The rows a retain leaves: of the versions kept, and of the nodes their roots reach. -/
structure Sweeps (db db' : SqliteStorage) (keep : List EnvelopeDigest) : Prop where
  versions : ∀ blob, blob ∈ db'.versions ↔ blob ∈ db.versions ∧ blob ∈ keep.map asSlice
  versionNamespaces : ∀ blob, db'.versionNamespaces.rows blob =
    if blob ∈ keep.map asSlice then db.versionNamespaces.rows blob else ∅
  kept : ∀ id, db.Kept keep id → db'.nodes[id]? = db.nodes[id]? ∧ db'.mapEdges.rows id = db.mapEdges.rows id ∧
    db'.arrayEdges.rows id = db.arrayEdges.rows id
  swept : ∀ id, ¬ db.Kept keep id → db'.nodes[id]? = none ∧ db'.mapEdges.rows id = ∅ ∧ db'.arrayEdges.rows id = ∅

theorem sweeps_retain (db : SqliteStorage) (keep : List EnvelopeDigest) : Sweeps db (db.retain keep) keep where
  versions blob := by
    show blob ∈ db.versions.filter _ ↔ _
    rw [ExtTreeSet.mem_filter]
    simp only [ExtTreeSet.get_eq, decide_eq_true_eq, exists_prop]
  versionNamespaces blob := by
    show (db.versionNamespaces.filter _).rows blob = _
    simp only [Table.rows_filter, decide_eq_true_eq]
  kept id hid := by
    have hid := mem_reachable_dropUnkept.2 hid
    refine ⟨?_, ?_, ?_⟩
    · show (db.nodes.filter _)[id]? = _
      rw [ExtTreeMap.getElem?_filter']
      cases db.nodes[id]? <;> simp [hid]
    · show (db.mapEdges.filter _).rows id = _
      rw [Table.rows_filter, if_pos (by simpa using hid)]
    · show (db.arrayEdges.filter _).rows id = _
      rw [Table.rows_filter, if_pos (by simpa using hid)]
  swept id hid := by
    have hid : id ∉ (db.dropUnkept keep).reachable := fun h => hid (mem_reachable_dropUnkept.1 h)
    refine ⟨?_, ?_, ?_⟩
    · show (db.nodes.filter _)[id]? = _
      rw [ExtTreeMap.getElem?_filter']
      cases db.nodes[id]? <;> simp [hid]
    · show (db.mapEdges.filter _).rows id = _
      rw [Table.rows_filter, if_neg (by simpa using hid)]
    · show (db.arrayEdges.filter _).rows id = _
      rw [Table.rows_filter, if_neg (by simpa using hid)]

end

/-! ## Every database writes can reach -/

/-- The tables of a database are sound however it was written. A write of one version leaves the reads
of every other as they were, and a retain drops exactly what is not kept. -/
theorem Reached.sound (h : Reached db) :
    Integrity db ∧
    (∀ head l db', (∀ e ∈ l, Ordered e.2.value) → db.install head l = .ok db' → ∀ d, d ≠ head → SameReads db db' d) ∧
    (∀ parent head op db', NamespaceOp.Ordered op → db.commit parent head op = .ok db' → ∀ d, d ≠ head → SameReads db db' d) ∧
    (∀ keep, Sweeps db (db.retain keep) keep ∧ ∀ d ∈ keep, SameReads db (db.retain keep) d) := by
  obtain ⟨versions, habs⟩ := h.abstracts
  refine ⟨habs.integrity, fun head l db' hl hdb' d hd => ?_, fun parent head op db' hop hdb' d hd => ?_,
    fun keep => ⟨sweeps_retain db keep, fun d hd => ?_⟩⟩
  · obtain ⟨version, hv⟩ := habs.install hl hdb'
    exact habs.sameReads hv (Function.update_of_ne hd ..)
  · obtain ⟨version, hv⟩ := habs.commit hop hdb'
    exact habs.sameReads hv (Function.update_of_ne hd ..)
  · exact habs.sameReads (habs.retain keep) (if_pos hd)

end IrohLotus.Storage.SqliteStorage

/-! ## The samples -/

namespace IrohLotus.Storage.SqliteStorage

open Std Outcome IrohLotus.Wire IrohLotus.Wire.Sample IrohLotus.Storage.Sample

def listKey : NamespaceKey := ⟨"l", l_ne⟩

def listNamespaces : List (NamespaceKey × Namespace) := [(listKey, ⟨.array [.string "x", .string "y"]⟩)]

def dropFirst : NamespaceOp := .setAt listKey ⟨[.index 0], index_ne⟩ none

/-- A database that installed a list, dropped its first entry and kept only what came of it. -/
theorem exists_reached : ∃ db : SqliteStorage, Reached db ∧ db.containsVersion clearedDigest = true ∧
    db.containsVersion listedDigest = false ∧ db.nsAt clearedDigest listKey = .ok (some ⟨.array [.string "y"]⟩) := by
  have hordered : ∀ e ∈ listNamespaces, Ordered e.2.value := by
    intro e he
    rw [List.mem_singleton.1 he]
    exact ⟨trivial, trivial, trivial⟩
  obtain ⟨db₁, hdb₁, habs₁, -⟩ := install_of_abstracts .empty listedDigest hordered
  have hop : dropFirst.Ordered := fun v hv => nomatch hv
  obtain ⟨db₂, hdb₂, habs₂, -⟩ := (commit_sim (E := Empty) habs₁ (Function.update_self ..) clearedDigest hop).of_ok
  have hreached : Reached (db₂.retain [clearedDigest]) :=
    .write (w := .retain [clearedDigest])
      (.write (w := .commit listedDigest clearedDigest dropFirst) (.write (w := .install listedDigest listNamespaces) .empty hordered hdb₁)
        hop hdb₂) trivial rfl
  have habs := habs₂.retain [clearedDigest]
  refine ⟨_, hreached, ?_, ?_, ?_⟩
  · unfold containsVersion
    rw [habs.held]
    rfl
  · unfold containsVersion
    rw [habs.held]
    rfl
  · rw [habs.nsAt ((if_pos (List.mem_singleton_self _)).trans (Function.update_self ..))]
    decide +kernel

theorem reached_sound_cleared : ∃ db : SqliteStorage, db.containsVersion clearedDigest = true ∧ Integrity db ∧
    ∀ keep, Sweeps db (db.retain keep) keep := by
  obtain ⟨db, hreached, hcleared, -, -⟩ := exists_reached
  exact ⟨db, hcleared, hreached.sound.1, fun keep => (hreached.sound.2.2.2 keep).1⟩

end IrohLotus.Storage.SqliteStorage
