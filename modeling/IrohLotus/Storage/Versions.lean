/-
The versions a SQLite database holds. It abstracts to a version for some digests: the rows of a
version name, under each key, a node that represents the namespace there. Every read of a version is
the read of what it abstracts to, and each write makes of the versions what the in-memory store's
does, so that a write to one version is no write to another however many nodes they share.
-/
import IrohLotus.Storage.Commit

namespace IrohLotus.Storage

open Std Outcome Unfold Relational IrohLotus.Wire

/-! ## Digests as blobs -/

theorem compare_asSlice (a b : EnvelopeDigest) : compare (asSlice a) (asSlice b) = compare a b := by
  have hlt : ∀ d : EnvelopeDigest, d.hash.toNat < 256 ^ 32 := fun d => d.hash.isLt
  unfold asSlice
  rw [Bytes.compare_ofNumber (hlt a) (hlt b)]
  show compareOfLessAndEq _ _ = compareOfLessAndEq _ _
  simp only [compareOfLessAndEq, BitVec.lt_def, BitVec.toNat_inj]

@[simp] theorem asSlice_inj {a b : EnvelopeDigest} : asSlice a = asSlice b ↔ a = b := by
  rw [← Std.compare_eq_iff_eq, compare_asSlice, Std.compare_eq_iff_eq]

theorem digestFrom_asSlice (d : EnvelopeDigest) : digestFrom (asSlice d) = .ok d := by
  unfold digestFrom asSlice
  rw [if_pos (Bytes.length_ofNumber 32 _), Bytes.ofNat_toNumber_ofNumber 32 d.hash]
  rfl

theorem rel_mono {α β : Type} {P Q : α → β → Prop} {a : Option α} {b : Option β} (h : Option.Rel P a b)
    (hPQ : ∀ x y, P x y → Q x y) : Option.Rel Q a b := by
  cases h with
  | some hxy => exact .some (hPQ _ _ hxy)
  | none => exact .none

namespace SqliteStorage

variable [Externals] [Backing] {E : Type}

/-- The rows of a version name, under each key, a node that represents the namespace there. -/
structure VersionOf (db : SqliteStorage) (rows : ExtTreeMap String NodeId) (version : Version) : Prop where
  root : ∀ key : NamespaceKey, Option.Rel (fun id (ns : Namespace) => db.Represents id ns.value) rows[key.name]? version[key]?
  named : "" ∉ rows

/-- The database holds these versions and no others. -/
structure Abstracts (db : SqliteStorage) (versions : EnvelopeDigest → Option Version) : Prop where
  good : Good Value db.graph
  held : ∀ d, db.versionExists d = (versions d).isSome
  rows : ∀ d, VersionOf db (db.versionNamespaces.rows (asSlice d)) ((versions d).getD ∅)
  digests : ∀ blob, blob ∈ db.versions ∨ db.versionNamespaces.rows blob ≠ ∅ → ∃ d, blob = asSlice d

variable {db db' : SqliteStorage} {rows : ExtTreeMap String NodeId} {version : Version}
  {versions : EnvelopeDigest → Option Version} {head parent : EnvelopeDigest}

/-! ## Rows of a version -/

namespace VersionOf

theorem grows (h : VersionOf db rows version) (hgrows : Grows db db') : VersionOf db' rows version where
  root key := rel_mono (h.root key) fun _ _ hv => hgrows.represents hv
  named := h.named

theorem of_graph (h : VersionOf db rows version) (hgraph : db'.graph = db.graph) : VersionOf db' rows version where
  root key := rel_mono (h.root key) fun id ns hv => by unfold Represents; rw [hgraph]; exact hv
  named := h.named

theorem empty : VersionOf db ∅ ∅ where
  root key := by simp
  named := ExtTreeMap.not_mem_empty

theorem insert (h : VersionOf db rows version) (key : NamespaceKey) {id : NodeId} {ns : Namespace}
    (hid : db.Represents id ns.value) : VersionOf db (rows.insert key.name id) (version.insert key ns) where
  root other := by
    simp only [ExtTreeMap.getElem?_insert, Std.compare_eq_iff_eq]
    by_cases hk : key = other
    · subst hk
      simp [hid]
    · have hn : key.name ≠ other.name := by
        intro hn
        cases key; cases other; cases hn
        exact hk rfl
      rw [if_neg hk, if_neg hn]
      exact h.root other
  named := by
    rw [ExtTreeMap.mem_insert, Std.compare_eq_iff_eq]
    rintro (hk | hm)
    · exact key.nonempty hk
    · exact h.named hm

theorem erase (h : VersionOf db rows version) (key : NamespaceKey) : VersionOf db (rows.erase key.name) (version.erase key) where
  root other := by
    simp only [ExtTreeMap.getElem?_erase, Std.compare_eq_iff_eq]
    by_cases hk : key = other
    · subst hk
      simp
    · have hn : key.name ≠ other.name := by
        intro hn
        cases key; cases other; cases hn
        exact hk rfl
      rw [if_neg hk, if_neg hn]
      exact h.root other
  named := fun hm => h.named (ExtTreeMap.mem_of_mem_erase hm)

/-- The rows of a version are its keys, each with the root of its namespace. -/
theorem toList_rows (h : VersionOf db rows version) :
    rows.toList = version.toList.map fun e => (e.1.name, (rows[e.1.name]?).getD 0) := by
  have hrows : rows.toList.Pairwise fun a b => a.1 < b.1 :=
    ExtTreeMap.ordered_keys_toList.imp Entries.lt_of_compare
  have hkeys : (version.toList.map fun e => (e.1.name, (rows[e.1.name]?).getD 0)).Pairwise fun a b => a.1 < b.1 := by
    refine List.pairwise_map.2 (ExtTreeMap.ordered_keys_toList.imp fun {a b} hab => ?_)
    exact Entries.lt_of_compare hab
  refine hrows.eq_of_mem_iff hkeys fun ⟨name, id⟩ => ?_
  rw [ExtTreeMap.mem_toList_iff_getElem?_eq_some, List.mem_map]
  constructor
  · intro hid
    have hname : name ≠ "" := by
      rintro rfl
      exact h.named (ExtTreeMap.mem_iff_isSome_getElem?.2 (by rw [hid]; rfl))
    have hroot := h.root ⟨name, hname⟩
    simp only [hid] at hroot
    cases hv : version[(⟨name, hname⟩ : NamespaceKey)]? with
    | none => rw [hv] at hroot; cases hroot
    | some ns => exact ⟨(⟨name, hname⟩, ns), ExtTreeMap.mem_toList_iff_getElem?_eq_some.2 hv, by simp [hid]⟩
  · rintro ⟨⟨key, ns⟩, he, heq⟩
    have hroot := h.root key
    rw [ExtTreeMap.mem_toList_iff_getElem?_eq_some.1 he] at hroot
    cases hr : rows[key.name]? with
    | none => rw [hr] at hroot; cases hroot
    | some root =>
      simp only [hr, Option.getD_some, Prod.mk.injEq] at heq
      obtain ⟨rfl, rfl⟩ := heq
      exact hr

end VersionOf

/-! ## Reads -/

namespace Abstracts

theorem versionOf (h : Abstracts db versions) (hv : versions head = some version) :
    VersionOf db (db.versionNamespaces.rows (asSlice head)) version := by
  have hrows := h.rows head
  rwa [hv, Option.getD_some] at hrows

theorem exists_version (h : Abstracts db versions) (hv : versions head = some version) : db.versionExists head = true := by
  rw [h.held, hv]; rfl

/-- The root of a namespace represents it. -/
theorem namespaceRoot (h : Abstracts db versions) (hv : versions head = some version) (key : NamespaceKey) :
    ∃ root, db.namespaceRoot head key = .ok root ∧
      Option.Rel (fun id (ns : Namespace) => db.Represents id ns.value) root version[key]? := by
  have hroot := (h.versionOf hv).root key
  refine ⟨(db.versionNamespaces.rows (asSlice head))[key.name]?, ?_, hroot⟩
  unfold SqliteStorage.namespaceRoot
  cases hr : (db.versionNamespaces.rows (asSlice head))[key.name]? with
  | some root => rfl
  | none => simp only [h.exists_version hv, if_true]; rfl

theorem resolve (h : Abstracts db versions) (hv : versions head = some version) (key : NamespaceKey) (path : List Subkey) :
    db.resolve head key path = .ok (version[key]?.map fun ns => Storage.resolve ns.value path) := by
  obtain ⟨root, hroot, hrel⟩ := h.namespaceRoot hv key
  unfold SqliteStorage.resolve
  rw [hroot, Res.ok_bind]
  generalize version[key]? = o at hrel
  cases hrel with
  | none => rfl
  | some hns => simp only [resolveFrom_of_unfolds hns]; rfl

/-- A walk ends at the node of what the path addresses. -/
theorem walk (h : Abstracts db versions) (hv : versions head = some version) (key : NamespaceKey) (path : List Subkey) :
    ∃ n, db.walk head key path = .ok n ∧ Option.Rel db.Represents n (version[key]?.bind fun ns => ns.value.walk path) := by
  obtain ⟨root, hroot, hrel⟩ := h.namespaceRoot hv key
  unfold SqliteStorage.walk
  rw [hroot, Res.ok_bind]
  generalize version[key]? = o at hrel
  cases hrel with
  | none => exact ⟨none, rfl, .none⟩
  | @some id ns hns =>
    obtain ⟨n, hn, hsome, hnone⟩ := @walkFrom_of_unfolds _ _ _ _ path _ _ hns
    refine ⟨n, hn, ?_⟩
    rw [Option.bind_some]
    cases hw : ns.value.walk path with
    | none => rw [hnone hw]; exact .none
    | some u =>
      obtain ⟨m, rfl, hm⟩ := hsome u hw
      exact .some hm

theorem valueAt (h : Abstracts db versions) (hv : versions head = some version) (key : NamespaceKey) (path : List Subkey) :
    db.valueAt head key path = .ok (version[key]?.bind fun ns => ns.value.walk path) := by
  obtain ⟨n, hn, hrel⟩ := h.walk hv key path
  unfold SqliteStorage.valueAt
  rw [hn, Res.ok_bind]
  generalize (version[key]?.bind fun ns => ns.value.walk path) = o at hrel
  cases hrel with
  | none => rfl
  | some hu => simp only [valueOf_of_unfolds hu]; rfl

theorem metaAt (h : Abstracts db versions) (hv : versions head = some version) (key : NamespaceKey) (path : List Subkey) :
    db.metaAt head key path = .ok (version[key]?.bind fun ns => (ns.value.walk path).map metaOf) := by
  obtain ⟨n, hn, hrel⟩ := h.walk hv key path
  have hmap : (version[key]?.bind fun ns => (ns.value.walk path).map metaOf) =
      (version[key]?.bind fun ns => ns.value.walk path).map metaOf := by
    cases version[key]? <;> rfl
  unfold SqliteStorage.metaAt
  rw [hn, Res.ok_bind, hmap]
  generalize (version[key]?.bind fun ns => ns.value.walk path) = o at hrel
  cases hrel with
  | none => rfl
  | some hu => simp only [metaOfNode_of_unfolds hu]; rfl

theorem nsAt (h : Abstracts db versions) (hv : versions head = some version) (key : NamespaceKey) :
    db.nsAt head key = .ok version[key]? := by
  obtain ⟨root, hroot, hrel⟩ := h.namespaceRoot hv key
  unfold SqliteStorage.nsAt
  rw [hroot, Res.ok_bind]
  generalize version[key]? = o at hrel
  cases hrel with
  | none => rfl
  | some hns => simp only [valueOf_of_unfolds hns]; rfl

theorem namespaceRoots (h : Abstracts db versions) (hv : versions head = some version) :
    db.namespaceRoots head = .ok (version.toList.map fun e =>
      (e.1, ((db.versionNamespaces.rows (asSlice head))[e.1.name]?).getD 0)) := by
  have hrows := (h.versionOf hv).toList_rows
  unfold SqliteStorage.namespaceRoots
  simp only [h.exists_version hv, Bool.not_true, Bool.and_false, Bool.false_eq_true, if_false]
  rw [hrows, List.mapM_map]
  refine Res.mapM_of_ok fun e _ => ?_
  simp only [Function.comp_apply, keyFrom, dif_pos e.1.nonempty]
  rfl

theorem namespaces (h : Abstracts db versions) (hv : versions head = some version) :
    db.namespaces head = .ok version.toList := by
  unfold SqliteStorage.namespaces
  rw [h.namespaceRoots hv, Res.ok_bind, List.mapM_map]
  have hid := Res.mapM_of_ok (E := SqliteError) (l := version.toList) (f := fun e => (do
      let value ← db.valueOf (((db.versionNamespaces.rows (asSlice head))[e.1.name]?).getD 0)
      pure (e.1, { value }) : Res SqliteError (NamespaceKey × Namespace))) (g := id) (by
    rintro ⟨key, ns⟩ he
    have hroot := (h.versionOf hv).root key
    rw [ExtTreeMap.mem_toList_iff_getElem?_eq_some.1 he] at hroot
    generalize (db.versionNamespaces.rows (asSlice head))[key.name]? = o at hroot
    cases hroot with
    | some hns => simp only [Option.getD_some, valueOf_of_unfolds hns]; rfl)
  rw [List.map_id] at hid
  exact hid

theorem namespaceKeys (h : Abstracts db versions) (hv : versions head = some version) :
    db.namespaceKeys head = .ok version.keys := by
  unfold SqliteStorage.namespaceKeys
  rw [h.namespaceRoots hv, Res.ok_bind, List.map_map, ← ExtTreeMap.map_fst_toList_eq_keys]
  rfl

/-! ## Writes -/

theorem empty : Abstracts SqliteStorage.empty fun _ => none where
  good := by
    refine ⟨fun id _ s => ?_, fun id hid => ?_⟩
    · cases s <;> simp [graph, SqliteStorage.empty]
    · simp [graph, SqliteStorage.empty] at hid
  held d := by simp [versionExists, SqliteStorage.empty]
  rows d := by simpa [SqliteStorage.empty] using VersionOf.empty
  digests blob := by simp [SqliteStorage.empty]

/-- More nodes hold no other versions. -/
theorem grows (h : Abstracts db versions) (hgrows : Grows db db') : Abstracts db' versions where
  good := hgrows.good
  held d := by unfold versionExists; rw [hgrows.untouched.versions]; exact h.held d
  rows d := by rw [hgrows.untouched.versionNamespaces]; exact (h.rows d).grows hgrows
  digests blob := by rw [hgrows.untouched.versions, hgrows.untouched.versionNamespaces]; exact h.digests blob

/-- Rows written for the version at `head` alone change that version alone. -/
theorem of_rows (h : Abstracts db versions) (hgraph : db'.graph = db.graph)
    (hheld : ∀ blob, blob ∈ db'.versions ↔ blob = asSlice head ∨ blob ∈ db.versions)
    (hother : ∀ blob, blob ≠ asSlice head → db'.versionNamespaces.rows blob = db.versionNamespaces.rows blob)
    (hrows : VersionOf db (db'.versionNamespaces.rows (asSlice head)) version) :
    Abstracts db' (Function.update versions head (some version)) where
  good := by rw [hgraph]; exact h.good
  held d := by
    rw [Bool.eq_iff_iff]
    unfold versionExists
    rw [← ExtTreeSet.mem_iff_contains, hheld, asSlice_inj, Function.update_apply]
    by_cases hd : d = head
    · simp [hd]
    · rw [if_neg hd, ← h.held d, versionExists, ← ExtTreeSet.mem_iff_contains]
      simp [hd]
  rows d := by
    rw [Function.update_apply]
    by_cases hd : d = head
    · subst hd
      rw [if_pos rfl]
      exact hrows.of_graph hgraph
    · rw [if_neg hd, hother _ fun heq => hd (asSlice_inj.1 heq)]
      exact (h.rows d).of_graph hgraph
  digests blob hblob := by
    by_cases hb : blob = asSlice head
    · exact ⟨head, hb⟩
    · rw [hheld, hother blob hb] at hblob
      refine h.digests blob ?_
      simpa [hb] using hblob

theorem setRoot (h : Abstracts db versions) (hv : versions head = some version) (key : NamespaceKey) {root : NodeId}
    {ns : Namespace} (hroot : db.Represents root ns.value) :
    Abstracts (db.setRoot head key root) (Function.update versions head (some (version.insert key ns))) := by
  refine h.of_rows rfl (fun blob => ?_) (fun blob hb => ?_) ?_
  · have hmem : asSlice head ∈ db.versions := ExtTreeSet.mem_iff_contains.2 (h.exists_version hv)
    refine ⟨.inr, ?_⟩
    rintro (rfl | hb)
    · exact hmem
    · exact hb
  · simp only [SqliteStorage.setRoot, Table.rows_replace, if_neg (Ne.symm hb)]
  · simp only [SqliteStorage.setRoot, Table.rows_replace, if_true]
    exact (h.versionOf hv).insert key hroot

/-- A version just registered holds nothing. -/
theorem replaceVersion (h : Abstracts db versions) (head : EnvelopeDigest) :
    Abstracts (db.replaceVersion head) (Function.update versions head (some ∅)) := by
  refine h.of_rows rfl (fun blob => ?_) (fun blob hb => ?_) ?_
  · simp only [SqliteStorage.replaceVersion, ExtTreeSet.mem_insert, Std.compare_eq_iff_eq]
    rw [eq_comm]
  · simp only [SqliteStorage.replaceVersion, Table.rows_eraseAll, if_neg (Ne.symm hb)]
  · simp only [SqliteStorage.replaceVersion, Table.rows_eraseAll, if_true]
    exact .empty

/-- The rows of one version copied to another that holds none. -/
theorem copyRows (h : Abstracts db versions) (hhead : versions head = some ∅) (hv : versions parent = some version) :
    ∃ versionNamespaces, db.versionNamespaces.insertAll (asSlice head) (db.versionNamespaces.rows (asSlice parent)).toList =
        some versionNamespaces ∧
      Abstracts { db with versionNamespaces } (Function.update versions head (some version)) := by
  have hempty : ∀ name : String, (db.versionNamespaces.rows (asSlice head))[name]? = none := by
    intro name
    by_cases hname : name = ""
    · subst hname
      exact ExtTreeMap.getElem?_eq_none (h.versionOf hhead).named
    · have hroot := (h.versionOf hhead).root ⟨name, hname⟩
      simp only [ExtTreeMap.getElem?_empty] at hroot
      generalize (db.versionNamespaces.rows (asSlice head))[name]? = o at hroot
      cases hroot
      rfl
  obtain ⟨t, ht, hother, hrows⟩ := Table.insertAll_of_free (t := db.versionNamespaces) (p := asSlice head)
    (l := (db.versionNamespaces.rows (asSlice parent)).toList) (nodup_keys_toList _) (fun e _ hm => by
      rw [ExtTreeMap.mem_iff_isSome_getElem?, hempty] at hm
      cases hm)
  refine ⟨t, ht, h.of_rows rfl (fun blob => ?_) (fun blob hb => hother blob (Ne.symm hb)) ?_⟩
  · have hmem : asSlice head ∈ db.versions := ExtTreeSet.mem_iff_contains.2 (h.exists_version hhead)
    refine ⟨.inr, ?_⟩
    rintro (rfl | hb)
    · exact hmem
    · exact hb
  · have heq : t.rows (asSlice head) = db.versionNamespaces.rows (asSlice parent) := by
      refine ExtTreeMap.ext_getElem? fun name => Option.ext fun id => ?_
      rw [hrows, hempty, ExtTreeMap.mem_toList_iff_getElem?_eq_some]
      simp
    show VersionOf db (t.rows (asSlice head)) version
    rw [heq]
    exact h.versionOf hv

end Abstracts

/-- The version at `head` was written, and nothing but nodes and its rows. -/
def Writes (versions : EnvelopeDigest → Option Version) (head : EnvelopeDigest) (db db' : SqliteStorage) (version : Version) : Prop :=
  Abstracts db' (Function.update versions head (some version)) ∧ db'.envelopes = db.envelopes

/-- A new root for a namespace of the version at `head`. -/
theorem Abstracts.yields (h : Abstracts db versions) (hv : versions head = some version) (key : NamespaceKey)
    {r : NodeId × SqliteStorage} {w : Value} (hr : Yields db r w) :
    Writes versions head db (r.2.setRoot head key r.1) (version.insert key ⟨w⟩) :=
  ⟨(h.grows hr.1).setRoot hv key hr.2, hr.1.untouched.envelopes⟩

theorem applyOp_sim (h : Abstracts db versions) (hv : versions head = some version) {op : NamespaceOp} (hop : op.Ordered) :
    Res.Sim (Writes versions head db) (db.applyOp head op) (op.update (E := E) version) := by
  cases op with
  | put key ns =>
    obtain ⟨root, db₁, hdb₁, hstored⟩ := insertValue_stored ns.value h.good.clean hop
    simp only [applyOp, hdb₁, Res.ok_bind]
    exact h.yields hv key (r := (root, db₁)) ⟨hstored.grows h.good, hstored.represents⟩
  | delete key =>
    have hroot := (h.versionOf hv).root key
    simp only [applyOp, NamespaceOp.update]
    cases hns : version[key]? with
    | none =>
      rw [hns] at hroot
      have hnone : (db.versionNamespaces.rows (asSlice head))[key.name]? = none := by
        generalize (db.versionNamespaces.rows (asSlice head))[key.name]? = o at hroot
        cases hroot
        rfl
      rw [if_neg fun hm => by rw [ExtTreeMap.mem_iff_isSome_getElem?, hnone] at hm; cases hm]
      trivial
    | some ns =>
      rw [hns] at hroot
      have hmem : key.name ∈ db.versionNamespaces.rows (asSlice head) := by
        rw [ExtTreeMap.mem_iff_isSome_getElem?]
        generalize (db.versionNamespaces.rows (asSlice head))[key.name]? = o at hroot
        cases hroot
        rfl
      rw [if_pos hmem]
      refine ⟨h.of_rows rfl (fun blob => ?_) (fun blob hb => ?_) ?_, rfl⟩
      · refine ⟨.inr, ?_⟩
        rintro (rfl | hb)
        · exact ExtTreeSet.mem_iff_contains.2 (h.exists_version hv)
        · exact hb
      · simp only [Table.rows_erase, if_neg (Ne.symm hb)]
      · simp only [Table.rows_erase, if_true]
        exact (h.versionOf hv).erase key
  | setAt key path value =>
    obtain ⟨root, hroot, hrel⟩ := h.namespaceRoot hv key
    simp only [applyOp, NamespaceOp.update, hroot, Res.ok_bind]
    generalize version[key]? = o at hrel
    cases hrel with
    | none => trivial
    | some hns => exact (setRoot_sim h.good hns path hop).bind fun r w hr => h.yields hv key hr
  | amendAt key path op =>
    obtain ⟨root, hroot, hrel⟩ := h.namespaceRoot hv key
    simp only [applyOp, NamespaceOp.update, hroot, Res.ok_bind]
    generalize version[key]? = o at hrel
    cases hrel with
    | none => trivial
    | some hns => exact (amendRoot_sim h.good hns path hop).bind fun r w hr => h.yields hv key hr

/-- A commit ends as the update of the parent's version does, and writes what it yields. A commit
under the parent's own digest clears the version before it copies it. -/
theorem commit_sim (h : Abstracts db versions) (hv : versions parent = some version) (head : EnvelopeDigest) {op : NamespaceOp}
    (hop : op.Ordered) :
    Res.Sim (Writes versions head db) (db.commit parent head op) (op.update (E := E) (if head = parent then ∅ else version)) := by
  have hcleared := h.replaceVersion head
  have hparent : Function.update versions head (some ∅) parent = some (if head = parent then ∅ else version) := by
    rw [Function.update_apply]
    by_cases hp : head = parent
    · rw [if_pos hp, if_pos hp.symm]
    · rw [if_neg hp, if_neg (Ne.symm hp), hv]
  obtain ⟨rows, hrows, hcopied⟩ := hcleared.copyRows (Function.update_self ..) hparent
  rw [Function.update_idem] at hcopied
  unfold commit
  simp only [h.exists_version hv, Bool.not_true, Bool.false_eq_true, if_false, hrows, Res.okOr_some, Res.ok_bind]
  refine (applyOp_sim hcopied (Function.update_self ..) hop).mono fun db' version' hw => ?_
  unfold Writes at hw
  rw [Function.update_idem] at hw
  exact hw

theorem commit_absent (h : Abstracts db versions) (hv : versions parent = none) (head : EnvelopeDigest) (op : NamespaceOp) :
    db.commit parent head op = .error (.panic "head is pre-validated: the version exists") := by
  have hheld := h.held parent
  rw [hv, Option.isSome_none] at hheld
  unfold commit
  rw [hheld]
  rfl

theorem installEach_of_abstracts : ∀ {l : List (NamespaceKey × Namespace)} {db : SqliteStorage}
    {versions : EnvelopeDigest → Option Version} {version : Version}, Abstracts db versions → versions head = some version →
    (∀ e ∈ l, Ordered e.2.value) → ∃ db', installEach head l db = .ok db' ∧
      Writes versions head db db' (l.foldl (fun version e => version.insert e.1 e.2) version)
  | [], db, versions, version, h, hv, _ => by
    refine ⟨db, rfl, ?_, rfl⟩
    rw [List.foldl_nil, ← hv, Function.update_eq_self]
    exact h
  | (key, ns) :: l, db, versions, version, h, hv, hl => by
    obtain ⟨root, db₁, hdb₁, hstored⟩ := insertValue_stored ns.value h.good.clean (hl (key, ns) List.mem_cons_self)
    have hyields := h.yields hv key (r := (root, db₁)) ⟨hstored.grows h.good, hstored.represents⟩
    obtain ⟨db', hdb', hw⟩ := installEach_of_abstracts hyields.1 (Function.update_self ..)
      fun e he => hl e (List.mem_cons_of_mem _ he)
    refine ⟨db', ?_, ?_, hw.2.trans hyields.2⟩
    · unfold installEach
      simp only [hdb₁, Res.ok_bind]
      exact hdb'
    · have habs := hw.1
      rwa [Function.update_idem] at habs

/-- An install returns, and writes the version its namespaces make. -/
theorem install_of_abstracts (h : Abstracts db versions) (head : EnvelopeDigest) {l : List (NamespaceKey × Namespace)}
    (hl : ∀ e ∈ l, Ordered e.2.value) : ∃ db', db.install head l = .ok db' ∧
      Writes versions head db db' (l.foldl (fun version e => version.insert e.1 e.2) ∅) := by
  obtain ⟨db', hdb', hw, henv⟩ := installEach_of_abstracts (h.replaceVersion head) (Function.update_self ..) hl
  rw [Function.update_idem] at hw
  exact ⟨db', hdb', hw, henv⟩

/-! ## Dropping versions -/

section Retain

omit [Externals] [Backing]

theorem mem_childrenOf {p c : NodeId} : c ∈ db.childrenOf p ↔ Edge db.graph p c := by
  simp only [childrenOf, List.mem_append, List.mem_map, Prod.exists, exists_eq_right, ExtTreeMap.mem_toList_iff_getElem?_eq_some]
  constructor
  · rintro (⟨name, h⟩ | ⟨i, h⟩)
    · exact ⟨.key name, h⟩
    · exact ⟨.index i, h⟩
  · rintro ⟨s, h⟩
    cases s with
    | key name => exact .inl ⟨name, h⟩
    | index i => exact .inr ⟨i, h⟩

/-- The recursive query yields exactly what a root reaches. -/
theorem mem_reachable {n : NodeId} :
    n ∈ db.reachable ↔ ∃ (blob : Bytes.Blob) (name : String) (root : NodeId),
      (db.versionNamespaces.rows blob)[name]? = some root ∧ Reach db.graph root n := by
  have hsupport : ∀ id, id ∉ db.mapEdges.support.toFinset ∪ db.arrayEdges.support.toFinset → db.childrenOf id = [] := by
    intro id hid
    rw [Finset.mem_union, List.mem_toFinset, List.mem_toFinset, not_or] at hid
    unfold childrenOf
    rw [Table.rows_of_not_mem_support hid.1, Table.rows_of_not_mem_support hid.2]
    simp
  have hfuel : db.versionNamespaces.values.length +
      ∑ id ∈ db.mapEdges.support.toFinset ∪ db.arrayEdges.support.toFinset, (db.childrenOf id).length ≤
      db.versionNamespaces.values.length + (db.mapEdges.values.length + db.arrayEdges.values.length) := by
    have hlen : ∀ id, (db.childrenOf id).length = (db.mapEdges.rows id).size + (db.arrayEdges.rows id).size := by
      intro id
      simp [childrenOf]
    simp only [hlen, Finset.sum_add_distrib]
    rw [Table.length_values db.mapEdges fun p hp => Finset.mem_union_left _ (List.mem_toFinset.2 hp),
      Table.length_values db.arrayEdges fun p hp => Finset.mem_union_right _ (List.mem_toFinset.2 hp)]
  have hreach : Closure.Reach db.childrenOf = Reach db.graph := by
    unfold Closure.Reach Reach
    congr 1
    funext p c
    exact propext mem_childrenOf
  unfold reachable
  rw [Closure.mem_visit hsupport hfuel, hreach]
  simp only [Table.mem_values]
  constructor
  · rintro ⟨root, ⟨blob, name, hroot⟩, hn⟩
    exact ⟨blob, name, root, hroot, hn⟩
  · rintro ⟨blob, name, root, hroot, hn⟩
    exact ⟨root, ⟨blob, name, hroot⟩, hn⟩

theorem graph_sweep (db : SqliteStorage) (l : List NodeId) : (db.sweep l).graph = db.graph.sweep (· ∈ l) := by
  ext1
  · funext id
    simp only [graph, SqliteStorage.sweep, Graph.sweep, ExtTreeMap.getElem?_filter']
    by_cases hid : id ∈ l <;> cases db.nodes[id]? <;> simp [hid]
  · funext id s
    cases s with
    | key name =>
      simp only [graph, SqliteStorage.sweep, Graph.sweep, Table.rows_filter, decide_eq_true_eq]
      by_cases hid : id ∈ l <;> simp [hid]
    | index i =>
      simp only [graph, SqliteStorage.sweep, Graph.sweep, Table.rows_filter, decide_eq_true_eq]
      by_cases hid : id ∈ l <;> simp [hid]

end Retain

theorem Abstracts.dropUnkept (h : Abstracts db versions) (keep : List EnvelopeDigest) :
    Abstracts (db.dropUnkept keep) fun d => if d ∈ keep then versions d else none where
  good := h.good
  held d := by
    have hheld := h.held d
    unfold versionExists at hheld ⊢
    rw [Bool.eq_iff_iff, ← ExtTreeSet.mem_iff_contains] at hheld ⊢
    simp only [SqliteStorage.dropUnkept, ExtTreeSet.mem_filter, hheld]
    by_cases hd : d ∈ keep <;> simp [hd]
  rows d := by
    have hrows : (db.dropUnkept keep).versionNamespaces.rows (asSlice d) =
        if d ∈ keep then db.versionNamespaces.rows (asSlice d) else ∅ := by
      simp [SqliteStorage.dropUnkept]
    rw [hrows]
    by_cases hd : d ∈ keep
    · rw [if_pos hd, if_pos hd]
      exact (h.rows d).of_graph rfl
    · rw [if_neg hd, if_neg hd]
      exact .empty
  digests blob hblob := by
    have hkeep : blob ∈ keep.map asSlice := by
      by_contra hkeep
      rcases hblob with hblob | hblob
      · obtain ⟨_, hb⟩ := ExtTreeSet.mem_filter.1 hblob
        simp only [ExtTreeSet.get_eq, decide_eq_true_eq] at hb
        exact hkeep hb
      · refine hblob ?_
        simp only [SqliteStorage.dropUnkept, Table.rows_filter, decide_eq_true_eq, if_neg hkeep]
    obtain ⟨d, -, rfl⟩ := List.mem_map.1 hkeep
    exact ⟨d, rfl⟩

/-- What no root reaches is no part of a version. -/
theorem Abstracts.sweep (h : Abstracts db versions) : Abstracts (db.sweep db.reachable) versions := by
  have hclosed : ∀ n c, n ∈ db.reachable → Edge db.graph n c → c ∈ db.reachable := by
    intro n c hn hc
    rw [mem_reachable] at hn ⊢
    obtain ⟨blob, name, root, hroot, hn⟩ := hn
    exact ⟨blob, name, root, hroot, hn.tail hc⟩
  refine ⟨?_, h.held, fun d => ⟨fun key => ?_, (h.rows d).named⟩, h.digests⟩
  · rw [graph_sweep]
    exact h.good.sweep hclosed
  · have hrel := (h.rows d).root key
    show Option.Rel _ (db.versionNamespaces.rows (asSlice d))[key.name]? _
    cases hr : (db.versionNamespaces.rows (asSlice d))[key.name]? with
    | none =>
      rw [hr] at hrel
      generalize ((versions d).getD ∅)[key]? = o at hrel ⊢
      cases hrel
      exact .none
    | some root =>
      rw [hr] at hrel
      generalize ((versions d).getD ∅)[key]? = o at hrel ⊢
      cases hrel with
      | some hns =>
        refine .some ?_
        unfold Represents
        rw [graph_sweep]
        exact hns.sweep fun n hn => mem_reachable.2 ⟨_, _, root, hr, hn⟩

/-- Retaining drops exactly the versions that are not kept. -/
theorem Abstracts.retain (h : Abstracts db versions) (keep : List EnvelopeDigest) :
    Abstracts (db.retain keep) fun d => if d ∈ keep then versions d else none :=
  (h.dropUnkept keep).sweep

end SqliteStorage

end IrohLotus.Storage
