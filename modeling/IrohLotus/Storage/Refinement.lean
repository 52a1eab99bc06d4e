/-
The SQLite backend refines the in-memory one: a sequence of operations that the in-memory store may be
asked to perform is performed by both, and every read then gives the same from both. The relation is
the versions of `Abstracts` beside the log, row by row; the two stamps of a record are not compared.
-/
import IrohLotus.Storage.Integrity
import IrohLotus.Storage.Log
import IrohLotus.Storage.Walk

namespace IrohLotus.Storage

open Std Outcome Bytes IrohLotus.Wire

/-! ## Operations -/

/-- What a store is asked to do. A stamp is read off each backend's own clock: `clock` is the reading of
the in-memory store's, `now` that of the database's. -/
inductive Operation where
  | install (head : EnvelopeDigest) (namespaces : List (NamespaceKey × Namespace))
  | commit (parent head : EnvelopeDigest) (op : NamespaceOp)
  | retain (keep : List EnvelopeDigest)
  | putEnvelope (clock now : StoredAt) (digest : EnvelopeDigest) (envelope : Envelope)
  | removeEnvelope (digest : EnvelopeDigest)

/-- The namespaces of an install collected by key, a later one over an earlier one. -/
def collect (namespaces : List (NamespaceKey × Namespace)) : Version :=
  namespaces.foldl (fun version e => version.insert e.1 e.2) ∅

def MemStorage.perform (s : MemStorage) : Operation → Res Empty MemStorage
  | .install head namespaces => pure (s.install head (collect namespaces))
  | .commit parent head op => s.commit parent head op
  | .retain keep => pure (s.retain keep)
  | .putEnvelope clock _ digest envelope => pure ({ s with clock }.putEnvelope digest envelope)
  | .removeEnvelope digest => pure (s.removeEnvelope digest)

def SqliteStorage.perform [Externals] [Backing] (db : SqliteStorage) : Operation → Res SqliteError SqliteStorage
  | .install head namespaces => db.install head namespaces
  | .commit parent head op => db.commit parent head op
  | .retain keep => pure (db.retain keep)
  | .putEnvelope _ now digest envelope => db.putEnvelope now digest envelope
  | .removeEnvelope digest => pure (db.removeEnvelope digest)

/-! ## What a store may be asked -/

/-- The resolution that allows a `SetAt`: a missing terminal is only ever a fresh key set into a map. -/
def AllowsSet (path : SubkeyPath) (value : Option Value) : Resolution → Prop
  | .node _ => True
  | .missing depth stoppedIn => stoppedIn = .map ∧ depth + 1 = path.segments.length ∧ value.isSome
  | .mismatch _ => False

/-- The path addresses what the op amends: an array, or for an append a fresh key of a map; an integer
whose sum clamps or fits, under bounds that are not inverted; a map or an array. -/
def AllowsAmend (root : Value) (path : List Subkey) : AmendOp → Prop
  | .appendEntry _ =>
    resolve root path = .node .array ∨ ∃ depth, resolve root path = .missing depth .map ∧ depth + 1 = path.length
  | .incrementDecrement inc =>
    (∀ min max, inc.min = some min → inc.max = some max → min ≤ max) ∧
      ∃ n sum, root.walk path = some (.int n) ∧ inc.apply n = some sum
  | .deleteMatching _ => resolve root path = .node .map ∨ resolve root path = .node .array

/-- The pre-validated contract on a namespace write, against the version it is applied to. -/
def NamespaceOp.PreValidated (version : Version) : NamespaceOp → Prop
  | .put _ _ => True
  | .delete key => ∃ ns, version[key]? = some ns
  | .setAt key path value => ∃ ns, version[key]? = some ns ∧ AllowsSet path value (resolve ns.value path.segments)
  | .amendAt key path op => ∃ ns, version[key]? = some ns ∧ AllowsAmend ns.value (segmentsOf path) op

/-- The failing ids of a status are a set, listed in ascending order. -/
def Ascending : VerificationStatus → Prop
  | .failed failingKeyIds => failingKeyIds.Pairwise fun a b => compare a b = .lt
  | .unchecked | .allMatched _ => True

/-- An operation a store that stands where `s` does may be asked for, in a run over `contents`. -/
def Legal [Externals] [Backing] (contents : Set SignedPortion) (s : MemStorage) : Operation → Prop
  | .install _ namespaces => ∀ e ∈ namespaces, Ordered e.2.value
  | .commit parent head op =>
    head ≠ parent ∧ op.Ordered ∧ ∃ version, s.versions[parent]? = some version ∧ op.PreValidated version
  | .retain _ => True
  | .putEnvelope _ now digest envelope =>
    envelope.digest = .ok digest ∧ envelope.toSignedPortion ∈ contents ∧ Ascending envelope.verificationStatus ∧
      Backing.isTime now = true
  | .removeEnvelope _ => True

/-- Each operation in turn is one the store may be asked for by then. -/
def LegalFrom [Externals] [Backing] (contents : Set SignedPortion) : MemStorage → List Operation → Prop
  | _, [] => True
  | s, op :: ops => Legal contents s op ∧ ∀ t, s.perform op = .ok t → LegalFrom contents t ops

/-! ## Pre-validated writes go through -/

section PreValidated

variable {E : Type} {version : Version}

theorem exists_setAt {root : Value} {path : SubkeyPath} {value : Option Value}
    (h : AllowsSet path value (resolve root path.segments)) : ∃ w, setAt (E := E) root path value = .ok w := by
  cases hr : resolve root path.segments with
  | node k =>
    obtain ⟨x, hx, -⟩ := resolveFrom_eq_node hr
    exact setAt_of_walk value hx
  | missing depth stoppedIn =>
    rw [hr] at h
    obtain ⟨rfl, hlen, hsome⟩ := h
    obtain ⟨v, rfl⟩ := Option.isSome_iff_exists.1 hsome
    obtain ⟨entries, name, hp, hl, -⟩ := resolveFrom_eq_missing_last hr (by omega)
    exact setAt_fresh v hp hl
  | mismatch depth =>
    rw [hr] at h
    exact h.elim

theorem exists_amendAt {root : Value} {path : Option SubkeyPath} {op : AmendOp}
    (h : AllowsAmend root (segmentsOf path) op) : ∃ w, amendAt (E := E) root path op = .ok w := by
  have hnode : ∀ {k : NodeKind}, resolve root (segmentsOf path) = .node k →
      ∃ x put, kind x = k ∧ walkMut root (segmentsOf path) = some (x, put) := by
    intro k hk
    obtain ⟨x, hx, hkind⟩ := resolveFrom_eq_node hk
    obtain ⟨put, hput⟩ := exists_walkMut hx
    exact ⟨x, put, hkind, hput⟩
  cases op with
  | appendEntry entry =>
    obtain ⟨items, put, ht⟩ : ∃ items put, appendTarget (E := E) root (segmentsOf path) = .ok (.array items, put) := by
      rcases h with h | ⟨depth, h, hlen⟩
      · obtain ⟨x, hx, hkind⟩ := resolveFrom_eq_node h
        obtain ⟨put, ht⟩ := appendTarget_of_walk (E := E) hx
        cases x <;> simp only [kind, reduceCtorEq] at hkind
        exact ⟨_, put, ht⟩
      · obtain ⟨entries, name, hp, hl, hg⟩ := resolveFrom_eq_missing_last h (by omega)
        obtain ⟨put, ht⟩ := appendTarget_fresh (E := E) hp hl hg
        exact ⟨[], put, ht⟩
    simp only [amendAt, ht, Res.ok_bind]
    exact ⟨_, rfl⟩
  | incrementDecrement inc =>
    obtain ⟨-, n, sum, hn, hsum⟩ := h
    obtain ⟨put, hput⟩ := exists_walkMut hn
    simp only [amendAt, hput, Res.expect_some, Res.ok_bind, hsum]
    exact ⟨_, rfl⟩
  | deleteMatching predicate =>
    rcases h with h | h
    · obtain ⟨x, put, hkind, hput⟩ := hnode h
      cases x <;> simp only [kind, reduceCtorEq] at hkind
      simp only [amendAt, hput, Res.expect_some, Res.ok_bind]
      exact ⟨_, rfl⟩
    · obtain ⟨x, put, hkind, hput⟩ := hnode h
      cases x <;> simp only [kind, reduceCtorEq] at hkind
      simp only [amendAt, hput, Res.expect_some, Res.ok_bind]
      exact ⟨_, rfl⟩

/-- A pre-validated write makes a version. -/
theorem NamespaceOp.PreValidated.exists_update {op : NamespaceOp} (h : op.PreValidated version) :
    ∃ version', op.update (E := E) version = .ok version' := by
  cases op with
  | put key ns => exact ⟨_, rfl⟩
  | delete key =>
    obtain ⟨ns, hns⟩ := h
    simp only [NamespaceOp.update, hns, Res.expect_some, Res.ok_bind]
    exact ⟨_, rfl⟩
  | setAt key path value =>
    obtain ⟨ns, hns, hallows⟩ := h
    obtain ⟨w, hw⟩ := exists_setAt (E := E) hallows
    simp only [NamespaceOp.update, hns, Res.expect_some, Res.ok_bind, hw]
    exact ⟨_, rfl⟩
  | amendAt key path op =>
    obtain ⟨ns, hns, hallows⟩ := h
    obtain ⟨w, hw⟩ := exists_amendAt (E := E) hallows
    simp only [NamespaceOp.update, hns, Res.expect_some, Res.ok_bind, hw]
    exact ⟨_, rfl⟩

end PreValidated

/-! ## Rows of the log -/

section Rows

theorem keyIdOf_asBytes (id : KeyId) : keyIdOf (asBytes id) = id := by
  unfold keyIdOf asBytes
  rw [ofNat_toNumber_ofNumber 32 id.hash]

/-- Ascending lists with the same elements are one list. -/
theorem eq_of_ascending {α : Type} [Ord α] [TransOrd α] {l l' : List α} (h : l.Pairwise fun a b => compare a b = .lt)
    (h' : l'.Pairwise fun a b => compare a b = .lt) (hmem : ∀ a, a ∈ l ↔ a ∈ l') : l = l' := by
  have hanti : Std.Antisymm fun a b : α => compare a b = .lt :=
    ⟨fun _ _ hab hba => (OrientedCmp.not_lt_of_lt hab hba).elim⟩
  have hirrefl : Std.Irrefl fun a b : α => compare a b = .lt :=
    ⟨fun _ haa => OrientedCmp.not_lt_of_lt haa haa⟩
  exact h.eq_of_mem_iff h' hmem

/-- An ascending list is the listing of the set of its elements. -/
theorem toList_ofList {ids : List KeyId} (h : ids.Pairwise fun a b => compare a b = .lt) :
    (ExtTreeSet.ofList ids).toList = ids := by
  refine eq_of_ascending ExtTreeSet.ordered_toList h fun id => ?_
  rw [ExtTreeSet.mem_toList, ExtTreeSet.mem_ofList, List.contains_iff_mem]

theorem statusFrom_allMatched {weight : Int} (h : 0 ≤ weight ∧ weight < 2 ^ 32) :
    statusFrom ALL_MATCHED (some weight) none = .ok (.allMatched weight.toNat.toUInt32) := by
  have hcode : ALL_MATCHED ≠ UNCHECKED ∧ ALL_MATCHED ≠ FAILED := by decide
  unfold statusFrom
  rw [if_neg hcode.1, if_neg hcode.2, if_pos rfl]
  exact if_pos h

/-- A status reads back from its columns. -/
theorem statusFrom_statusColumns {status : VerificationStatus} (h : Ascending status) :
    statusFrom (statusColumns status).1 (statusColumns status).2.1 (statusColumns status).2.2 = .ok status := by
  cases status with
  | unchecked => rfl
  | failed ids =>
    have hids : keyIdsFrom (ids.flatMap asBytes) = .ok ids := by
      unfold keyIdsFrom
      have hlen : ∀ id : KeyId, (asBytes id).length = 32 := fun id => length_ofNumber 32 _
      rw [chunks_flatMap (by decide) hlen]
      simp only [List.isEmpty_nil, if_true, List.map_map]
      have hmap : ids.map (keyIdOf ∘ asBytes) = ids := by
        conv_rhs => rw [← List.map_id ids]
        exact List.map_congr_left fun id _ => keyIdOf_asBytes id
      rw [hmap, toList_ofList h]
      rfl
    have hcode : FAILED ≠ UNCHECKED := by decide
    unfold statusFrom
    simp only [statusColumns, if_neg hcode, if_true, Res.okOr, Res.ok_bind, hids]
    rfl
  | allMatched weight =>
    have hrange : (0 : Int) ≤ weight.toNat ∧ (weight.toNat : Int) < 2 ^ 32 := by
      have := weight.toNat_lt
      omega
    show statusFrom ALL_MATCHED (some (weight.toNat : Int)) none = _
    rw [statusFrom_allMatched hrange, Int.toNat_natCast]
    exact congrArg (fun w => Except.ok (VerificationStatus.allMatched w)) UInt32.ofNat_toNat

variable [Externals] [Backing]

/-- The row reads back as the envelope, and names its parent. -/
structure RowOf (row : EnvelopeRow) (envelope : Envelope) : Prop where
  entry : SqliteStorage.entryOf row = .ok ⟨envelope, row.storedAt⟩
  prev : row.prev = envelope.prev.map asSlice

theorem rowOf_put {envelope : Envelope} {digest : EnvelopeDigest} {bytes : Blob} {storedAt : StoredAt}
    (hencode : Backing.encodeEnvelope envelope.toSignedPortion = .ok bytes) (hdigest : envelope.digest = .ok digest)
    (hstatus : Ascending envelope.verificationStatus) (htime : Backing.isTime storedAt = true) :
    RowOf ⟨bytes, envelope.prev.map asSlice, (statusColumns envelope.verificationStatus).1,
      (statusColumns envelope.verificationStatus).2.1, (statusColumns envelope.verificationStatus).2.2, storedAt⟩
      envelope where
  entry := by
    obtain ⟨bytes', hencode', hdecode⟩ := Backing.decodeEnvelope_encodeEnvelope _ _ hdigest
    rw [hencode] at hencode'
    cases hencode'
    unfold SqliteStorage.entryOf
    simp only [hdecode, statusFrom_statusColumns hstatus, Res.ofExcept, Res.ok_bind, htime, if_true]
    rfl
  prev := rfl

end Rows

/-! ## The relation -/

variable [Externals] [Backing]

/-- The database holds what the in-memory store does: its versions, and a row for each record of its
log, all of contents of the run under their own digests. -/
structure Refines (contents : Set SignedPortion) (db : SqliteStorage) (s : MemStorage) : Prop where
  versions : SqliteStorage.Abstracts db fun d => s.versions[d]?
  log : ∀ d, Option.Rel RowOf db.envelopes[asSlice d]? (s.envelope d)
  digests : ∀ blob ∈ db.envelopes, ∃ d, blob = asSlice d
  times : ∀ (blob : Blob) (row : EnvelopeRow), db.envelopes[blob]? = some row → Backing.isTime row.storedAt = true
  content : ∀ d e, s.envelope d = some e → e.toSignedPortion ∈ contents ∧ e.digest = .ok d
  indexed : s.Indexed

variable {contents : Set SignedPortion} {db db' : SqliteStorage} {s : MemStorage}

/-- What every read answers, from both. -/
structure SameAnswers (db : SqliteStorage) (s : MemStorage) : Prop where
  containsVersion : ∀ head, db.containsVersion head = s.containsVersion head
  resolve : ∀ head, s.containsVersion head = true → ∀ key path, ∃ r,
    db.resolve head key path = .ok r ∧ s.resolve (E := Empty) head key path = .ok r
  valueAt : ∀ head, s.containsVersion head = true → ∀ key path, ∃ r,
    db.valueAt head key path = .ok r ∧ s.valueAt (E := Empty) head key path = .ok r
  metaAt : ∀ head, s.containsVersion head = true → ∀ key path, ∃ r,
    db.metaAt head key path = .ok r ∧ s.metaAt (E := Empty) head key path = .ok r
  nsAt : ∀ head, s.containsVersion head = true → ∀ key, ∃ r,
    db.nsAt head key = .ok r ∧ s.nsAt (E := Empty) head key = .ok r
  namespaces : ∀ head, s.containsVersion head = true → ∃ version : Version,
    db.namespaces head = .ok version.toList ∧ s.namespaces (E := Empty) head = .ok version
  namespaceKeys : ∀ head, s.containsVersion head = true → ∃ keys,
    db.namespaceKeys head = .ok keys ∧ s.namespaceKeys (E := Empty) head = .ok keys
  envelope : ∀ digest, db.envelope digest = .ok (s.envelope digest)
  parent : ∀ digest, db.parent digest = .ok (s.parent digest)
  children : ∀ parent, db.children parent = .ok (s.children parent)

namespace Refines

theorem empty (clock : StoredAt) : Refines contents SqliteStorage.empty (MemStorage.empty clock) where
  versions := by simpa [MemStorage.empty] using SqliteStorage.Abstracts.empty
  log d := by simp [SqliteStorage.empty, MemStorage.empty, MemStorage.envelope, MemStorage.loggedEnvelope]
  digests blob hblob := absurd hblob ExtTreeMap.not_mem_empty
  times blob row hrow := by simp [SqliteStorage.empty] at hrow
  content d e he := by simp [MemStorage.empty, MemStorage.envelope, MemStorage.loggedEnvelope] at he
  indexed := MemStorage.indexed_empty clock

/-! ## Reads -/

theorem envelope (h : Refines contents db s) (digest : EnvelopeDigest) : db.envelope digest = .ok (s.envelope digest) := by
  have hrel := h.log digest
  unfold SqliteStorage.envelope SqliteStorage.loggedEnvelope
  generalize s.envelope digest = o at hrel
  generalize db.envelopes[asSlice digest]? = row at hrel
  cases hrel with
  | none => rfl
  | some hrow =>
    simp only [hrow.entry]
    rfl

theorem parent (h : Refines contents db s) (digest : EnvelopeDigest) : db.parent digest = .ok (s.parent digest) := by
  have hrel := h.log digest
  unfold SqliteStorage.parent MemStorage.parent
  generalize s.envelope digest = o at hrel
  generalize db.envelopes[asSlice digest]? = row at hrel
  cases hrel with
  | none => rfl
  | @some row e hrow =>
    simp only [Option.bind_some, hrow.prev]
    cases e.prev with
    | none => rfl
    | some prev =>
      simp only [Option.map_some, digestFrom_asSlice]
      rfl

theorem mem_children (h : Refines contents db s) {parent digest : EnvelopeDigest} :
    asSlice digest ∈ (db.envelopes.filter fun _ row => row.prev = some (asSlice parent)).keys ↔
      s.parent digest = some parent := by
  have hrel := h.log digest
  rw [ExtTreeMap.mem_keys, ExtTreeMap.mem_iff_isSome_getElem?, ExtTreeMap.getElem?_filter']
  unfold MemStorage.parent
  generalize s.envelope digest = o at hrel
  generalize db.envelopes[asSlice digest]? = row at hrel
  cases hrel with
  | none => simp
  | @some row e hrow =>
    have hprev : (row.prev = some (asSlice parent)) ↔ e.prev = some parent := by
      rw [hrow.prev]
      cases e.prev with
      | none => simp
      | some prev => simp only [Option.map_some, Option.some.injEq]; exact asSlice_inj
    by_cases hp : e.prev = some parent
    · simp [hprev.2 hp, hp]
    · simp [mt hprev.1 hp, hp]

/-- Blobs are listed as the digests they spell. -/
theorem children (h : Refines contents db s) (parent : EnvelopeDigest) : db.children parent = .ok (s.children parent) := by
  have hkeys : (db.envelopes.filter fun _ row => row.prev = some (asSlice parent)).keys =
      (s.children parent).map asSlice := by
    refine eq_of_ascending ExtTreeMap.ordered_keys ?_ fun blob => ?_
    · refine List.pairwise_map.2 (ExtTreeSet.ordered_toList.imp fun {a b} hab => ?_)
      rw [compare_asSlice]
      exact hab
    · rw [List.mem_map]
      constructor
      · intro hblob
        have hmem : blob ∈ db.envelopes := ExtTreeMap.mem_of_mem_filter (ExtTreeMap.mem_keys.1 hblob)
        obtain ⟨d, rfl⟩ := h.digests blob hmem
        exact ⟨d, h.indexed.mem_children.2 (h.mem_children.1 hblob), rfl⟩
      · rintro ⟨d, hd, rfl⟩
        exact h.mem_children.2 (h.indexed.mem_children.1 hd)
  unfold SqliteStorage.children
  rw [hkeys, List.mapM_map]
  have hid := Res.mapM_of_ok (E := SqliteError) (l := s.children parent) (f := fun d => digestFrom (asSlice d)) (g := id)
    fun d _ => digestFrom_asSlice d
  rw [List.map_id] at hid
  exact hid

theorem sameAnswers (h : Refines contents db s) : SameAnswers db s := by
  have hheld : ∀ {head}, s.containsVersion head = true → ∃ version, s.versions[head]? = some version :=
    fun hhead => (s.containsVersion_iff _).1 hhead
  refine ⟨fun head => ?_, fun head hhead key path => ?_, fun head hhead key path => ?_, fun head hhead key path => ?_,
    fun head hhead key => ?_, fun head hhead => ?_, fun head hhead => ?_, h.envelope, h.parent, h.children⟩
  · rw [s.containsVersion_eq]
    exact h.versions.held head
  · obtain ⟨version, hv⟩ := hheld hhead
    refine ⟨_, h.versions.resolve hv key path, ?_⟩
    simp only [MemStorage.resolve, s.version_eq_ok hv, Res.ok_bind]
    rfl
  · obtain ⟨version, hv⟩ := hheld hhead
    refine ⟨_, h.versions.valueAt hv key path, ?_⟩
    simp only [MemStorage.valueAt, s.version_eq_ok hv, Res.ok_bind]
    rfl
  · obtain ⟨version, hv⟩ := hheld hhead
    refine ⟨_, h.versions.metaAt hv key path, ?_⟩
    simp only [MemStorage.metaAt, s.version_eq_ok hv, Res.ok_bind]
    rfl
  · obtain ⟨version, hv⟩ := hheld hhead
    refine ⟨_, h.versions.nsAt hv key, ?_⟩
    simp only [MemStorage.nsAt, s.version_eq_ok hv, Res.ok_bind]
    rfl
  · obtain ⟨version, hv⟩ := hheld hhead
    exact ⟨version, h.versions.namespaces hv, s.version_eq_ok hv⟩
  · obtain ⟨version, hv⟩ := hheld hhead
    refine ⟨_, h.versions.namespaceKeys hv, ?_⟩
    simp only [MemStorage.namespaceKeys, MemStorage.namespaces, s.version_eq_ok hv, Res.ok_bind]
    rfl

/-! ## Writes -/

/-- A write of versions that leaves the log alone. -/
theorem of_versions (h : Refines contents db s) {version : Version} {head : EnvelopeDigest}
    (hw : SqliteStorage.Writes (fun d => s.versions[d]?) head db db' version) :
    Refines contents db' (s.install head version) where
  versions := by
    have hupdate : (fun d => (s.install head version).versions[d]?) =
        Function.update (fun d => s.versions[d]?) head (some version) := by
      funext d
      rw [MemStorage.versions_install, Function.update_apply]
      simp only [eq_comm]
    rw [hupdate]
    exact hw.1
  log d := by rw [hw.2]; exact h.log d
  digests := by rw [hw.2]; exact h.digests
  times := by rw [hw.2]; exact h.times
  content := h.content
  indexed := h.indexed.install head version

theorem retain (h : Refines contents db s) (keep : List EnvelopeDigest) :
    Refines contents (db.retain keep) (s.retain keep) where
  versions := by
    have hkept : (fun d => (s.retain keep).versions[d]?) = fun d => if d ∈ keep then s.versions[d]? else none := by
      funext d
      exact s.versions_retain keep d
    rw [hkept]
    exact h.versions.retain keep
  log := h.log
  digests := h.digests
  times := h.times
  content := h.content
  indexed := h.indexed.retain keep

/-- A clock that moves on is no write. -/
theorem tick (h : Refines contents db s) (clock : StoredAt) : Refines contents db { s with clock } :=
  ⟨h.versions, h.log, h.digests, h.times, h.content, h.indexed⟩

/-- The log of a database does not show in its versions. -/
theorem abstracts_log {versions : EnvelopeDigest → Option Version} (h : SqliteStorage.Abstracts db versions)
    (envelopes : ExtTreeMap Blob EnvelopeRow) : SqliteStorage.Abstracts { db with envelopes } versions :=
  ⟨h.good, h.held, fun d => (h.rows d).of_graph rfl, h.digests⟩

theorem removeEnvelope (h : Refines contents db s) (digest : EnvelopeDigest) :
    Refines contents (db.removeEnvelope digest) (s.removeEnvelope digest) where
  versions := abstracts_log h.versions _
  log d := by
    rw [MemStorage.envelope_removeEnvelope]
    simp only [SqliteStorage.removeEnvelope, ExtTreeMap.getElem?_erase, Std.compare_eq_iff_eq, asSlice_inj]
    split
    · exact .none
    · exact h.log d
  digests blob hblob := h.digests blob (ExtTreeMap.mem_of_mem_erase hblob)
  times blob row hrow := by
    simp only [SqliteStorage.removeEnvelope, ExtTreeMap.getElem?_erase] at hrow
    split at hrow
    · cases hrow
    · exact h.times blob row hrow
  content d e he := by
    rw [MemStorage.envelope_removeEnvelope] at he
    split at he
    · cases he
    · exact h.content d e he
  indexed := h.indexed.removeEnvelope digest

theorem putEnvelope (h : Refines contents db s) (collisionFree : ∀ a ∈ contents, ∀ b ∈ contents, ∀ d,
      a.digest = .ok d → b.digest = .ok d → a = b) {now : StoredAt} {digest : EnvelopeDigest} {envelope : Envelope}
    (hdigest : envelope.digest = .ok digest) (hmem : envelope.toSignedPortion ∈ contents)
    (hstatus : Ascending envelope.verificationStatus) (htime : Backing.isTime now = true) :
    ∃ db', db.putEnvelope now digest envelope = .ok db' ∧ Refines contents db' (s.putEnvelope digest envelope) := by
  obtain ⟨bytes, hencode, -⟩ := Backing.decodeEnvelope_encodeEnvelope _ _ hdigest
  have hstamp : Backing.isTime (db.envelopes[asSlice digest]?.elim now EnvelopeRow.storedAt) = true := by
    cases hrow : db.envelopes[asSlice digest]? with
    | none => exact htime
    | some row => exact h.times _ row hrow
  have hrow := rowOf_put hencode hdigest hstatus hstamp
  refine ⟨_, by unfold SqliteStorage.putEnvelope; rw [hencode]; rfl, abstracts_log h.versions _, fun d => ?_, fun blob hblob => ?_,
    fun blob row hget => ?_, fun d e he => ?_, h.indexed.putEnvelope fun e' he' => ?_⟩
  · rw [MemStorage.envelope_putEnvelope]
    simp only [ExtTreeMap.getElem?_insert, Std.compare_eq_iff_eq, asSlice_inj]
    split
    · exact .some hrow
    · exact h.log d
  · rcases ExtTreeMap.mem_insert.1 hblob with heq | hblob
    · exact ⟨digest, (Std.compare_eq_iff_eq.1 heq).symm⟩
    · exact h.digests blob hblob
  · simp only [ExtTreeMap.getElem?_insert] at hget
    split at hget
    · rw [← Option.some.inj hget]
      exact hstamp
    · exact h.times blob row hget
  · rw [MemStorage.envelope_putEnvelope] at he
    split at he
    · rename_i heq
      subst heq
      rw [← Option.some.inj he]
      exact ⟨hmem, hdigest⟩
    · exact h.content d e he
  · -- the record it replaces has the same content, and so the same parent
    obtain ⟨hmem', hdigest'⟩ := h.content digest e' he'
    have hsame := collisionFree _ hmem' _ hmem digest hdigest' hdigest
    simp only [Envelope.prev, hsame]

/-- Both perform what the in-memory store may be asked for, and stay related. -/
theorem perform (h : Refines contents db s) (collisionFree : ∀ a ∈ contents, ∀ b ∈ contents, ∀ d,
      a.digest = .ok d → b.digest = .ok d → a = b) {op : Operation} (legal : Legal contents s op) :
    ∃ db' s', db.perform op = .ok db' ∧ s.perform op = .ok s' ∧ Refines contents db' s' := by
  cases op with
  | install head namespaces =>
    obtain ⟨db', hdb', hw⟩ := SqliteStorage.install_of_abstracts h.versions head legal
    exact ⟨db', _, hdb', rfl, h.of_versions hw⟩
  | commit parent head op =>
    obtain ⟨hne, hop, version, hv, hvalid⟩ := legal
    obtain ⟨version', hu⟩ := hvalid.exists_update (E := Empty)
    have hsim := SqliteStorage.commit_sim (E := Empty) h.versions hv head hop
    rw [if_neg hne, hu] at hsim
    obtain ⟨db', hdb', hw⟩ := hsim.of_ok
    refine ⟨db', s.install head version', hdb', ?_, h.of_versions hw⟩
    simp only [MemStorage.perform, MemStorage.commit, s.version_eq_ok hv, Res.ok_bind, hu]
    rfl
  | retain keep => exact ⟨_, _, rfl, rfl, h.retain keep⟩
  | putEnvelope clock now digest envelope =>
    obtain ⟨hdigest, hmem, hstatus, htime⟩ := legal
    obtain ⟨db', hdb', hrefines⟩ := (h.tick clock).putEnvelope collisionFree hdigest hmem hstatus htime
    exact ⟨db', _, hdb', rfl, hrefines⟩
  | removeEnvelope digest => exact ⟨_, _, rfl, rfl, h.removeEnvelope digest⟩

theorem performAll (collisionFree : ∀ a ∈ contents, ∀ b ∈ contents, ∀ d, a.digest = .ok d → b.digest = .ok d → a = b) :
    ∀ {ops : List Operation} {db : SqliteStorage} {s : MemStorage}, Refines contents db s → LegalFrom contents s ops →
      ∃ db' s', ops.foldlM SqliteStorage.perform db = .ok db' ∧ ops.foldlM MemStorage.perform s = .ok s' ∧
        Refines contents db' s'
  | [], db, s, h, _ => ⟨db, s, rfl, rfl, h⟩
  | op :: ops, db, s, h, legal => by
    obtain ⟨db₁, s₁, hdb, hs, h₁⟩ := h.perform collisionFree legal.1
    obtain ⟨db₂, s₂, hdb₂, hs₂, h₂⟩ := performAll collisionFree h₁ (legal.2 s₁ hs)
    refine ⟨db₂, s₂, ?_, ?_, h₂⟩
    · rw [List.foldlM_cons, hdb, Res.ok_bind, hdb₂]
    · rw [List.foldlM_cons, hs, Res.ok_bind, hs₂]

end Refines

/-- The SQLite backend refines the in-memory one: from empty, both perform every sequence of operations
a store may be asked for, no panic and no corruption on the way, and then answer every read alike. -/
theorem SqliteStorage.refines (collisionFree : ∀ a ∈ contents, ∀ b ∈ contents, ∀ d,
      a.digest = .ok d → b.digest = .ok d → a = b) {clock : StoredAt} {ops : List Operation}
    (legal : LegalFrom contents (MemStorage.empty clock) ops) :
    ∃ db s, ops.foldlM SqliteStorage.perform SqliteStorage.empty = .ok db ∧
      ops.foldlM MemStorage.perform (MemStorage.empty clock) = .ok s ∧ SameAnswers db s := by
  obtain ⟨db, s, hdb, hs, h⟩ := Refines.performAll collisionFree (Refines.empty clock) legal
  exact ⟨db, s, hdb, hs, h.sameAnswers⟩

end IrohLotus.Storage

/-! ## The samples -/

namespace IrohLotus.Storage

open Std Outcome IrohLotus.Wire IrohLotus.Wire.Sample IrohLotus.Storage.Sample

/-- A list installed and shortened beside a log of two envelopes, then all but the newest version and
the younger envelope dropped. -/
def listOperations : List Operation :=
  [.putEnvelope 0 1 genesisDigest genesis, .install listedDigest SqliteStorage.listNamespaces,
    .putEnvelope 2 3 firstDigest (first.setVerificationStatus (.failed [⟨1⟩, ⟨2⟩])),
    .commit listedDigest clearedDigest SqliteStorage.dropFirst, .retain [clearedDigest], .removeEnvelope genesisDigest]

theorem legalFrom_listOperations : LegalFrom Sample.contents (MemStorage.empty 0) listOperations := by
  have hmem : genesis.toSignedPortion ∈ table.map Prod.fst ∧ first.toSignedPortion ∈ table.map Prod.fst := by
    decide +kernel
  have hdigest : genesis.digest = .ok genesisDigest ∧ first.digest = .ok firstDigest := by decide +kernel
  have htime : Backing.isTime 1 = true ∧ Backing.isTime 3 = true := by decide
  have hordered : ∀ e ∈ SqliteStorage.listNamespaces, Ordered e.2.value := by
    intro e he
    rw [List.mem_singleton.1 he]
    exact ⟨trivial, trivial, trivial⟩
  have hheld : ∃ ns, (collect SqliteStorage.listNamespaces)[SqliteStorage.listKey]? = some ns ∧
      AllowsSet ⟨[.index 0], by decide⟩ none (resolve ns.value [.index 0]) :=
    ⟨⟨.array [.string "x", .string "y"]⟩, by decide +kernel, trivial⟩
  refine ⟨⟨hdigest.1, hmem.1, trivial, htime.1⟩, ?_⟩
  rintro _ ⟨⟩
  refine ⟨hordered, ?_⟩
  rintro _ ⟨⟩
  refine ⟨⟨hdigest.2, hmem.2, List.pairwise_pair.2 (by decide), htime.2⟩, ?_⟩
  rintro _ ⟨⟩
  refine ⟨⟨by decide, fun v hv => (nomatch hv), collect SqliteStorage.listNamespaces, ?_, hheld⟩, ?_⟩
  · rw [MemStorage.versions_putEnvelope]
    exact MemStorage.versions_install _ _ _ _ ▸ if_pos rfl
  · intro t _
    exact ⟨trivial, fun _ _ => ⟨trivial, fun _ _ => trivial⟩⟩

theorem refines_listOperations : ∃ db s, listOperations.foldlM SqliteStorage.perform SqliteStorage.empty = .ok db ∧
    listOperations.foldlM MemStorage.perform (MemStorage.empty 0) = .ok s ∧ SameAnswers db s := by
  have hall : ∀ a ∈ table.map Prod.fst, ∀ b ∈ table.map Prod.fst, a.digest = b.digest → a = b := by decide +kernel
  exact SqliteStorage.refines (fun a ha b hb d hda hdb => hall a ha b hb (hda.trans hdb.symm)) legalFrom_listOperations

end IrohLotus.Storage
