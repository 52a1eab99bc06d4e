/-
`apply` is atomic and only adds, over either backend. Everything it judges it reads before its one
commit, and reads only off the version the ledger stands at; so over the SQLite backend the judgements
are those on that version as it reads back, and the commit is one transaction.
-/
import IrohLotus.State.LedgerLaws
import IrohLotus.Storage.Refinement

namespace IrohLotus.Storage

open Std Outcome IrohLotus.Wire

variable [Externals] [Backing]

/-! ## Databases -/

/-- The values an operation writes are as the source has them. -/
def Operation.Ordered : Operation → Prop
  | .install _ namespaces => ∀ e ∈ namespaces, Wire.Ordered e.2.value
  | .commit _ _ op => op.Ordered
  | .retain _ | .putEnvelope .. | .removeEnvelope _ => True

namespace SqliteStorage

/-- The databases operations lead to from an empty one, whatever the operations. One that fails is
rolled back. -/
inductive Performed : SqliteStorage → Prop
  | empty : Performed SqliteStorage.empty
  | perform {db db' : SqliteStorage} {op : Operation} : Performed db → op.Ordered → db.perform op = .ok db' → Performed db'

variable {db db' : SqliteStorage} {versions : EnvelopeDigest → Option Version}

theorem Performed.abstracts (h : Performed db) : ∃ versions, Abstracts db versions := by
  induction h with
  | empty => exact ⟨_, .empty⟩
  | @perform db db' op _ hop hdb' ih =>
    obtain ⟨versions, ih⟩ := ih
    cases op with
    | install head namespaces =>
      obtain ⟨version, hv⟩ := ih.install hop hdb'
      exact ⟨_, hv⟩
    | commit parent head op =>
      obtain ⟨version, hv⟩ := ih.commit hop hdb'
      exact ⟨_, hv⟩
    | retain keep =>
      cases hdb'
      exact ⟨_, ih.retain keep⟩
    | putEnvelope clock now digest envelope =>
      obtain ⟨bytes, -, hdb'⟩ := Res.bind_eq_ok hdb'
      cases hdb'
      exact ⟨_, Refines.abstracts_log ih _⟩
    | removeEnvelope digest =>
      cases hdb'
      exact ⟨_, Refines.abstracts_log ih _⟩

/-- The store a ledger at `head` reads: the version there, as far as the database holds one. -/
def view (db : SqliteStorage) (head : EnvelopeDigest) : MemStorage :=
  match db.namespaces head with
  | .ok namespaces => (MemStorage.empty 0).install head (ExtTreeMap.ofList namespaces)
  | .error _ => MemStorage.empty 0

omit [Externals] [Backing] in
theorem ofList_toList (version : Version) : ExtTreeMap.ofList version.toList = version := by
  refine ExtTreeMap.ext_getElem? fun key => ?_
  cases hv : version[key]? with
  | some ns =>
    rw [ExtTreeMap.getElem?_ofList_of_mem (k := key) (v := ns) (Std.compare_eq_iff_eq.2 rfl) version.distinct_keys_toList
      (ExtTreeMap.mem_toList_iff_getElem?_eq_some.2 hv)]
  | none =>
    refine ExtTreeMap.getElem?_ofList_of_contains_eq_false ?_
    rw [Bool.eq_false_iff, ne_eq, List.contains_iff_mem, ExtTreeMap.map_fst_toList_eq_keys, ExtTreeMap.mem_keys,
      ExtTreeMap.mem_iff_isSome_getElem?, hv]
    exact Bool.false_ne_true

/-- What it reads is the version the database holds at the head. -/
theorem Abstracts.view (h : Abstracts db versions) (head : EnvelopeDigest) : (db.view head).versions[head]? = versions head := by
  unfold SqliteStorage.view
  cases hv : versions head with
  | some version =>
    rw [h.namespaces hv]
    simp only [ofList_toList]
    rw [MemStorage.versions_install, if_pos rfl]
  | none =>
    obtain ⟨hrows, hexists⟩ := h.absent hv
    have hpanics : db.namespaces head = .error (.panic "head is pre-validated: the version exists") := by
      unfold SqliteStorage.namespaces SqliteStorage.namespaceRoots
      rw [hrows, hexists]
      simp
    rw [hpanics]
    simp [MemStorage.empty]

/-- Every read a judgement makes is answered by the database as by the view. -/
theorem Abstracts.reads_view (h : Abstracts db versions) (head : EnvelopeDigest) (key : NamespaceKey) (path : List Subkey) :
    Res.Sim (· = ·) (db.nsAt head key) ((db.view head).nsAt (E := Empty) head key) ∧
      Res.Sim (· = ·) (db.resolve head key path) ((db.view head).resolve (E := Empty) head key path) ∧
      Res.Sim (· = ·) (db.valueAt head key path) ((db.view head).valueAt (E := Empty) head key path) := by
  have hview := h.view head
  cases hv : versions head with
  | some version =>
    rw [hv] at hview
    simp only [h.nsAt hv, h.resolve hv, h.valueAt hv, MemStorage.nsAt, MemStorage.resolve, MemStorage.valueAt,
      MemStorage.version_eq_ok _ hview, Res.ok_bind]
    exact ⟨rfl, rfl, rfl⟩
  | none =>
    obtain ⟨hrows, hexists⟩ := h.absent hv
    have hpanics : db.namespaceRoot head key = .error (.panic "head is pre-validated: the version exists") := by
      unfold SqliteStorage.namespaceRoot
      rw [hrows, hexists]
      simp
    rw [hv] at hview
    simp only [SqliteStorage.nsAt, SqliteStorage.resolve, SqliteStorage.valueAt, SqliteStorage.walk, hpanics, MemStorage.nsAt,
      MemStorage.resolve, MemStorage.valueAt, MemStorage.version, hview]
    exact ⟨trivial, trivial, trivial⟩

end SqliteStorage

end IrohLotus.Storage

namespace IrohLotus.State

open Std Outcome IrohLotus.Wire IrohLotus.Storage

variable [Externals]

/-! ## Applying over either backend -/

namespace Ledger

/-- `apply` over the SQLite backend. -/
def applySqlite [Backing] (ledger : Ledger) (envelope : Envelope) : Action SqliteStorage ApplyError Ledger := do
  let (head, op) ← Action.read fun db => ledger.checked (db.view ledger.head) envelope
  Action.write fun db => (db.commit ledger.head head op).mapErr fun _ => .storage
  pure { head }

variable {ledger next : Ledger} {envelope : Envelope}

/-- An envelope that passes its checks was judged against a version the store holds. -/
theorem checked_held {s : MemStorage} {head : EnvelopeDigest} {op : NamespaceOp}
    (h : ledger.checked s envelope = .ok (head, op)) : ∃ v, s.versions[ledger.head]? = some v := by
  obtain ⟨-, -, hs, -, -⟩ := checked_eq_ok h
  unfold checkSigThresholds at hs
  dsimp only at hs
  split at hs
  · cases hs
  · obtain ⟨required, hrequired, -⟩ := Res.bind_eq_ok hs
    unfold minEnvelopeWeight threshold MemStorage.nsAt at hrequired
    obtain ⟨ns, hns, -⟩ := Res.bind_eq_ok hrequired
    obtain ⟨v, hv, -⟩ := Res.bind_eq_ok hns
    exact ⟨v, Res.expect_eq_ok hv⟩

/-- The op an envelope commits writes the values of its message. -/
theorem ordered_of_checked {s : MemStorage} {head : EnvelopeDigest} {op : NamespaceOp}
    (h : ledger.checked s envelope = .ok (head, op)) (hordered : envelope.payload.Ordered) : op.Ordered := by
  obtain ⟨v, hv⟩ := checked_held h
  obtain ⟨-, -, -, hm, -⟩ := checked_eq_ok h
  have hop := (validateMsg_eq_ok (E := Empty) hv hm).1
  cases hmsg : envelope.payload with
  | init msg => rw [hmsg] at hop; cases hop
  | setNamespace set =>
    rw [hmsg] at hop hordered
    cases hop
    exact hordered
  | setNamespaceKey set =>
    rw [hmsg] at hop hordered
    cases hop
    exact hordered
  | amendNamespaceKey amend =>
    rw [hmsg] at hop hordered
    cases hop
    intro entry hentry
    have hordered : amend.op.Ordered := hordered
    rw [hentry] at hordered
    exact hordered
  | deleteNamespace del =>
    rw [hmsg] at hop
    cases hop
    trivial

/-- `apply` returns an error and writes nothing, or makes one commit. -/
theorem apply_once (ledger : Ledger) (envelope : Envelope) (s : MemStorage) :
    (∃ halt, ledger.apply envelope s = (.error halt, s)) ∨
    ∃ head op t, ledger.checked s envelope = .ok (head, op) ∧ s.commit (E := ApplyError) ledger.head head op = .ok t ∧
      ledger.apply envelope s = (.ok ⟨head⟩, t) := by
  rcases Action.read_write_cases (fun s => ledger.checked s envelope)
      (fun r s => s.commit (E := ApplyError) ledger.head r.1 r.2) (fun r => (⟨r.1⟩ : Ledger)) s with
    ⟨halt, hrun⟩ | ⟨⟨head, op⟩, t, hc, hw, hrun⟩
  · exact .inl ⟨halt, hrun⟩
  · exact .inr ⟨head, op, t, hc, hw, hrun⟩

theorem applySqlite_once [Backing] (ledger : Ledger) (envelope : Envelope) (db : SqliteStorage) :
    (∃ halt, ledger.applySqlite envelope db = (.error halt, db)) ∨
    ∃ head op db', ledger.checked (db.view ledger.head) envelope = .ok (head, op) ∧
      db.commit ledger.head head op = .ok db' ∧ ledger.applySqlite envelope db = (.ok ⟨head⟩, db') := by
  rcases Action.read_write_cases (fun db : SqliteStorage => ledger.checked (db.view ledger.head) envelope)
      (fun r db => (db.commit ledger.head r.1 r.2).mapErr fun _ => ApplyError.storage) (fun r => (⟨r.1⟩ : Ledger)) db with
    ⟨halt, hrun⟩ | ⟨⟨head, op⟩, db', hc, hw, hrun⟩
  · exact .inl ⟨halt, hrun⟩
  · exact .inr ⟨head, op, db', hc, Res.mapErr_eq_ok hw, hrun⟩

/-- `apply` is atomic and only adds, on any store and envelope. On an error nothing was written. On
success the log is as it was, the version at the envelope's digest is there, and every other version
is or reads as it was; the ledger stands at that digest. -/
theorem apply_atomic [Backing] (ledger : Ledger) (envelope : Envelope) :
    (∀ (s : MemStorage), (∀ halt t, ledger.apply envelope s = (.error halt, t) → t = s) ∧
      ∀ next t, ledger.apply envelope s = (.ok next, t) →
        envelope.prev = some ledger.head ∧ envelope.digest = .ok next.head ∧
        t.envelopes = s.envelopes ∧ t.childIndex = s.childIndex ∧ t.containsVersion next.head = true ∧
        ∀ d : EnvelopeDigest, d ≠ next.head → t.versions[d]? = s.versions[d]?) ∧
    ∀ db : SqliteStorage, (∀ halt db', ledger.applySqlite envelope db = (.error halt, db') → db' = db) ∧
      (db.Performed → envelope.payload.Ordered → ∀ next db', ledger.applySqlite envelope db = (.ok next, db') →
        envelope.prev = some ledger.head ∧ envelope.digest = .ok next.head ∧
        db'.envelopes = db.envelopes ∧ db'.containsVersion next.head = true ∧
        ∀ d : EnvelopeDigest, d ≠ next.head → SqliteStorage.SameReads db db' d) := by
  refine ⟨fun s => ⟨fun halt t h => ?_, fun next t h => ?_⟩, fun db => ⟨fun halt db' h => ?_, fun hdb hordered next db' h => ?_⟩⟩
  · rcases apply_once ledger envelope s with ⟨halt', hrun⟩ | ⟨head, op, t', -, -, hrun⟩
    · rw [hrun] at h
      exact (Prod.mk.inj h).2.symm
    · rw [hrun] at h
      cases h
  · rcases apply_once ledger envelope s with ⟨halt', hrun⟩ | ⟨head, op, t', hc, hw, hrun⟩
    · rw [hrun] at h
      cases h
    · rw [hrun] at h
      cases h
      obtain ⟨hprev, hdigest, -⟩ := checked_eq_ok hc
      obtain ⟨v, v', -, -, rfl⟩ := s.commit_eq_ok hw
      refine ⟨hprev, hdigest, rfl, rfl, ?_, fun d hd => ?_⟩
      · rw [MemStorage.containsVersion_iff]
        exact ⟨v', by rw [MemStorage.versions_install, if_pos rfl]⟩
      · rw [MemStorage.versions_install, if_neg (Ne.symm hd)]
  · rcases applySqlite_once ledger envelope db with ⟨halt', hrun⟩ | ⟨head, op, db'', -, -, hrun⟩
    · rw [hrun] at h
      exact (Prod.mk.inj h).2.symm
    · rw [hrun] at h
      cases h
  · rcases applySqlite_once ledger envelope db with ⟨halt', hrun⟩ | ⟨head, op, db'', hc, hw, hrun⟩
    · rw [hrun] at h
      cases h
    · rw [hrun] at h
      cases h
      obtain ⟨hprev, hdigest, -⟩ := checked_eq_ok hc
      obtain ⟨versions, habs⟩ := hdb.abstracts
      obtain ⟨v, hv⟩ := checked_held hc
      rw [habs.view] at hv
      -- the commit is one write of the version at the digest
      have hsim := SqliteStorage.commit_sim (E := Empty) habs hv head (ordered_of_checked hc hordered)
      rw [hw] at hsim
      generalize op.update (E := Empty) (if head = ledger.head then ∅ else v) = r at hsim
      match r with
      | .ok version =>
        obtain ⟨habs', henvelopes⟩ := hsim
        refine ⟨hprev, hdigest, henvelopes, ?_, fun d hd => habs.sameReads habs' (Function.update_of_ne hd ..)⟩
        unfold SqliteStorage.containsVersion
        rw [habs'.held, Function.update_self]
        rfl

end Ledger

end IrohLotus.State

/-! ## The samples -/

namespace IrohLotus.State

open Std Outcome IrohLotus.Wire IrohLotus.Wire.Sample IrohLotus.Storage IrohLotus.Storage.Sample

/-- A database that holds the version of `genesis`. -/
def genesisDatabase : SqliteStorage := (SqliteStorage.empty.install genesisDigest []).toOption.getD SqliteStorage.empty

theorem apply_atomic_first :
    (∃ t, (Ledger.mk genesisDigest).apply first (only genesisDigest ∅) = (.ok ⟨firstDigest⟩, t) ∧
      t.versions[genesisDigest]? = some ∅) ∧
    ∃ db', (Ledger.mk genesisDigest).applySqlite first genesisDatabase = (.ok ⟨firstDigest⟩, db') ∧
      SqliteStorage.SameReads genesisDatabase db' genesisDigest := by
  obtain ⟨hmem, hsqlite⟩ := Ledger.apply_atomic (Ledger.mk genesisDigest) first
  have hinstall : SqliteStorage.empty.perform (.install genesisDigest []) = .ok genesisDatabase := rfl
  have hvalues : (Operation.install genesisDigest []).Ordered := fun e he => nomatch he
  have hdb : genesisDatabase.Performed := .perform .empty hvalues hinstall
  have hordered : first.payload.Ordered := trivial
  have hmemRun : ((Ledger.mk genesisDigest).apply first (only genesisDigest ∅)).1 = .ok ⟨firstDigest⟩ := by decide +kernel
  have hrun : ((Ledger.mk genesisDigest).applySqlite first genesisDatabase).1 = .ok ⟨firstDigest⟩ := by decide +kernel
  have hne : genesisDigest ≠ firstDigest := by decide
  refine ⟨⟨_, Prod.ext hmemRun rfl, ?_⟩, _, Prod.ext hrun rfl, ?_⟩
  · obtain ⟨-, -, -, -, -, hother⟩ := (hmem (only genesisDigest ∅)).2 ⟨firstDigest⟩ _ (Prod.ext hmemRun rfl)
    rw [hother genesisDigest hne, versions_only]
  · exact ((hsqlite genesisDatabase).2 hdb hordered ⟨firstDigest⟩ _ (Prod.ext hrun rfl)).2.2.2.2 genesisDigest hne

end IrohLotus.State
