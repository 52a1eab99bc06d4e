/-
Bounded increments are exact. What an increment yields is the sum in the integers clamped to its bounds,
wherever an `i64` can hold that, and nothing elsewhere. The check before a commit, the update in memory
and the leaf SQLite rewrites all ask the same function, so an increment the checks accept leaves that
integer in either backend.
-/
import IrohLotus.State.Intended

namespace IrohLotus.Storage

open Std Outcome IrohLotus.Wire

/-! ## The sum -/

/-- An `i64` can hold it. -/
def Fits (sum : Int) : Prop := -2 ^ 63 ≤ sum ∧ sum < 2 ^ 63

theorem fits_toInt (n : Int64) : Fits n.toInt := ⟨n.le_toInt, n.toInt_lt⟩

/-- Nothing is yielded where the sum leaves `i64` and no bound on that side pulls it back. -/
theorem not_fits_of_apply_eq_none {inc : IncrementDecrement} {n : Int64} (h : inc.apply n = none) :
    ¬ Fits (clampedSum inc n) := by
  have hmax : Int64.maxValue.toInt = 2 ^ 63 - 1 := rfl
  have hmin : Int64.minValue.toInt = -2 ^ 63 := rfl
  have hn := n.toInt_lt
  have hn' := n.le_toInt
  unfold IncrementDecrement.apply checkedAdd at h
  rw [hmax, hmin] at h
  dsimp only at h
  by_cases hfits : -2 ^ 63 ≤ n.toInt + inc.delta.toInt ∧ n.toInt + inc.delta.toInt ≤ 2 ^ 63 - 1
  · rw [if_pos hfits] at h
    cases h
  · rw [if_neg hfits] at h
    dsimp only at h
    unfold Fits clampedSum
    by_cases hpos : 0 < inc.delta
    · -- above the largest, and a floor only raises it
      rw [if_pos hpos] at h
      have hdelta : 0 < inc.delta.toInt := Int64.lt_iff_toInt_lt.1 hpos
      cases hlo : inc.min <;> simp only [h, Option.elim_none, Option.elim_some] <;> omega
    · -- below the least, and a ceiling only lowers it
      rw [if_neg hpos] at h
      have hdelta : ¬ 0 < inc.delta.toInt := fun hlt => hpos (Int64.lt_iff_toInt_lt.2 hlt)
      cases hhi : inc.max <;> simp only [h, Option.elim_none, Option.elim_some] <;> omega

/-- What an increment yields is the clamped sum. -/
theorem apply_eq_some_iff {inc : IncrementDecrement} (hbounds : ¬ Inverted inc) (n sum : Int64) :
    inc.apply n = some sum ↔ sum.toInt = clampedSum inc n := by
  constructor
  · exact apply_eq_clampedSum hbounds
  · intro hsum
    cases happly : inc.apply n with
    | none => exact absurd (hsum ▸ fits_toInt sum) (not_fits_of_apply_eq_none happly)
    | some sum' =>
      have hsame : sum'.toInt = sum.toInt := (apply_eq_clampedSum hbounds happly).trans hsum.symm
      rw [Int64.toInt_inj.1 hsame]

theorem exists_toInt_eq {z : Int} (h : Fits z) : ∃ n : Int64, n.toInt = z :=
  ⟨Int64.ofInt z, Int64.toInt_ofInt_of_le h.1 h.2⟩

theorem apply_eq_none_iff {inc : IncrementDecrement} (hbounds : ¬ Inverted inc) (n : Int64) :
    inc.apply n = none ↔ ¬ Fits (clampedSum inc n) := by
  constructor
  · exact not_fits_of_apply_eq_none
  · intro hfits
    cases happly : inc.apply n with
    | none => rfl
    | some sum => exact absurd (apply_eq_clampedSum hbounds happly ▸ fits_toInt sum) hfits

/-! ## The leaf -/

/-- The update finds an integer, and leaves there what the increment yields. -/
theorem walk_amendAt_increment {E : Type} {root w : Value} {path : Option SubkeyPath} {inc : IncrementDecrement}
    (h : amendAt (E := E) root path (.incrementDecrement inc) = .ok w) :
    ∃ n sum, root.walk (segmentsOf path) = some (.int n) ∧ inc.apply n = some sum ∧
      w.walk (segmentsOf path) = some (.int sum) := by
  obtain ⟨⟨target, put⟩, htarget, h⟩ := Res.bind_eq_ok h
  have hwalk := Res.expect_eq_ok htarget
  cases target <;> try cases h
  case int n =>
    obtain ⟨sum, hsum, h⟩ := Res.bind_eq_ok h
    cases h
    refine ⟨n, sum, walk_of_walkMut hwalk, Res.expect_eq_ok hsum, ?_⟩
    have hput := walk_put hwalk (.int sum) []
    rwa [List.append_nil] at hput

theorem resolve_of_walk {root x : Value} {path : List Subkey} (h : root.walk path = some x) :
    resolve root path = .node (kind x) := by
  have hunder : resolveFrom 0 root (path ++ []) = resolveFrom (0 + path.length) x [] := resolveFrom_under [] h
  rw [List.append_nil] at hunder
  exact hunder

end IrohLotus.Storage

namespace IrohLotus.State

open Std Outcome IrohLotus.Wire IrohLotus.Storage

variable [Externals]

namespace Ledger

/-! ## Checking an increment -/

/-- The envelope passes the checks that do not look at what it writes: it extends the ledger's head, has
a digest, which is not the head again, and meets the thresholds in force there. -/
structure Admissible (ledger : Ledger) (s : MemStorage) (envelope : Envelope) (digest : EnvelopeDigest) : Prop where
  prev : envelope.prev = some ledger.head
  digests : envelope.digest = .ok digest
  fresh : digest ≠ ledger.head
  signed : ledger.checkSigThresholds s envelope = .ok ()

variable {ledger : Ledger} {s : MemStorage} {envelope : Envelope} {digest : EnvelopeDigest} {v : Version} {ns : Namespace}
  {amend : AmendNamespaceKey} {inc : IncrementDecrement} {n : Int64}

omit [Externals] in
theorem checkBounds_eq_ok (hbounds : ¬ Inverted inc) : checkBounds amend inc = .ok () := by
  unfold checkBounds
  split
  · rename_i lo hi hlo hhi
    rw [if_neg (fun hlt => hbounds ⟨lo, hi, hlo, hhi, hlt⟩)]
    rfl
  · rfl

theorem validateValue_unreserved {key : NamespaceKey} (h : rule key = none) (value : Value) :
    validateValue key value = .ok () := by
  unfold validateValue
  rw [h]
  rfl

/-- An increment with a sum to write is accepted, and is its own op. -/
theorem validateAmendKey_increment (hop : amend.op = .incrementDecrement inc) (hunreserved : rule amend.key = none)
    (hv : s.versions[ledger.head]? = some v) (hns : v[amend.key]? = some ns)
    (hn : ns.value.walk (segmentsOf amend.path) = some (.int n)) (hbounds : ¬ Inverted inc) {sum : Int64}
    (hsum : inc.apply n = some sum) :
    ledger.validateAmendKey s amend = .ok (.amendAt amend.key amend.path amend.op) := by
  have hresolve : s.resolve (E := ApplyError) ledger.head amend.key (segmentsOf amend.path) = .ok (some (.node .leaf)) := by
    unfold MemStorage.resolve
    rw [s.version_eq_ok hv, Res.ok_bind, hns, Option.map_some, resolve_of_walk hn]
    rfl
  have hvalue : s.valueAt (E := ApplyError) ledger.head amend.key (segmentsOf amend.path) = .ok (some (.int n)) := by
    unfold MemStorage.valueAt
    rw [s.version_eq_ok hv, Res.ok_bind, hns, Option.bind_some, hn]
    rfl
  have hvalid : ledger.validateIncrement s amend inc = .ok () := by
    unfold validateIncrement
    rw [checkBounds_eq_ok hbounds, Res.ok_bind, hvalue, Res.ok_bind]
    simp only [hsum, Res.okOr_some, Res.ok_bind, validateValue_unreserved hunreserved]
    split <;> rfl
  unfold validateAmendKey
  simp only [hresolve, Res.ok_bind, Res.okOr_some, hop, hvalid]
  rfl

theorem validateNested_unreserved (hunreserved : rule amend.key = none) :
    ledger.validateNested s (.amendAt amend.key amend.path amend.op) = .ok () := by
  show (if (rule amend.key).isSome then _ else pure ()) = Except.ok ()
  rw [hunreserved]
  rfl

/-- The checks accept an increment of an integer exactly when its bounds are not inverted and the
clamped sum fits. -/
theorem checked_increment_iff (hpayload : envelope.payload = .amendNamespaceKey amend)
    (hop : amend.op = .incrementDecrement inc) (hunreserved : rule amend.key = none)
    (hadmissible : ledger.Admissible s envelope digest) (hv : s.versions[ledger.head]? = some v)
    (hns : v[amend.key]? = some ns) (hn : ns.value.walk (segmentsOf amend.path) = some (.int n)) :
    ledger.checked s envelope = .ok (digest, .amendAt amend.key amend.path amend.op) ↔
      ¬ Inverted inc ∧ Fits (clampedSum inc n) := by
  constructor
  · intro h
    obtain ⟨-, -, -, hmsg, -⟩ := checked_eq_ok h
    rw [hpayload] at hmsg
    have hbounds : ¬ Inverted inc := bounded_of_validateAmendKey hmsg inc hop
    obtain ⟨-, ns', hns', w, hw⟩ := validateAmendKey_eq_ok (E := Empty) hv hmsg
    rw [hns] at hns'
    cases hns'
    rw [hop] at hw
    obtain ⟨n', sum, hn', hsum, -⟩ := walk_amendAt_increment hw
    rw [hn] at hn'
    cases hn'
    exact ⟨hbounds, apply_eq_clampedSum hbounds hsum ▸ fits_toInt sum⟩
  · rintro ⟨hbounds, hfits⟩
    obtain ⟨sum, hsum⟩ := exists_toInt_eq hfits
    have hmsg : ledger.validateMsg s envelope.payload = .ok (.amendAt amend.key amend.path amend.op) := by
      rw [hpayload]
      exact validateAmendKey_increment hop hunreserved hv hns hn hbounds ((apply_eq_some_iff hbounds n sum).2 hsum)
    unfold checked
    simp only [hadmissible.prev, hadmissible.digests, hadmissible.signed, hmsg, validateNested_unreserved hunreserved,
      Res.okOr_some, Res.ok_bind, Res.ofExcept_ok, ne_eq, not_true_eq_false, if_false]
    rfl

/-- And what they accept is that op, at the envelope's digest. -/
theorem checked_increment_eq (hpayload : envelope.payload = .amendNamespaceKey amend)
    (hadmissible : ledger.Admissible s envelope digest) (hv : s.versions[ledger.head]? = some v)
    {r : EnvelopeDigest × NamespaceOp} (h : ledger.checked s envelope = .ok r) :
    r = (digest, .amendAt amend.key amend.path amend.op) := by
  obtain ⟨-, hdigest, -, hmsg, -⟩ := checked_eq_ok h
  rw [hpayload] at hmsg
  obtain ⟨hop, -⟩ := validateAmendKey_eq_ok (E := Empty) hv hmsg
  rw [hadmissible.digests] at hdigest
  exact Prod.ext (Except.ok.inj hdigest).symm hop

omit [Externals] in
theorem exists_walk_of_valueAt {E : Type} {key : NamespaceKey} {path : List Subkey} {x : Value}
    (h : s.valueAt (E := E) ledger.head key path = .ok (some x)) :
    ∃ v ns, s.versions[ledger.head]? = some v ∧ v[key]? = some ns ∧ ns.value.walk path = some x := by
  obtain ⟨v, hv, h⟩ := Res.bind_eq_ok h
  obtain ⟨ns, hns, hx⟩ := Option.bind_eq_some_iff.1 (Except.ok.inj h)
  exact ⟨v, ns, Res.expect_eq_ok hv, hns, hx⟩

omit [Externals] in
/-- What the op makes of the version holds the clamped sum at the path. -/
theorem walk_update_increment {E : Type} {w : Version} (hop : amend.op = .incrementDecrement inc) (hbounds : ¬ Inverted inc)
    (hns : v[amend.key]? = some ns) (hn : ns.value.walk (segmentsOf amend.path) = some (.int n))
    (h : (NamespaceOp.amendAt amend.key amend.path amend.op).update (E := E) v = .ok w) :
    ∃ sum : Int64, sum.toInt = clampedSum inc n ∧
      (w[amend.key]?.bind fun ns => ns.value.walk (segmentsOf amend.path)) = some (.int sum) := by
  obtain ⟨ns', root, hns', hw, rfl⟩ := MemStorage.update_amendAt_eq_ok h
  rw [hns] at hns'
  cases hns'
  rw [hop] at hw
  obtain ⟨n', sum, hn', hsum, hroot⟩ := walk_amendAt_increment hw
  rw [hn] at hn'
  cases hn'
  refine ⟨sum, apply_eq_clampedSum hbounds hsum, ?_⟩
  rw [ExtTreeMap.getElem?_insert_self, Option.bind_some, hroot]

/-! ## Both backends -/

/-- In memory the commit leaves the clamped sum at the path, and a refusal leaves the store as it was. -/
theorem apply_increment (hpayload : envelope.payload = .amendNamespaceKey amend) (hop : amend.op = .incrementDecrement inc)
    (hunreserved : rule amend.key = none) (hadmissible : ledger.Admissible s envelope digest)
    (hn : s.valueAt (E := Empty) ledger.head amend.key (segmentsOf amend.path) = .ok (some (.int n))) :
    (¬ Inverted inc ∧ Fits (clampedSum inc n) → ∃ next t sum, ledger.apply envelope s = (.ok next, t) ∧
      Int64.toInt sum = clampedSum inc n ∧
      t.valueAt (E := Empty) next.head amend.key (segmentsOf amend.path) = .ok (some (.int sum))) ∧
    (¬ (¬ Inverted inc ∧ Fits (clampedSum inc n)) → ∃ e, ledger.apply envelope s = (.error (.error e), s)) := by
  obtain ⟨v, ns, hv, hns, hwalk⟩ := exists_walk_of_valueAt hn
  have hiff := checked_increment_iff hpayload hop hunreserved hadmissible hv hns hwalk
  constructor
  · intro hfits
    have hc := hiff.2 hfits
    obtain ⟨w, hu⟩ := exists_update hv hc
    obtain ⟨sum, hsum, hw⟩ := walk_update_increment hop hfits.1 hns hwalk hu
    refine ⟨⟨digest⟩, _, sum, apply_eq_ok hv hc hu, hsum, ?_⟩
    have hheld : (s.install digest w).versions[digest]? = some w := by rw [MemStorage.versions_install, if_pos rfl]
    unfold MemStorage.valueAt
    rw [MemStorage.version_eq_ok _ hheld, Res.ok_bind, hw]
    rfl
  · intro hunfit
    rcases apply_cases hv envelope with ⟨head, op, w, hc, -, -⟩ | ⟨e, -, -, hrun⟩
    · rw [checked_increment_eq hpayload hadmissible hv hc] at hc
      exact absurd (hiff.1 hc) hunfit
    · exact ⟨e, hrun⟩

variable [Backing] {db db' : SqliteStorage}

theorem applySqlite_eq_ok {op : NamespaceOp} (hc : ledger.checked (db.view ledger.head) envelope = .ok (digest, op))
    (hw : db.commit ledger.head digest op = .ok db') : ledger.applySqlite envelope db = (.ok ⟨digest⟩, db') := by
  have hread : Action.read (fun db : SqliteStorage => ledger.checked (db.view ledger.head) envelope) db =
      (.ok (digest, op), db) := by
    rw [Action.read, hc]
  have hwrite : Action.write (fun db : SqliteStorage => (db.commit ledger.head digest op).mapErr fun _ => ApplyError.storage) db =
      (.ok (), db') := by
    rw [Action.write, hw]
    rfl
  unfold applySqlite
  rw [Action.bind_ok hread]
  dsimp only
  rw [Action.bind_ok hwrite]
  rfl

theorem applySqlite_eq_error {halt : Halt ApplyError} (hc : ledger.checked (db.view ledger.head) envelope = .error halt) :
    ledger.applySqlite envelope db = (.error halt, db) := by
  have hread : Action.read (fun db : SqliteStorage => ledger.checked (db.view ledger.head) envelope) db = (.error halt, db) := by
    rw [Action.read, hc]
  unfold applySqlite
  rw [Action.bind_error hread]

/-- The rewritten leaf of the database holds it as well. -/
theorem applySqlite_increment (hpayload : envelope.payload = .amendNamespaceKey amend)
    (hop : amend.op = .incrementDecrement inc) (hunreserved : rule amend.key = none) (hdb : db.Performed)
    (hadmissible : ledger.Admissible (db.view ledger.head) envelope digest)
    (hn : db.valueAt ledger.head amend.key (segmentsOf amend.path) = .ok (some (.int n))) :
    (¬ Inverted inc ∧ Fits (clampedSum inc n) → ∃ next db' sum, ledger.applySqlite envelope db = (.ok next, db') ∧
      Int64.toInt sum = clampedSum inc n ∧ db'.valueAt next.head amend.key (segmentsOf amend.path) = .ok (some (.int sum))) ∧
    (¬ (¬ Inverted inc ∧ Fits (clampedSum inc n)) → ∃ e, ledger.applySqlite envelope db = (.error (.error e), db)) := by
  obtain ⟨versions, habs⟩ := hdb.abstracts
  have hreads := (habs.reads_view ledger.head amend.key (segmentsOf amend.path)).2.2
  rw [hn] at hreads
  obtain ⟨_, hview, rfl⟩ := Res.Sim.of_ok_left hreads
  obtain ⟨v, ns, hv, hns, hwalk⟩ := exists_walk_of_valueAt hview
  have hiff := checked_increment_iff hpayload hop hunreserved hadmissible hv hns hwalk
  constructor
  · intro hfits
    have hc := hiff.2 hfits
    obtain ⟨w, hu⟩ := exists_update hv hc
    obtain ⟨sum, hsum, hw⟩ := walk_update_increment hop hfits.1 hns hwalk hu
    -- the leaf is rewritten in a database that holds what the view does
    rw [habs.view] at hv
    have hordered : (NamespaceOp.amendAt amend.key amend.path amend.op).Ordered := by
      intro entry hentry
      rw [hop] at hentry
      cases hentry
    have hsim := SqliteStorage.commit_sim (E := ApplyError) habs hv digest hordered
    rw [if_neg hadmissible.fresh, hu] at hsim
    obtain ⟨db', hcommit, habs', -⟩ := hsim.of_ok
    refine ⟨⟨digest⟩, db', sum, applySqlite_eq_ok hc hcommit, hsum, ?_⟩
    rw [habs'.valueAt (Function.update_self ..), hw]
  · intro hunfit
    have hreturns := returns_checked hv envelope
    rcases hc : ledger.checked (db.view ledger.head) envelope with (e | _ | _) | r
    · exact ⟨e, applySqlite_eq_error hc⟩
    · rw [hc] at hreturns
      exact hreturns.elim
    · rw [hc] at hreturns
      exact hreturns.elim
    · rw [checked_increment_eq hpayload hadmissible hv hc] at hc
      exact absurd (hiff.1 hc) hunfit

/-- Bounded increments are exact integer clamps. Under bounds in order an increment yields the sum in the
integers clamped to them, if an `i64` can hold that, and nothing otherwise. An increment of an integer of
an unreserved namespace is accepted exactly when its bounds are in order and an `i64` can hold the clamp,
and then either backend stores it; refused, it is an error that leaves the store as it was. -/
theorem increment_exact :
    (∀ (inc : IncrementDecrement) (n : Int64), ¬ Inverted inc →
      (∀ sum, inc.apply n = some sum ↔ sum.toInt = clampedSum inc n) ∧
      (inc.apply n = none ↔ ¬ Fits (clampedSum inc n))) ∧
    ∀ (ledger : Ledger) (envelope : Envelope) (digest : EnvelopeDigest) (amend : AmendNamespaceKey) (inc : IncrementDecrement)
      (n : Int64), envelope.payload = .amendNamespaceKey amend → amend.op = .incrementDecrement inc → rule amend.key = none →
      (∀ s, ledger.Admissible s envelope digest →
        s.valueAt (E := Empty) ledger.head amend.key (segmentsOf amend.path) = .ok (some (.int n)) →
        (¬ Inverted inc ∧ Fits (clampedSum inc n) → ∃ next t sum, ledger.apply envelope s = (.ok next, t) ∧
          Int64.toInt sum = clampedSum inc n ∧
          t.valueAt (E := Empty) next.head amend.key (segmentsOf amend.path) = .ok (some (.int sum))) ∧
        (¬ (¬ Inverted inc ∧ Fits (clampedSum inc n)) → ∃ e, ledger.apply envelope s = (.error (.error e), s))) ∧
      ∀ db : SqliteStorage, db.Performed → ledger.Admissible (db.view ledger.head) envelope digest →
        db.valueAt ledger.head amend.key (segmentsOf amend.path) = .ok (some (.int n)) →
        (¬ Inverted inc ∧ Fits (clampedSum inc n) → ∃ next db' sum, ledger.applySqlite envelope db = (.ok next, db') ∧
          Int64.toInt sum = clampedSum inc n ∧
          db'.valueAt next.head amend.key (segmentsOf amend.path) = .ok (some (.int sum))) ∧
        (¬ (¬ Inverted inc ∧ Fits (clampedSum inc n)) → ∃ e, ledger.applySqlite envelope db = (.error (.error e), db)) := by
  refine ⟨fun inc n hbounds => ⟨apply_eq_some_iff hbounds n, apply_eq_none_iff hbounds n⟩, ?_⟩
  intro ledger envelope digest amend inc n hpayload hop hunreserved
  constructor
  · intro s hadmissible hn
    exact apply_increment hpayload hop hunreserved hadmissible hn
  · intro db hdb hadmissible hn
    exact applySqlite_increment hpayload hop hunreserved hdb hadmissible hn

end Ledger

end IrohLotus.State

/-! ## The samples -/

namespace IrohLotus.State

open Std Outcome IrohLotus.Wire IrohLotus.Wire.Sample IrohLotus.Storage IrohLotus.Storage.Sample

/-- The version of `counted`. -/
def countedVersion : Version := (∅ : Version).insert ⟨"n", n_ne⟩ ⟨.int 9223372036854775800⟩

/-- A database may hold it alone. -/
theorem exists_counted : ∃ db : SqliteStorage, db.Performed ∧
    SqliteStorage.Abstracts db (Function.update (fun _ => none) countedDigest (some countedVersion)) := by
  have hvalues : ∀ e ∈ [((⟨"n", n_ne⟩ : NamespaceKey), (⟨.int 9223372036854775800⟩ : Namespace))], Ordered e.2.value := by
    intro e he
    rw [List.mem_singleton.1 he]
    trivial
  obtain ⟨db, hinstall, habs, -⟩ := SqliteStorage.install_of_abstracts .empty countedDigest hvalues
  let op : Operation := .install countedDigest [(⟨"n", n_ne⟩, ⟨.int 9223372036854775800⟩)]
  have hop : op.Ordered := hvalues
  exact ⟨db, .perform .empty hop hinstall, habs⟩

/-- A ceiling stands in for a sum past the largest. -/
theorem increment_exact_ceiling :
    (IncrementDecrement.mk 100 none (some 9223372036854775805)).apply 9223372036854775800 = some 9223372036854775805 ∧
    (∃ next t sum, (Ledger.mk countedDigest).apply bumped (only countedDigest countedVersion) = (.ok next, t) ∧
      Int64.toInt sum = 9223372036854775805 ∧ t.valueAt (E := Empty) next.head ⟨"n", n_ne⟩ [] = .ok (some (.int sum))) ∧
    ∃ db : SqliteStorage, db.valueAt countedDigest ⟨"n", n_ne⟩ [] = .ok (some (.int 9223372036854775800)) ∧
      ∃ next db' sum, (Ledger.mk countedDigest).applySqlite bumped db = (.ok next, db') ∧
        Int64.toInt sum = 9223372036854775805 ∧ db'.valueAt next.head ⟨"n", n_ne⟩ [] = .ok (some (.int sum)) := by
  obtain ⟨happly, hledger⟩ := Ledger.increment_exact
  let inc : IncrementDecrement := ⟨100, none, some 9223372036854775805⟩
  have hbounds : ¬ Inverted inc := by
    rintro ⟨lo, -, hlo, -⟩
    cases hlo
  have hclamp : clampedSum inc 9223372036854775800 = 9223372036854775805 := by decide
  have hfits : Fits (clampedSum inc 9223372036854775800) := by
    rw [hclamp]
    constructor <;> decide
  obtain ⟨hmem, hsqlite⟩ := hledger ⟨countedDigest⟩ bumped bumpedDigest ⟨countedDigest, ⟨"n", n_ne⟩, none, .incrementDecrement inc⟩
    inc 9223372036854775800 rfl rfl (by decide)
  have hne : bumpedDigest ≠ countedDigest := by decide
  have hdigest : bumped.digest = .ok bumpedDigest := by decide +kernel
  have hsigned : (Ledger.mk countedDigest).checkSigThresholds (only countedDigest countedVersion) bumped = .ok () := by
    decide +kernel
  refine ⟨((happly inc 9223372036854775800 hbounds).1 _).2 (by rw [hclamp]; decide), ?_, ?_⟩
  · have h := (hmem (only countedDigest countedVersion) ⟨rfl, hdigest, hne, hsigned⟩ (by decide +kernel)).1 ⟨hbounds, hfits⟩
    rwa [hclamp] at h
  · obtain ⟨db, hdb, habs⟩ := exists_counted
    have hview : (db.view countedDigest).versions[countedDigest]? = (only countedDigest countedVersion).versions[countedDigest]? := by
      rw [habs.view, Function.update_self, versions_only]
    have hn : db.valueAt countedDigest ⟨"n", n_ne⟩ [] = .ok (some (.int 9223372036854775800)) := by
      rw [habs.valueAt (Function.update_self ..)]
      decide +kernel
    have hcongr := @Ledger.checkSigThresholds_congr _ _ ⟨countedDigest⟩ hview bumped
    rw [← hcongr] at hsigned
    have h := (hsqlite db hdb ⟨rfl, hdigest, hne, hsigned⟩ hn).1 ⟨hbounds, hfits⟩
    rw [hclamp] at h
    exact ⟨db, hn, h⟩

end IrohLotus.State
