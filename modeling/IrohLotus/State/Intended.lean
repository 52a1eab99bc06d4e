/-
What a message means for the state it lands on, said without the code's walks: one part of one value
tree is rewritten (`edit`), by a write, a clear, an append, a sum clamped in the integers, or a filter.
An envelope that passes its checks commits exactly that, and neither the commit nor the dry run before
it can panic.
-/
import IrohLotus.State.Atomic
import IrohLotus.Storage.Update

namespace IrohLotus.Storage

open Std Outcome IrohLotus.Wire

variable {E : Type}

/-! ## Editing one part of a tree -/

/-- What becomes of the part at the end of a path: none before where the path ends at a fresh key, none
after to remove it. -/
abbrev Rewrite := Option Value → Option Value

/-- The tree with the part at a path changed. A path that leads nowhere changes nothing. -/
def edit (change : Rewrite) : List Subkey → Value → Value
  | [], v => (change (some v)).getD v
  | [.key name], .map entries => putEntry entries name (change (Entries.get entries name))
  | [.index i], .array items => items[i.toNat]?.elim (.array items) fun old => putItem items i (change (some old))
  | segment :: rest, v => (v.child segment).elim v fun child => setChild v segment (edit change rest child)

theorem edit_cons (change : Rewrite) (segment : Subkey) {rest : List Subkey} (hrest : rest ≠ []) (v : Value) :
    edit change (segment :: rest) v =
      (v.child segment).elim v fun child => setChild v segment (edit change rest child) := by
  cases rest with
  | nil => exact absurd rfl hrest
  | cons next rest => cases v <;> cases segment <;> rfl

/-- A change of the part a walk ends at is written back. -/
theorem edit_of_walkMut {change : Rewrite} {x y : Value} (hchange : change (some x) = some y) : ∀ {path : List Subkey}
    {root : Value} {put : Value → Value}, walkMut root path = some (x, put) → edit change path root = put y
  | [], root, put, h => by
    cases h
    rw [edit, hchange]
    rfl
  | [segment], root, put, h => by
    obtain ⟨child, put', hc, hw, rfl⟩ := walkMut_cons_eq_some h
    cases hw
    cases root <;> cases segment <;> simp only [Value.child, reduceCtorEq] at hc
    case map.key entries name =>
      simp only [edit, hc, hchange]
      rfl
    case array.index items i =>
      simp only [edit, hc, Option.elim_some, hchange]
      rfl
  | segment :: next :: rest, root, put, h => by
    obtain ⟨child, put', hc, hw, rfl⟩ := walkMut_cons_eq_some h
    rw [edit_cons change segment (List.cons_ne_nil _ _), hc, Option.elim_some, edit_of_walkMut hchange hw]

/-- An update whose last step makes of the part at the end what `change` does makes of the whole tree
what the edit does. -/
theorem edit_of_replaceAt {terminal : ValueTerminal E} {change : Rewrite}
    (hlast : ∀ old new, terminal old = .ok new → change old = new) :
    ∀ {path : List Subkey} {v w : Value}, replaceAt terminal path v = .ok w → w = edit change path v
  | [], _, _, h => by cases h
  | [segment], v, w, h => by
    cases v <;> cases segment <;> try cases h
    case map.key entries name =>
      obtain ⟨replacement, hreplacement, h⟩ := Res.bind_eq_ok h
      cases h
      rw [edit, hlast _ _ hreplacement]
    case array.index items i =>
      obtain ⟨child, hchild, h⟩ := Res.bind_eq_ok h
      obtain ⟨replacement, hreplacement, h⟩ := Res.bind_eq_ok h
      cases h
      rw [edit, Res.expect_eq_ok hchild, Option.elim_some, hlast _ _ hreplacement]
  | segment :: next :: rest, v, w, h => by
    have hrest : next :: rest ≠ [] := List.cons_ne_nil _ _
    rw [edit_cons change segment hrest]
    cases hc : v.child segment with
    | none =>
      obtain ⟨message, hstuck⟩ := @replaceAt_stuck _ terminal _ _ hrest _ hc
      rw [hstuck] at h
      cases h
    | some child =>
      rw [replaceAt_child hrest hc] at h
      obtain ⟨w', hw', h⟩ := Res.bind_eq_ok h
      cases h
      rw [edit_of_replaceAt hlast hw', Option.elim_some]

/-! ## The five updates -/

/-- The sum an increment aims at: the delta added and the bounds that are set applied, in the integers. -/
def clampedSum (inc : IncrementDecrement) (n : Int64) : Int :=
  let sum := n.toInt + inc.delta.toInt
  let floored := inc.min.elim sum fun lo => max sum lo.toInt
  inc.max.elim floored fun hi => min floored hi.toInt

/-- The entry meets every condition of the predicate. -/
def Meets (predicate : Predicate) (entry : Value) : Prop :=
  ∀ m ∈ predicate.conditions, entry.walk (segmentsOf m.path) = some m.value

instance (predicate : Predicate) : DecidablePred (Meets predicate) := fun entry =>
  inferInstanceAs (Decidable (∀ m ∈ predicate.conditions, entry.walk (segmentsOf m.path) = some m.value))

/-- What an amend makes of the part its path addresses. -/
def amended : AmendOp → Rewrite
  | .appendEntry entry, none => some (.array [entry])
  | .appendEntry entry, some (.array items) => some (.array (items ++ [entry]))
  | .incrementDecrement inc, some (.int n) => some (.int (Int64.ofInt (clampedSum inc n)))
  | .deleteMatching predicate, some (.map entries) => some (.map (entries.filter fun entry => ¬ Meets predicate entry.2))
  | .deleteMatching predicate, some (.array items) => some (.array (items.filter fun entry => ¬ Meets predicate entry))
  | _, old => old

/-- Bounds are inverted when the floor is above the ceiling. -/
def Inverted (inc : IncrementDecrement) : Prop := ∃ lo hi, inc.min = some lo ∧ inc.max = some hi ∧ hi < lo

/-- An increment that yields a value yields the clamped sum, which fits. -/
theorem apply_eq_clampedSum {inc : IncrementDecrement} {n sum : Int64} (hbounds : ¬ Inverted inc)
    (h : inc.apply n = some sum) : sum.toInt = clampedSum inc n := by
  have hmax : Int64.maxValue.toInt = 2 ^ 63 - 1 := rfl
  have hmin : Int64.minValue.toInt = -2 ^ 63 := rfl
  unfold IncrementDecrement.apply checkedAdd at h
  rw [hmax, hmin] at h
  have hn := n.toInt_lt
  have hn' := n.le_toInt
  unfold clampedSum
  by_cases hfits : -2 ^ 63 ≤ n.toInt + inc.delta.toInt ∧ n.toInt + inc.delta.toInt ≤ 2 ^ 63 - 1
  · have hsum : (Int64.ofInt (n.toInt + inc.delta.toInt)).toInt = n.toInt + inc.delta.toInt :=
      Int64.toInt_ofInt_of_le hfits.1 (by omega)
    dsimp only at h
    rw [if_pos hfits] at h
    rw [← hsum, ← Option.some.inj h]
    generalize Int64.ofInt (n.toInt + inc.delta.toInt) = total
    cases inc.min <;> cases inc.max <;> simp only [Option.elim_none, Option.elim_some, Int64.le_iff_toInt_le]
    · split <;> omega
    · split <;> omega
    · split <;> split <;> omega
  · dsimp only at h
    rw [if_neg hfits] at h
    dsimp only at h
    -- beyond `i64` on the delta's side: the bound on that side is the clamped sum
    by_cases hpos : 0 < inc.delta
    · rw [if_pos hpos] at h
      have hpos : 0 < inc.delta.toInt := Int64.lt_iff_toInt_lt.1 hpos
      have hhi := sum.toInt_lt
      cases inc.min <;> simp only [h, Option.elim_none, Option.elim_some] <;> omega
    · rw [if_neg hpos] at h
      have hpos : ¬ 0 < inc.delta.toInt := fun hlt => hpos (Int64.lt_iff_toInt_lt.2 hlt)
      have hlo := sum.le_toInt
      cases hm : inc.max with
      | none => simp only [h, Option.elim_none, Option.elim_some]; omega
      | some hi =>
        have hle : ¬ hi.toInt < sum.toInt := fun hlt => hbounds ⟨sum, hi, h, hm, Int64.lt_iff_toInt_lt.2 hlt⟩
        simp only [h, Option.elim_some]
        omega

theorem matches_iff_meets (predicate : Predicate) (entry : Value) : predicate.matches entry = true ↔ Meets predicate entry := by
  simp [Predicate.matches, Match.matches, Meets]

/-- The filter an update keeps entries by keeps those that do not meet the predicate. -/
theorem not_matches_eq (predicate : Predicate) (entry : Value) :
    (!predicate.matches entry) = decide (¬ Meets predicate entry) := by
  rw [Bool.eq_iff_iff, Bool.not_eq_true', decide_eq_true_eq, ← matches_iff_meets, Bool.not_eq_true]

/-- The op's bounds, if it is an increment, are not inverted. -/
def Bounded (op : AmendOp) : Prop := ∀ inc, op = .incrementDecrement inc → ¬ Inverted inc

/-- An amend of a whole value makes of it what the op says. -/
theorem amended_of_amendAt {op : AmendOp} {target w : Value} (hbounds : Bounded op)
    (h : amendAt (E := E) target none op = .ok w) : amended op (some target) = some w := by
  cases op with
  | appendEntry entry =>
    cases target <;> cases h
    rfl
  | incrementDecrement inc =>
    cases target <;> try cases h
    case int n =>
      obtain ⟨_, hwalk, h⟩ := Res.bind_eq_ok h
      cases hwalk
      obtain ⟨sum, hsum, h⟩ := Res.bind_eq_ok h
      cases h
      have hclamped := apply_eq_clampedSum (hbounds inc rfl) (Res.expect_eq_ok hsum)
      simp only [amended, ← hclamped, Int64.ofInt_toInt]
      rfl
  | deleteMatching predicate =>
    cases target <;> cases h
    case map.refl entries =>
      simp only [amended, Entries.retain, not_matches_eq]
      rfl
    case array.refl items =>
      simp only [amended, not_matches_eq]
      rfl

theorem amended_of_amendValue {op : AmendOp} (hbounds : Bounded op) (old new : Option Value)
    (h : amendValue (E := E) op old = .ok new) : amended op old = new := by
  cases old with
  | none =>
    cases op <;> cases h
    rfl
  | some target =>
    obtain ⟨w, hw, h⟩ := Res.bind_eq_ok h
    cases h
    exact amended_of_amendAt hbounds hw

/-- A set or a clear that goes through is the edit that puts the value there. -/
theorem setAt_eq_edit {root w : Value} {path : SubkeyPath} {value : Option Value} (h : setAt (E := E) root path value = .ok w) :
    w = edit (fun _ => value) path.segments root := by
  have hsim : Res.Sim (· = ·) (replaceAt (E := E) (setValue value) path.segments root) (setAt (E := E) root path value) :=
    setAt_sim path value root
  rw [h] at hsim
  obtain ⟨_, hw, rfl⟩ := hsim.of_ok
  refine edit_of_replaceAt (fun old new hnew => ?_) hw
  cases value with
  | some value => cases hnew; rfl
  | none =>
    unfold setValue at hnew
    cases old <;> cases hnew
    rfl

/-- An amend that goes through is the edit its op asks for. -/
theorem amendAt_eq_edit {root w : Value} {path : Option SubkeyPath} {op : AmendOp} (hbounds : Bounded op)
    (h : amendAt (E := E) root path op = .ok w) : w = edit (amended op) (segmentsOf path) root := by
  cases path with
  | none =>
    rw [segmentsOf_none, edit, amended_of_amendAt hbounds h]
    rfl
  | some path =>
    have hsim : Res.Sim (· = ·) (replaceAt (E := E) (amendValue op) path.segments root)
        (amendAt (E := E) root (some path) op) := amendAt_sim path op root
    rw [h] at hsim
    obtain ⟨_, hw, rfl⟩ := hsim.of_ok
    exact edit_of_replaceAt (amended_of_amendValue hbounds) hw

/-! ## Beside the path -/

/-- `q` addresses a later entry of the array whose entry at `path` is gone, and reads what stood one
place further. -/
def Shifted (before after : Value) (path q : List Subkey) : Prop :=
  ∃ parents items i j rest, path = parents ++ [.index i] ∧ q = parents ++ .index j :: rest ∧ i.toNat < j.toNat ∧
    before.walk parents = some (.array items) ∧ after.walk q = items[j.toNat + 1]?.bind (Value.walk · rest)

/-- A path beside the one a set or a clear addresses reads what it did, or the entry that moved there. -/
theorem walk_setAt_cases {root w : Value} {path : SubkeyPath} {value : Option Value} (h : setAt (E := E) root path value = .ok w)
    {q : List Subkey} (hq : ¬ Comparable path.segments q) :
    w.walk q = root.walk q ∨ value = none ∧ Shifted root w path.segments q := by
  obtain ⟨x, y, put, hw, rfl, hcases⟩ := setAt_eq_ok h
  have hsplit := List.dropLast_append_getLast path.nonempty
  rcases hcases with ⟨-, hsame⟩ | ⟨items, i, rfl, hlast, hnone, rfl⟩
  · rw [← hsplit] at hq
    exact .inl (walk_put_of_not_comparable hw (walk_of_child_eq hsame) q hq)
  · rw [hlast] at hsplit
    rw [← hsplit] at hq
    by_cases hp : path.segments.dropLast <+: q
    · obtain ⟨tail, rfl⟩ := hp
      rw [walk_put hw, Value.walk_append, walk_of_walkMut hw, Option.bind_some]
      cases tail with
      | nil =>
        rw [List.append_nil] at hq
        exact absurd (.inr (List.prefix_append _ _)) hq
      | cons segment rest =>
        cases segment with
        | key name => exact .inl rfl
        | index j =>
          have hij : i.toNat ≠ j.toNat := by
            intro heq
            obtain rfl := UInt32.toNat_inj.1 heq
            exact hq (.inl (by simp))
          rw [Value.walk_cons, Value.walk_cons, Value.child, Value.child, List.getElem?_eraseIdx]
          split
          · exact .inl rfl
          · refine .inr ⟨hnone, _, items, i, j, rest, hsplit.symm, rfl, by omega, walk_of_walkMut hw, ?_⟩
            rw [walk_put hw, Value.walk_cons, Value.child, List.getElem?_eraseIdx, if_neg (by omega)]
    · refine .inl (@walk_put_of_not_comparable [] _ _ _ _ _ hw (fun q hq => absurd (comparable_nil q) hq) q ?_)
      rw [List.append_nil]
      rintro (hpre | hpre)
      · exact hp hpre
      · exact hq (.inr (hpre.trans (List.prefix_append _ _)))

end IrohLotus.Storage

namespace IrohLotus.State

open Std Outcome IrohLotus.Wire IrohLotus.Storage

/-! ## What a message means -/

/-- The version with one part of one namespace's value changed. -/
def editAt (version : Version) (key : NamespaceKey) (path : List Subkey) (change : Rewrite) : Version :=
  version[key]?.elim version fun ns => version.insert key ⟨edit change path ns.value⟩

/-- The state a message asks for. -/
def intended (version : Version) : Msg → Version
  | .init _ => version
  | .setNamespace set => version.insert set.key set.namespace
  | .setNamespaceKey set => editAt version set.key set.path.segments fun _ => set.value
  | .amendNamespaceKey amend => editAt version amend.key (segmentsOf amend.path) (amended amend.op)
  | .deleteNamespace del => version.erase del.key

/-- The namespace a message addresses, and the path inside it: none for the value as a whole. -/
def addressOf : Msg → Option (NamespaceKey × List Subkey)
  | .init _ => none
  | .setNamespace set => some (set.key, [])
  | .setNamespaceKey set => some (set.key, set.path.segments)
  | .amendNamespaceKey amend => some (amend.key, segmentsOf amend.path)
  | .deleteNamespace del => some (del.key, [])

/-- The message clears what its path addresses. -/
def Clears : Msg → Prop
  | .setNamespaceKey set => set.value = none
  | _ => False

/-- What a message leaves as it was: the other namespaces, and in its own every path that diverges from
the one it addresses, but for the entries behind a cleared one. -/
structure LeavesRest (msg : Msg) (before after : Version) : Prop where
  others : ∀ key, (∀ path, addressOf msg ≠ some (key, path)) → after[key]? = before[key]?
  beside : ∀ key path ns ns' q, addressOf msg = some (key, path) → before[key]? = some ns → after[key]? = some ns' →
    ¬ Comparable path q →
      ns'.value.walk q = ns.value.walk q ∨ Clears msg ∧ Shifted ns.value ns'.value path q

namespace Ledger

section Checks

variable [Externals] {E : Type} {s : MemStorage} {ledger : Ledger} {v v' : Version} {msg : Msg} {op : NamespaceOp}

/-- A passed amend is not an increment between inverted bounds. -/
theorem bounded_of_validateAmendKey {amend : AmendNamespaceKey} (h : ledger.validateAmendKey s amend = .ok op) :
    Bounded amend.op := by
  rintro inc hinc ⟨lo, hi, hlo, hhi, hlt⟩
  unfold validateAmendKey at h
  rw [hinc] at h
  obtain ⟨_, -, h⟩ := Res.bind_eq_ok h
  obtain ⟨r, -, h⟩ := Res.bind_eq_ok h
  have hbounds : checkBounds amend inc = Res.fail (.invalidBounds amend.key amend.path) := by
    unfold checkBounds
    rw [hlo, hhi]
    exact if_pos hlt
  cases r with
  | node k =>
    cases k <;> try cases h
    obtain ⟨_, h, -⟩ := Res.bind_eq_ok h
    unfold validateIncrement at h
    rw [hbounds] at h
    cases h
  | missing depth stoppedIn => exact miss_ne_ok _ _ _ _ h
  | mismatch depth => exact miss_ne_ok _ _ _ _ h

/-- What a message that passes its checks makes of the version is what it asks for. -/
theorem update_eq_intended (hv : s.versions[ledger.head]? = some v) (hmsg : ledger.validateMsg s msg = .ok op)
    (h : op.update (E := E) v = .ok v') : v' = intended v msg := by
  obtain ⟨hop, -⟩ := validateMsg_eq_ok (E := E) hv hmsg
  cases msg <;> cases hop
  case setNamespace set => cases h; rfl
  case setNamespaceKey set =>
    obtain ⟨ns, w, hns, hw, rfl⟩ := MemStorage.update_setAt_eq_ok h
    rw [intended, editAt, hns, Option.elim_some, setAt_eq_edit hw]
  case amendNamespaceKey amend =>
    obtain ⟨ns, w, hns, hw, rfl⟩ := MemStorage.update_amendAt_eq_ok h
    rw [intended, editAt, hns, Option.elim_some, amendAt_eq_edit (bounded_of_validateAmendKey hmsg) hw]
  case deleteNamespace del => exact MemStorage.update_delete_eq_ok h

omit [Externals] in
theorem getElem?_insert_of_ne {key other : NamespaceKey} (hne : key ≠ other) (version : Version) (ns : Namespace) :
    (version.insert key ns)[other]? = version[other]? := by
  rw [ExtTreeMap.getElem?_insert, if_neg (fun heq => hne (LawfulEqOrd.eq_of_compare heq))]

theorem leavesRest_of_update (hv : s.versions[ledger.head]? = some v) (hmsg : ledger.validateMsg s msg = .ok op)
    (h : op.update (E := E) v = .ok v') : LeavesRest msg v v' := by
  obtain ⟨hop, -⟩ := validateMsg_eq_ok (E := E) hv hmsg
  cases msg <;> cases hop
  case setNamespace set =>
    cases h
    refine ⟨fun key hkey => getElem?_insert_of_ne (fun heq => hkey [] (by rw [← heq]; rfl)) _ _, ?_⟩
    rintro key path ns ns' q haddr - - hq
    cases haddr
    exact absurd (comparable_nil q) hq
  case setNamespaceKey set =>
    obtain ⟨ns, w, hns, hw, rfl⟩ := MemStorage.update_setAt_eq_ok h
    refine ⟨fun key hkey => getElem?_insert_of_ne (fun heq => hkey set.path.segments (by rw [← heq]; rfl)) _ _, ?_⟩
    rintro key path ns' ns'' q haddr hbefore hafter hq
    cases haddr
    rw [hns] at hbefore
    cases hbefore
    rw [ExtTreeMap.getElem?_insert_self] at hafter
    cases hafter
    exact walk_setAt_cases hw hq
  case amendNamespaceKey amend =>
    obtain ⟨ns, w, hns, hw, rfl⟩ := MemStorage.update_amendAt_eq_ok h
    refine ⟨fun key hkey => getElem?_insert_of_ne (fun heq => hkey (segmentsOf amend.path) (by rw [← heq]; rfl)) _ _, ?_⟩
    rintro key path ns' ns'' q haddr hbefore hafter hq
    cases haddr
    rw [hns] at hbefore
    cases hbefore
    rw [ExtTreeMap.getElem?_insert_self] at hafter
    cases hafter
    exact .inl (walk_amendAt hw q hq)
  case deleteNamespace del =>
    obtain rfl := MemStorage.update_delete_eq_ok h
    refine ⟨fun key hkey => ?_, ?_⟩
    · rw [ExtTreeMap.getElem?_erase, if_neg]
      intro heq
      obtain rfl := LawfulEqOrd.eq_of_compare heq
      exact hkey [] rfl
    · rintro key path ns ns' q haddr - - hq
      cases haddr
      exact absurd (comparable_nil q) hq

/-- The dry run of a message that passed its own checks returns, whatever the store holds. -/
theorem returns_validateNested_of_validateMsg (h : ledger.validateMsg s msg = .ok op) : Judged (ledger.validateNested s op) := by
  cases hv : s.versions[ledger.head]? with
  | some v =>
    obtain ⟨-, v', hu⟩ := validateMsg_eq_ok (E := ApplyError) hv h
    exact returns_validateNested hv hu
  | none =>
    -- without the version only a whole-value write passes, and it has no dry run
    have hresolve : ∀ key path, s.resolve (E := ApplyError) ledger.head key path =
        .error (.panic "head is pre-validated: the version exists") := by
      intro key path
      unfold MemStorage.resolve MemStorage.version
      rw [hv]
      rfl
    cases msg with
    | init msg => cases h
    | setNamespace set =>
      obtain ⟨_, -, h⟩ := Res.bind_eq_ok h
      cases h
      exact Res.returns_ok _
    | setNamespaceKey set =>
      obtain ⟨_, hr, -⟩ := Res.bind_eq_ok h
      rw [hresolve] at hr
      cases hr
    | amendNamespaceKey amend =>
      obtain ⟨_, hr, -⟩ := Res.bind_eq_ok h
      rw [hresolve] at hr
      cases hr
    | deleteNamespace del =>
      obtain ⟨_, hr, -⟩ := Res.bind_eq_ok h
      rw [hresolve] at hr
      cases hr

end Checks

variable [Externals]

/-- For every store and envelope: the dry run of a message that passed its own checks returns, and an
envelope that reaches the commit commits what its message asks for and leaves the rest alone. -/
theorem commit_intended (ledger : Ledger) (s : MemStorage) (envelope : Envelope) :
    (∀ op, ledger.validateMsg s envelope.payload = .ok op → Judged (ledger.validateNested s op)) ∧
    ∀ head op, ledger.checked s envelope = .ok (head, op) → ∃ v, s.versions[ledger.head]? = some v ∧
      op.update (E := Empty) v = .ok (intended v envelope.payload) ∧
      ledger.apply envelope s = (.ok ⟨head⟩, s.install head (intended v envelope.payload)) ∧
      LeavesRest envelope.payload v (intended v envelope.payload) := by
  refine ⟨fun op hmsg => returns_validateNested_of_validateMsg hmsg, fun head op hc => ?_⟩
  obtain ⟨v, hv⟩ := checked_held hc
  obtain ⟨-, -, -, hmsg, -⟩ := checked_eq_ok hc
  obtain ⟨v', hu⟩ := exists_update hv hc
  obtain ⟨-, w, hw⟩ := validateMsg_eq_ok (E := Empty) hv hmsg
  obtain rfl := update_eq_intended hv hmsg hu
  obtain rfl := update_eq_intended hv hmsg hw
  exact ⟨v, hv, hw, apply_eq_ok hv hc hu, leavesRest_of_update hv hmsg hu⟩

end Ledger

end IrohLotus.State

/-! ## The samples -/

namespace IrohLotus.State

open Std Outcome IrohLotus.Wire IrohLotus.Wire.Sample IrohLotus.Storage

/-- The version of `listed`: an array of two entries. -/
def listedVersion : Version := (∅ : Version).insert ⟨"l", l_ne⟩ ⟨.array [.string "x", .string "y"]⟩

theorem commit_intended_cleared :
    (Ledger.mk listedDigest).apply cleared (only listedDigest listedVersion) =
      (.ok ⟨clearedDigest⟩, (only listedDigest listedVersion).install clearedDigest
        (listedVersion.insert ⟨"l", by decide⟩ ⟨.array [.string "y"]⟩)) := by
  have hc : (Ledger.mk listedDigest).checked (only listedDigest listedVersion) cleared =
      .ok (clearedDigest, .setAt ⟨"l", by decide⟩ ⟨[.index 0], by decide⟩ none) := by decide +kernel
  obtain ⟨v, hv, -, happly, -⟩ := (Ledger.commit_intended ⟨listedDigest⟩ (only listedDigest listedVersion) cleared).2 _ _ hc
  rw [versions_only] at hv
  cases hv
  have hversion : intended listedVersion cleared.payload = listedVersion.insert ⟨"l", by decide⟩ ⟨.array [.string "y"]⟩ := by
    decide +kernel
  rw [happly, hversion]

end IrohLotus.State
