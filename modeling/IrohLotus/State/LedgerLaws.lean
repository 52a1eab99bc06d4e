/-
Laws of the ledger: every judgement reads the store only through the version the ledger stands at,
an envelope that passes its checks commits without panicking, and what `apply` does is one of two
things: it wrote exactly one version, or it wrote nothing.
-/
import IrohLotus.State.Ledger
import IrohLotus.Storage.Log
import IrohLotus.Storage.Walk

namespace IrohLotus.State

open Std Outcome IrohLotus.Wire IrohLotus.Storage

/-- The op a message commits; an `Init` commits none. -/
def opOf : Msg → Option NamespaceOp
  | .init _ => none
  | .setNamespace set => some (.put set.key set.namespace)
  | .setNamespaceKey set => some (.setAt set.key set.path set.value)
  | .amendNamespaceKey amend => some (.amendAt amend.key amend.path amend.op)
  | .deleteNamespace del => some (.delete del.key)

/-- A store that holds one version and nothing else. -/
def only (head : EnvelopeDigest) (version : Version) : MemStorage := (MemStorage.empty 0).install head version

@[simp] theorem versions_only (head : EnvelopeDigest) (version : Version) :
    (only head version).versions[head]? = some version := by
  simp [only]

namespace Ledger

/-! ## What a judgement reads -/

section Congr

variable {s t : MemStorage} {ledger : Ledger} (h : s.versions[ledger.head]? = t.versions[ledger.head]?)

include h

theorem nsAt_congr {E : Type} (key : NamespaceKey) : s.nsAt (E := E) ledger.head key = t.nsAt ledger.head key := by
  simp only [MemStorage.nsAt, MemStorage.version, h]

theorem resolve_congr {E : Type} (key : NamespaceKey) (path : List Subkey) :
    s.resolve (E := E) ledger.head key path = t.resolve ledger.head key path := by
  simp only [MemStorage.resolve, MemStorage.version, h]

theorem valueAt_congr {E : Type} (key : NamespaceKey) (path : List Subkey) :
    s.valueAt (E := E) ledger.head key path = t.valueAt ledger.head key path := by
  simp only [MemStorage.valueAt, MemStorage.version, h]

theorem verifyEnvelope_congr [Externals] (envelope : Envelope) : ledger.verifyEnvelope s envelope = ledger.verifyEnvelope t envelope := by
  simp only [verifyEnvelope, trustedKeys, nsAt_congr h]

theorem checkSigThresholds_congr (envelope : Envelope) :
    ledger.checkSigThresholds s envelope = ledger.checkSigThresholds t envelope := by
  simp only [checkSigThresholds, minEnvelopeWeight, minEnvelopeSignatures, threshold, nsAt_congr h]

theorem validateMsg_congr [Externals] (msg : Msg) : ledger.validateMsg s msg = ledger.validateMsg t msg := by
  cases msg <;> simp only [validateMsg, validateSetKey, validateAmendKey, validateIncrement, resolve_congr h, valueAt_congr h]

theorem validateNested_congr [Externals] (op : NamespaceOp) : ledger.validateNested s op = ledger.validateNested t op := by
  cases op <;> simp only [validateNested, ruledValue, nsAt_congr h]

theorem checked_congr [Externals] (envelope : Envelope) : ledger.checked s envelope = ledger.checked t envelope := by
  simp only [checked, checkSigThresholds_congr h, validateMsg_congr h, validateNested_congr h]

end Congr

/-! ## Passing the checks -/

section Checks

variable {E : Type} {s : MemStorage} {ledger : Ledger} {v : Version}

theorem checked_eq_ok [Externals] {envelope : Envelope} {head : EnvelopeDigest} {op : NamespaceOp}
    (h : ledger.checked s envelope = .ok (head, op)) :
    envelope.prev = some ledger.head ∧ envelope.digest = .ok head ∧ ledger.checkSigThresholds s envelope = .ok () ∧
      ledger.validateMsg s envelope.payload = .ok op ∧ ledger.validateNested s op = .ok () := by
  unfold checked at h
  obtain ⟨prev, hp, h⟩ := Res.bind_eq_ok h
  split at h
  · cases h
  · rename_i hne
    obtain ⟨head', hd, h⟩ := Res.bind_eq_ok h
    obtain ⟨_, hs, h⟩ := Res.bind_eq_ok h
    obtain ⟨op', hm, h⟩ := Res.bind_eq_ok h
    obtain ⟨_, hn, h⟩ := Res.bind_eq_ok h
    cases h
    have hhead := Classical.not_not.1 hne
    exact ⟨hhead ▸ Res.okOr_eq_ok hp, Res.ofExcept_eq_ok hd, hs, hm, hn⟩

/-- A namespace that resolves is in the version. -/
theorem resolve_eq_ok {key : NamespaceKey} {path : List Subkey} {r : Resolution}
    (hv : s.versions[ledger.head]? = some v) (h : s.resolve (E := E) ledger.head key path = .ok (some r)) :
    ∃ ns, v[key]? = some ns ∧ Storage.resolve ns.value path = r := by
  simp only [MemStorage.resolve, s.version_eq_ok hv, Res.ok_bind] at h
  exact Option.map_eq_some_iff.1 (Except.ok.inj h)

theorem valueAt_eq_ok {key : NamespaceKey} {path : List Subkey} {x : Value} {ns : Namespace}
    (hv : s.versions[ledger.head]? = some v) (hns : v[key]? = some ns)
    (h : s.valueAt (E := E) ledger.head key path = .ok (some x)) : ns.value.walk path = some x := by
  simp only [MemStorage.valueAt, s.version_eq_ok hv, Res.ok_bind, hns] at h
  exact Except.ok.inj h

theorem validateSetKey_eq_ok {set : SetNamespaceKey} {op : NamespaceOp} (hv : s.versions[ledger.head]? = some v)
    (h : ledger.validateSetKey s set = .ok op) :
    op = .setAt set.key set.path set.value ∧
      ∃ ns, v[set.key]? = some ns ∧ ∃ w, Storage.setAt (E := E) ns.value set.path set.value = .ok w := by
  unfold validateSetKey at h
  obtain ⟨found, hr, h⟩ := Res.bind_eq_ok h
  obtain ⟨r, hfound, h⟩ := Res.bind_eq_ok h
  rw [Res.okOr_eq_ok hfound] at hr
  obtain ⟨ns, hns, hres⟩ := resolve_eq_ok hv hr
  cases r with
  | node k =>
    cases h
    obtain ⟨x, hx, -⟩ := resolveFrom_eq_node hres
    exact ⟨rfl, ns, hns, setAt_of_walk set.value hx⟩
  | missing depth stoppedIn =>
    dsimp only at h
    split at h
    · rename_i hlegal
      obtain ⟨rfl, rfl, hsome⟩ := hlegal
      obtain ⟨value, hval⟩ := Option.isSome_iff_exists.1 hsome
      have hlen : set.path.segments.length - 1 + 1 = 0 + set.path.segments.length := by
        have := List.length_pos_iff.2 set.path.nonempty
        omega
      obtain ⟨entries, name, hp, hl, -⟩ := resolveFrom_eq_missing_last hres hlen
      cases h
      exact ⟨rfl, ns, hns, hval ▸ setAt_fresh value hp hl⟩
    · cases h
  | mismatch depth => cases h

theorem validateIncrement_eq_ok [Externals] {amend : AmendNamespaceKey} {inc : IncrementDecrement} {ns : Namespace}
    (hv : s.versions[ledger.head]? = some v) (hns : v[amend.key]? = some ns)
    (h : ledger.validateIncrement s amend inc = .ok ()) :
    ∃ n sum, ns.value.walk (segmentsOf amend.path) = some (.int n) ∧ inc.apply n = some sum := by
  unfold validateIncrement at h
  obtain ⟨_, -, h⟩ := Res.bind_eq_ok h
  obtain ⟨found, hf, h⟩ := Res.bind_eq_ok h
  split at h
  · rename_i n
    obtain ⟨sum, hsum, -⟩ := Res.bind_eq_ok h
    exact ⟨n, sum, valueAt_eq_ok hv hns hf, Res.okOr_eq_ok hsum⟩
  · cases h

/-- A walk that found a node of a kind that holds entries found a map or an array. -/
theorem kind_cases {x : Value} : (kind x = .map → ∃ entries, x = .map entries) ∧ (kind x = .array → ∃ items, x = .array items) := by
  cases x <;> simp [kind]

theorem amendAt_append {root x : Value} {path : Option SubkeyPath} {put : Value → Value} {items : List Value} {entry : Value}
    (ht : appendTarget (E := E) root (segmentsOf path) = .ok (x, put)) (hx : x = .array items) :
    ∃ w, amendAt (E := E) root path (.appendEntry entry) = .ok w := by
  subst hx
  unfold amendAt
  simp only [ht, Res.ok_bind]
  exact ⟨_, rfl⟩

/-- A resolution that missed is refused. -/
theorem miss_ne_ok {α : Type} (path : Option SubkeyPath) (error : SubkeyPath → ApplyError) (a b : α) :
    (do
      let _ ← (do
        let path ← Res.expect path "Missing and Mismatch resolutions walk at least one segment"
        Res.fail (α := Unit) (error path))
      pure a) ≠ (.ok b : Res ApplyError α) := by
  intro h
  obtain ⟨_, h, -⟩ := Res.bind_eq_ok h
  obtain ⟨_, -, h⟩ := Res.bind_eq_ok h
  cases h

theorem validateAmendKey_eq_ok [Externals] {amend : AmendNamespaceKey} {op : NamespaceOp}
    (hv : s.versions[ledger.head]? = some v) (h : ledger.validateAmendKey s amend = .ok op) :
    op = .amendAt amend.key amend.path amend.op ∧
      ∃ ns, v[amend.key]? = some ns ∧ ∃ w, Storage.amendAt (E := E) ns.value amend.path amend.op = .ok w := by
  unfold validateAmendKey at h
  obtain ⟨found, hr, h⟩ := Res.bind_eq_ok h
  obtain ⟨r, hfound, h⟩ := Res.bind_eq_ok h
  rw [Res.okOr_eq_ok hfound] at hr
  obtain ⟨ns, hns, hres⟩ := resolve_eq_ok hv hr
  clear hfound hr
  dsimp only at h
  split at h
  case h_1 entry hop =>
    cases h
    obtain ⟨x, hx, hk⟩ := resolveFrom_eq_node hres
    obtain ⟨items, hitems⟩ := kind_cases.2 hk
    obtain ⟨put, ht⟩ := appendTarget_of_walk hx
    exact ⟨rfl, ns, hns, hop ▸ amendAt_append ht hitems⟩
  case h_2 entry depth stoppedIn hop =>
    split at h
    · rename_i hlegal
      obtain ⟨rfl, hlen⟩ := hlegal
      obtain ⟨entries, name, hp, hl, hg⟩ := resolveFrom_eq_missing_last hres (by omega)
      obtain ⟨put, ht⟩ := appendTarget_fresh hp hl hg
      cases h
      exact ⟨rfl, ns, hns, hop ▸ amendAt_append ht rfl⟩
    · exact absurd h (miss_ne_ok _ _ _ _)
  case h_4 inc hop =>
    obtain ⟨_, hinc, h⟩ := Res.bind_eq_ok h
    cases h
    obtain ⟨n, sum, hw, hsum⟩ := validateIncrement_eq_ok hv hns hinc
    obtain ⟨put, hput⟩ := exists_walkMut hw
    refine ⟨rfl, ns, hns, hop ▸ ?_⟩
    unfold amendAt
    simp only [hput, Res.expect_some, Res.ok_bind, hsum]
    exact ⟨_, rfl⟩
  case h_6 predicate hop =>
    cases h
    obtain ⟨x, hx, hk⟩ := resolveFrom_eq_node hres
    obtain ⟨entries, rfl⟩ := kind_cases.1 hk
    obtain ⟨put, hput⟩ := exists_walkMut hx
    refine ⟨rfl, ns, hns, hop ▸ ?_⟩
    unfold amendAt
    simp only [hput, Res.expect_some, Res.ok_bind]
    exact ⟨_, rfl⟩
  case h_7 predicate hop =>
    cases h
    obtain ⟨x, hx, hk⟩ := resolveFrom_eq_node hres
    obtain ⟨items, rfl⟩ := kind_cases.2 hk
    obtain ⟨put, hput⟩ := exists_walkMut hx
    refine ⟨rfl, ns, hns, hop ▸ ?_⟩
    unfold amendAt
    simp only [hput, Res.expect_some, Res.ok_bind]
    exact ⟨_, rfl⟩
  case h_9 => exact absurd h (miss_ne_ok _ _ _ _)
  case h_10 => exact absurd h (miss_ne_ok _ _ _ _)
  all_goals cases h

/-- A message that passes its own checks commits the op it names, and the commit does not panic. -/
theorem validateMsg_eq_ok [Externals] {msg : Msg} {op : NamespaceOp} (hv : s.versions[ledger.head]? = some v)
    (h : ledger.validateMsg s msg = .ok op) : opOf msg = some op ∧ ∃ v', op.update (E := E) v = .ok v' := by
  cases msg with
  | init msg => cases h
  | setNamespace set =>
    obtain ⟨_, -, h⟩ := Res.bind_eq_ok h
    cases h
    exact ⟨rfl, _, rfl⟩
  | setNamespaceKey set =>
    obtain ⟨rfl, ns, hns, w, hw⟩ := validateSetKey_eq_ok (E := E) hv h
    refine ⟨rfl, ?_⟩
    simp only [NamespaceOp.update, hns, Res.expect_some, Res.ok_bind, hw]
    exact ⟨_, rfl⟩
  | amendNamespaceKey amend =>
    obtain ⟨rfl, ns, hns, w, hw⟩ := validateAmendKey_eq_ok (E := E) hv h
    refine ⟨rfl, ?_⟩
    simp only [NamespaceOp.update, hns, Res.expect_some, Res.ok_bind, hw]
    exact ⟨_, rfl⟩
  | deleteNamespace del =>
    obtain ⟨found, hr, h⟩ := Res.bind_eq_ok h
    obtain ⟨r, hfound, h⟩ := Res.bind_eq_ok h
    cases h
    rw [Res.okOr_eq_ok hfound] at hr
    obtain ⟨ns, hns, -⟩ := resolve_eq_ok hv hr
    refine ⟨rfl, ?_⟩
    simp only [NamespaceOp.update, hns, Res.expect_some, Res.ok_bind]
    exact ⟨_, rfl⟩

/-! ## Judgements return -/

/-- A judgement that returned, and whose error, if it is one, is not the store's. -/
abbrev Judged {α : Type} (r : Res ApplyError α) : Prop := r.Returns (· ≠ .storage)

theorem nsAt_eq_ok (hv : s.versions[ledger.head]? = some v) (key : NamespaceKey) :
    s.nsAt (E := E) ledger.head key = .ok v[key]? := by
  simp only [MemStorage.nsAt, s.version_eq_ok hv, Res.ok_bind]; rfl

theorem returns_nsAt (hv : s.versions[ledger.head]? = some v) (key : NamespaceKey) :
    Judged (s.nsAt ledger.head key) := by
  rw [nsAt_eq_ok hv]; exact Res.returns_ok _

theorem returns_threshold (hv : s.versions[ledger.head]? = some v) (key : NamespaceKey) (reason : ValueError) :
    Judged (ledger.threshold s key reason) := by
  refine (returns_nsAt hv key).bind fun ns _ => ?_
  cases ns with
  | none => exact Res.returns_ok _
  | some ns => exact Res.returns_okOr _ nofun

theorem returns_checkSigThresholds (hv : s.versions[ledger.head]? = some v) (envelope : Envelope) :
    Judged (ledger.checkSigThresholds s envelope) := by
  unfold checkSigThresholds
  dsimp only
  split
  · exact Res.returns_fail nofun
  · refine (returns_threshold hv _ _).bind fun required _ => ?_
    split
    · exact Res.returns_fail nofun
    · refine (returns_threshold hv _ _).bind fun required _ => ?_
      split
      · exact Res.returns_fail nofun
      · exact Res.returns_ok _

theorem returns_trustedKeys [Externals] (hv : s.versions[ledger.head]? = some v) : Judged (ledger.trustedKeys s) := by
  refine (returns_nsAt hv _).bind fun ns _ => ?_
  cases ns with
  | none => exact Res.returns_ok _
  | some ns => exact Res.returns_ofExcept (fun _ => nofun) _

theorem returns_verifyEnvelope [Externals] (hv : s.versions[ledger.head]? = some v) (envelope : Envelope) :
    Judged (ledger.verifyEnvelope s envelope) := by
  have hparent : Judged (verifiedAt envelope) := by
    unfold verifiedAt
    cases envelope.prev with
    | some prev => exact Res.returns_ok _
    | none => exact Res.returns_ofExcept (fun _ => nofun) _
  refine hparent.bind fun parent _ => ?_
  dsimp only
  split
  · exact Res.returns_fail nofun
  · split
    · exact Res.returns_ok _
    · refine (returns_trustedKeys hv).bind fun keys _ => ?_
      refine (Res.returns_ofExcept (fun _ => nofun) _).bind fun digest _ => ?_
      split
      · exact Res.returns_ok _
      · exact Res.returns_ok _

theorem returns_validateValue [Externals] (key : NamespaceKey) (value : Value) : Judged (validateValue key value) :=
  Res.returns_ofExcept (fun _ => nofun) _

theorem returns_resolve (hv : s.versions[ledger.head]? = some v) (key : NamespaceKey) (path : List Subkey) :
    Judged (s.resolve ledger.head key path) := by
  simp only [MemStorage.resolve, s.version_eq_ok hv, Res.ok_bind]
  exact Res.returns_ok _

theorem returns_valueAt (hv : s.versions[ledger.head]? = some v) (key : NamespaceKey) (path : List Subkey) :
    Judged (s.valueAt ledger.head key path) := by
  simp only [MemStorage.valueAt, s.version_eq_ok hv, Res.ok_bind]
  exact Res.returns_ok _

theorem returns_validateSetKey (hv : s.versions[ledger.head]? = some v) (set : SetNamespaceKey) :
    Judged (ledger.validateSetKey s set) := by
  refine (returns_resolve hv _ _).bind fun found _ => ?_
  refine (Res.returns_okOr _ nofun).bind fun r _ => ?_
  dsimp only
  split
  · exact Res.returns_ok _
  · split
    · exact Res.returns_ok _
    · exact Res.returns_fail nofun
  · exact Res.returns_fail nofun

theorem returns_validateIncrement [Externals] (hv : s.versions[ledger.head]? = some v) (amend : AmendNamespaceKey)
    (inc : IncrementDecrement) : Judged (ledger.validateIncrement s amend inc) := by
  have hbounds : Judged (checkBounds amend inc) := by
    unfold checkBounds
    split
    · split
      · exact Res.returns_fail nofun
      · exact Res.returns_ok _
    · exact Res.returns_ok _
  refine hbounds.bind fun _ _ => ?_
  refine (returns_valueAt hv _ _).bind fun found _ => ?_
  split
  · refine (Res.returns_okOr _ nofun).bind fun sum _ => ?_
    split
    · exact returns_validateValue _ _
    · exact Res.returns_ok _
  · exact Res.returns_fail nofun

/-- A resolution that walked no segment found a node. -/
theorem returns_miss {path : Option SubkeyPath} (h : path ≠ none) (error : SubkeyPath → ApplyError)
    (he : ∀ path, error path ≠ .storage) (op : NamespaceOp) :
    Judged (do
      let _ ← (do
        let path ← Res.expect path "Missing and Mismatch resolutions walk at least one segment"
        Res.fail (α := Unit) (error path))
      pure op) := by
  cases path with
  | none => exact absurd rfl h
  | some path => exact Res.returns_fail (he path)

theorem ne_none_of_resolve {root : Value} {path : Option SubkeyPath}
    (h : ∀ k, Storage.resolve root (segmentsOf path) ≠ .node k) : path ≠ none := by
  rintro rfl
  exact h (kind root) (by simp [Storage.resolve, resolveFrom])

theorem returns_validateAmendKey [Externals] (hv : s.versions[ledger.head]? = some v) (amend : AmendNamespaceKey) :
    Judged (ledger.validateAmendKey s amend) := by
  refine (returns_resolve hv _ _).bind fun found hr => ?_
  refine (Res.returns_okOr _ nofun).bind fun r hfound => ?_
  rw [Res.okOr_eq_ok hfound] at hr
  obtain ⟨ns, -, hres⟩ := resolve_eq_ok hv hr
  have hmiss (h : ∀ k, r ≠ .node k) : amend.path ≠ none := ne_none_of_resolve (by rw [hres]; exact h)
  dsimp only
  split
  case h_1 => exact Res.returns_ok _
  case h_2 =>
    split
    · exact Res.returns_ok _
    · exact returns_miss (hmiss nofun) (ApplyError.unknownPath amend.key) (fun _ => nofun) _
  case h_4 => exact (returns_validateIncrement hv _ _).bind fun _ _ => Res.returns_ok _
  case h_6 => exact Res.returns_ok _
  case h_7 => exact Res.returns_ok _
  case h_9 => exact returns_miss (hmiss nofun) (ApplyError.unknownPath amend.key) (fun _ => nofun) _
  case h_10 => exact returns_miss (hmiss nofun) (ApplyError.pathTypeMismatch amend.key) (fun _ => nofun) _
  all_goals exact Res.returns_fail nofun

theorem returns_validateMsg [Externals] (hv : s.versions[ledger.head]? = some v) (msg : Msg) :
    Judged (ledger.validateMsg s msg) := by
  cases msg with
  | init msg => exact Res.returns_fail nofun
  | setNamespace set => exact (returns_validateValue _ _).bind fun _ _ => Res.returns_ok _
  | setNamespaceKey set => exact returns_validateSetKey hv set
  | amendNamespaceKey amend => exact returns_validateAmendKey hv amend
  | deleteNamespace del =>
    exact (returns_resolve hv _ _).bind fun _ _ => (Res.returns_okOr _ nofun).bind fun _ _ => Res.returns_ok _

theorem ruledValue_eq_ok {key : NamespaceKey} {ns : Namespace} (hv : s.versions[ledger.head]? = some v)
    (hns : v[key]? = some ns) : ledger.ruledValue s key = .ok ns.value := by
  simp only [ruledValue, nsAt_eq_ok hv, Res.ok_bind, hns]; rfl

/-- The dry run of an op whose commit goes through returns. -/
theorem returns_validateNested [Externals] {op : NamespaceOp} {v' : Version} (hv : s.versions[ledger.head]? = some v)
    (h : op.update (E := ApplyError) v = .ok v') : Judged (ledger.validateNested s op) := by
  cases op with
  | put key ns => exact Res.returns_ok _
  | delete key => exact Res.returns_ok _
  | setAt key path value =>
    obtain ⟨ns, w, hns, hw, -⟩ := MemStorage.update_setAt_eq_ok h
    simp only [validateNested, ruledValue_eq_ok hv hns, hw, Res.ok_bind]
    split
    · exact returns_validateValue _ _
    · exact Res.returns_ok _
  | amendAt key path op =>
    obtain ⟨ns, w, hns, hw, -⟩ := MemStorage.update_amendAt_eq_ok h
    simp only [validateNested, ruledValue_eq_ok hv hns, hw, Res.ok_bind]
    split
    · exact returns_validateValue _ _
    · exact Res.returns_ok _

theorem returns_checked [Externals] (hv : s.versions[ledger.head]? = some v) (envelope : Envelope) :
    Judged (ledger.checked s envelope) := by
  refine (Res.returns_okOr _ nofun).bind fun prev _ => ?_
  dsimp only
  split
  · exact Res.returns_fail nofun
  · refine (Res.returns_ofExcept (fun _ => nofun) _).bind fun head _ => ?_
    refine (returns_checkSigThresholds hv _).bind fun _ _ => ?_
    refine (returns_validateMsg hv _).bind fun op hop => ?_
    obtain ⟨-, v', hv'⟩ := validateMsg_eq_ok hv hop
    exact (returns_validateNested hv hv').bind fun _ _ => Res.returns_ok _

end Checks

/-! ## Applying -/

section Apply

variable [Externals] {s t : MemStorage} {ledger : Ledger} {v : Version} {envelope : Envelope}

/-- What an envelope that passes its checks does to the version its parent stands at. -/
theorem exists_update {head : EnvelopeDigest} {op : NamespaceOp} (hv : s.versions[ledger.head]? = some v)
    (h : ledger.checked s envelope = .ok (head, op)) : ∃ v', op.update (E := ApplyError) v = .ok v' :=
  (validateMsg_eq_ok hv (checked_eq_ok h).2.2.2.1).2

/-- `apply` on an envelope that passes its checks writes the version at its digest. -/
theorem apply_eq_ok {head : EnvelopeDigest} {op : NamespaceOp} {v' : Version} (hv : s.versions[ledger.head]? = some v)
    (h : ledger.checked s envelope = .ok (head, op)) (hu : op.update (E := ApplyError) v = .ok v') :
    ledger.apply envelope s = (.ok ⟨head⟩, s.install head v') := by
  have hread : Action.read (fun s => ledger.checked s envelope) s = (.ok (head, op), s) := by
    rw [Action.read, h]
  unfold apply
  rw [Action.bind_ok hread]
  have hcommit : s.commit (E := ApplyError) ledger.head head op = .ok (s.install head v') := by
    simp only [MemStorage.commit, s.version_eq_ok hv, Res.ok_bind, hu]; rfl
  have hwrite : Action.write (fun s => s.commit (E := ApplyError) ledger.head head op) s =
      (.ok (), s.install head v') := by
    rw [Action.write, hcommit]
  dsimp only
  rw [Action.bind_ok hwrite]; rfl

/-- `apply` on an envelope that fails its checks returns that failure and writes nothing. -/
theorem apply_eq_error {halt : Halt ApplyError} (h : ledger.checked s envelope = .error halt) :
    ledger.apply envelope s = (.error halt, s) := by
  have hread : Action.read (fun s => ledger.checked s envelope) s = (.error halt, s) := by
    rw [Action.read, h]
  unfold apply
  rw [Action.bind_error hread]

/-- From a version the store holds, `apply` commits one version or returns an error and writes
nothing. -/
theorem apply_cases (hv : s.versions[ledger.head]? = some v) (envelope : Envelope) :
    (∃ head op v', ledger.checked s envelope = .ok (head, op) ∧ op.update (E := ApplyError) v = .ok v' ∧
      ledger.apply envelope s = (.ok ⟨head⟩, s.install head v')) ∨
    ∃ e, e ≠ .storage ∧ ledger.checked s envelope = .error (.error e) ∧
      ledger.apply envelope s = (.error (.error e), s) := by
  have hret := returns_checked hv envelope
  rcases hc : ledger.checked s envelope with (e | _ | _) | ⟨head, op⟩
  · rw [hc] at hret; exact .inr ⟨e, hret, rfl, apply_eq_error hc⟩
  · rw [hc] at hret; exact hret.elim
  · rw [hc] at hret; exact hret.elim
  · obtain ⟨v', hu⟩ := exists_update hv hc
    exact .inl ⟨head, op, v', rfl, hu, apply_eq_ok hv hc hu⟩

end Apply

/-! ## Opening -/

section Opening

variable [Externals] {s t : MemStorage} {ledger : Ledger} {envelope : Envelope}

theorem init_eq_ok (h : Ledger.init envelope s = (.ok ledger, t)) :
    ∃ msg, envelope.payload = .init msg ∧ validateCheckpoint msg.state = .ok () ∧
      envelope.digest = .ok ledger.head ∧ t = s.install ledger.head msg.state.namespaces := by
  cases hmsg : envelope.payload with
  | init msg =>
    simp only [Ledger.init, hmsg] at h
    obtain ⟨_, s₁, h₁, h⟩ := Action.bind_eq_ok h
    obtain ⟨hc, rfl⟩ := Action.ofRes_eq_ok h₁
    obtain ⟨head, s₂, h₂, h⟩ := Action.bind_eq_ok h
    obtain ⟨hd, rfl⟩ := Action.ofRes_eq_ok h₂
    obtain ⟨_, s₃, hw, h⟩ := Action.bind_eq_ok h
    cases Action.write_eq_ok hw
    cases h
    exact ⟨msg, rfl, Res.mapErr_eq_ok hc, Res.ofExcept_eq_ok hd, rfl⟩
  | setNamespace _ | setNamespaceKey _ | amendNamespaceKey _ | deleteNamespace _ =>
    simp only [Ledger.init, hmsg] at h
    cases h

theorem adopt_eq_ok {state : FullCheckpoint} (h : Ledger.adopt envelope state s = (.ok ledger, t)) :
    validateCheckpoint state = .ok () ∧ envelope.digest = .ok ledger.head ∧
      t = s.install ledger.head state.namespaces := by
  obtain ⟨_, s₁, h₁, h⟩ := Action.bind_eq_ok h
  obtain ⟨hc, rfl⟩ := Action.ofRes_eq_ok h₁
  obtain ⟨head, s₂, h₂, h⟩ := Action.bind_eq_ok h
  obtain ⟨hd, rfl⟩ := Action.ofRes_eq_ok h₂
  obtain ⟨_, s₃, hw, h⟩ := Action.bind_eq_ok h
  cases Action.write_eq_ok hw
  cases h
  exact ⟨Res.mapErr_eq_ok hc, Res.ofExcept_eq_ok hd, rfl⟩

end Opening

end Ledger

end IrohLotus.State
