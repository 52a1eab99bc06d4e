/-
The reserved namespaces keep their rules: whatever `init`, `adopt` and `apply` write, every reserved
namespace of every version holds a value its rule accepts, so no reader of one can find it broken.
-/
import IrohLotus.State.LedgerLaws
import IrohLotus.Wire.Sample

namespace IrohLotus.State

open Std Outcome IrohLotus.Wire IrohLotus.Storage

variable [Externals]

/-- Every reserved namespace that is present holds a value its rule accepts. -/
def Ruled (v : Version) : Prop := ∀ key ns, v[key]? = some ns → ∀ r, rule key = some r → r ns.value = .ok ()

/-- The stores that `init`, `adopt` and `apply` write, starting from an empty one. -/
inductive Ledger.Written : MemStorage → Prop
  | empty (clock : StoredAt) : Written (MemStorage.empty clock)
  | init {s t : MemStorage} {envelope : Envelope} {ledger : Ledger} (h : Written s)
    (run : Ledger.init envelope s = (.ok ledger, t)) : Written t
  | adopt {s t : MemStorage} {envelope : Envelope} {state : FullCheckpoint} {ledger : Ledger} (h : Written s)
    (run : Ledger.adopt envelope state s = (.ok ledger, t)) : Written t
  | apply {s t : MemStorage} {envelope : Envelope} {ledger next : Ledger} (h : Written s)
    (run : ledger.apply envelope s = (.ok next, t)) : Written t

/-! ## What validation establishes -/

theorem validateValue_eq_ok {key : NamespaceKey} {value : Value} (h : validateValue key value = .ok ()) {r : Rule}
    (hr : rule key = some r) : r value = .ok () := by
  have := Res.ofExcept_eq_ok h
  rw [hr] at this; exact this

theorem validateCheckpoint_ruled {state : FullCheckpoint} (h : validateCheckpoint state = .ok ()) :
    Ruled state.namespaces := by
  intro key ns hns r hr
  have hmem : (key, ns) ∈ state.namespaces.toList := ExtTreeMap.mem_toList_iff_getElem?_eq_some.2 hns
  exact validateValue_eq_ok (Res.forM_eq_ok h (key, ns) hmem) hr

theorem validateCheckpoint_of_ruled {v : Version} (h : Ruled v) : validateCheckpoint ⟨v⟩ = .ok () := by
  refine Res.forM_of_ok fun ⟨key, ns⟩ hmem => ?_
  have hns : v[key]? = some ns := ExtTreeMap.mem_toList_iff_getElem?_eq_some.1 hmem
  simp only [validateValue]
  cases hr : rule key with
  | none => rfl
  | some r => simp only [Option.elim_some, h key ns hns r hr]; rfl

/-- Writing one namespace keeps every rule when the value written satisfies its own. -/
theorem Ruled.insert {v : Version} (hv : Ruled v) {key : NamespaceKey} {ns : Namespace}
    (h : ∀ r, rule key = some r → r ns.value = .ok ()) : Ruled (v.insert key ns) := by
  intro key' ns' hns' r hr
  rw [ExtTreeMap.getElem?_insert] at hns'
  split at hns'
  · rename_i heq
    cases hns'
    obtain rfl := Std.compare_eq_iff_eq.1 heq
    exact h r hr
  · exact hv key' ns' hns' r hr

theorem Ruled.erase {v : Version} (hv : Ruled v) (key : NamespaceKey) : Ruled (v.erase key) := by
  intro key' ns' hns' r hr
  rw [ExtTreeMap.getElem?_erase] at hns'
  split at hns'
  · cases hns'
  · exact hv key' ns' hns' r hr

namespace Ledger

variable {s t : MemStorage} {ledger next : Ledger} {v v' : Version} {envelope : Envelope}

/-- The dry run of a nested write judged the value the commit writes. -/
theorem validateNested_eq_ok {key : NamespaceKey} {ns : Namespace} {value : Value} {r : Rule}
    (result : Value → Res ApplyError Value) (hv : s.versions[ledger.head]? = some v) (hns : v[key]? = some ns)
    (hw : result ns.value = .ok value) (hr : rule key = some r)
    (h : (if (rule key).isSome then do
        let value ← result (← ledger.ruledValue s key)
        validateValue key value
      else pure ()) = (.ok () : Res ApplyError Unit)) : r value = .ok () := by
  rw [if_pos (by rw [hr]; rfl)] at h
  simp only [ruledValue_eq_ok hv hns, hw, Res.ok_bind] at h
  exact validateValue_eq_ok h hr

/-- An envelope that passes its checks leaves every rule satisfied. -/
theorem checked_ruled {head : EnvelopeDigest} {op : NamespaceOp} (hv : s.versions[ledger.head]? = some v) (hr : Ruled v)
    (hc : ledger.checked s envelope = .ok (head, op)) (hu : op.update (E := ApplyError) v = .ok v') : Ruled v' := by
  obtain ⟨-, -, -, hm, hn⟩ := checked_eq_ok hc
  cases op with
  | put key ns =>
    cases hu
    refine hr.insert fun r hrule => ?_
    -- only a whole write commits a put, and its own check judged the value
    cases hp : envelope.payload with
    | setNamespace set =>
      rw [hp] at hm
      obtain ⟨_, hval, hm⟩ := Res.bind_eq_ok hm
      cases hm
      exact validateValue_eq_ok hval hrule
    | init msg => rw [hp] at hm; cases hm
    | setNamespaceKey set => have := (validateMsg_eq_ok (E := ApplyError) hv hm).1; rw [hp] at this; cases this
    | amendNamespaceKey amend => have := (validateMsg_eq_ok (E := ApplyError) hv hm).1; rw [hp] at this; cases this
    | deleteNamespace del => have := (validateMsg_eq_ok (E := ApplyError) hv hm).1; rw [hp] at this; cases this
  | delete key =>
    rw [MemStorage.update_delete_eq_ok hu]
    exact hr.erase key
  | setAt key path value =>
    obtain ⟨ns, w, hns, hw, rfl⟩ := MemStorage.update_setAt_eq_ok hu
    exact hr.insert fun r hrule => validateNested_eq_ok (setAt · path value) hv hns hw hrule hn
  | amendAt key path op =>
    obtain ⟨ns, w, hns, hw, rfl⟩ := MemStorage.update_amendAt_eq_ok hu
    exact hr.insert fun r hrule => validateNested_eq_ok (amendAt · path op) hv hns hw hrule hn

/-- An `apply` that goes through stood on a version the store holds. -/
theorem held_of_apply_eq_ok (h : ledger.apply envelope s = (.ok next, t)) : ∃ v, s.versions[ledger.head]? = some v := by
  unfold apply at h
  obtain ⟨⟨head, op⟩, s₁, hc, h⟩ := Action.bind_eq_ok h
  obtain ⟨-, rfl⟩ := Action.read_eq_ok hc
  obtain ⟨_, s₂, hw, -⟩ := Action.bind_eq_ok h
  obtain ⟨v, -, hv, -⟩ := s.commit_eq_ok (Action.write_eq_ok hw)
  exact ⟨v, hv⟩

theorem install_ruled {head : EnvelopeDigest} (h : ∀ (d : EnvelopeDigest) v, s.versions[d]? = some v → Ruled v) (hv' : Ruled v') :
    ∀ (d : EnvelopeDigest) v, (s.install head v').versions[d]? = some v → Ruled v := by
  intro d v hv
  rw [MemStorage.versions_install] at hv
  split at hv
  · cases hv; exact hv'
  · exact h d v hv

/-- Every version of a store the ledger wrote keeps the rules. -/
theorem Written.ruled (h : Written s) : ∀ (d : EnvelopeDigest) v, s.versions[d]? = some v → Ruled v := by
  induction h with
  | empty clock => intro d v hv; simp [MemStorage.empty] at hv
  | init _ run ih =>
    obtain ⟨msg, -, hc, -, rfl⟩ := init_eq_ok run
    exact install_ruled ih (validateCheckpoint_ruled hc)
  | adopt _ run ih =>
    obtain ⟨hc, -, rfl⟩ := adopt_eq_ok run
    exact install_ruled ih (validateCheckpoint_ruled hc)
  | @apply s t envelope ledger next _ run ih =>
    obtain ⟨v, hv⟩ := held_of_apply_eq_ok run
    rcases apply_cases hv envelope with ⟨head, op, v', hc, hu, heq⟩ | ⟨e, -, -, heq⟩
    · rw [heq] at run
      cases run
      exact install_ruled ih (checked_ruled hv (ih _ _ hv) hc hu)
    · rw [heq] at run; cases run

/-! ## Reading a reserved namespace -/

theorem rule_minKeepMinutesKey : rule minKeepMinutesKey =
    some fun value => ((parseMinKeep value).elim (throw .minKeepMinutes) fun _ => pure ()) := by
  unfold rule; rw [if_pos rfl]

theorem rule_minEnvelopeWeightKey : rule minEnvelopeWeightKey =
    some fun value => ((parseThreshold value).elim (throw .minEnvelopeWeight) fun _ => pure ()) := by
  unfold rule; rw [if_neg (by decide), if_pos rfl]

theorem rule_minEnvelopeSignaturesKey : rule minEnvelopeSignaturesKey =
    some fun value => ((parseThreshold value).elim (throw .minEnvelopeSignatures) fun _ => pure ()) := by
  unfold rule; rw [if_neg (by decide), if_neg (by decide), if_pos rfl]

theorem rule_trustedKeysKey : rule trustedKeysKey =
    some fun value => ((parseTrustedKeys value).map fun _ => ()).mapError .trustedKeys := by
  unfold rule; rw [if_neg (by decide), if_neg (by decide), if_neg (by decide), if_pos rfl]

theorem rule_clusterNodesKey : rule clusterNodesKey =
    some fun value => ((parseClusterNodes value).map fun _ => ()).mapError .clusterNodes := by
  unfold rule; rw [if_neg (by decide), if_neg (by decide), if_neg (by decide), if_neg (by decide), if_pos rfl]

omit [Externals] in
/-- A parse whose outcome the rule accepted succeeded. -/
theorem parsed_of_elim {α ε : Type} {o : Option α} {e : ε}
    (h : (o.elim (throw e) fun _ => pure ()) = (.ok () : Except ε Unit)) : ∃ a, o = some a := by
  cases o with
  | none => cases h
  | some a => exact ⟨a, rfl⟩

omit [Externals] in
theorem parsed_of_map {α ε ε' : Type} {r : Except ε α} {f : ε → ε'}
    (h : (r.map fun _ => ()).mapError f = .ok ()) : ∃ a, r = .ok a := by
  cases r with
  | error e => cases h
  | ok a => exact ⟨a, rfl⟩

theorem trustedKeys_of_ruled (hv : s.versions[ledger.head]? = some v) (hr : Ruled v) :
    ∃ keys, ledger.trustedKeys s = .ok keys := by
  simp only [trustedKeys, nsAt_eq_ok hv, Res.ok_bind]
  cases hns : v[trustedKeysKey]? with
  | none => exact ⟨_, rfl⟩
  | some ns =>
    obtain ⟨keys, hk⟩ := parsed_of_map (hr _ ns hns _ rule_trustedKeysKey)
    exact ⟨keys, by simp only [hk, Res.ofExcept_ok]⟩

theorem peerAddresses_of_ruled (hv : s.versions[ledger.head]? = some v) (hr : Ruled v) :
    ∃ addresses, ledger.peerAddresses s = .ok addresses := by
  simp only [peerAddresses, nsAt_eq_ok hv, Res.ok_bind]
  cases hns : v[clusterNodesKey]? with
  | none => exact ⟨_, rfl⟩
  | some ns =>
    obtain ⟨nodes, hn⟩ := parsed_of_map (hr _ ns hns _ rule_clusterNodesKey)
    exact ⟨nodes, by simp only [hn, Res.ofExcept_ok]⟩

theorem threshold_of_ruled {key : NamespaceKey} {reason : ValueError} (hv : s.versions[ledger.head]? = some v)
    (hr : Ruled v)
    (hrule : rule key = some fun value => ((parseThreshold value).elim (throw reason) fun _ => pure ())) :
    ∃ n, ledger.threshold s key reason = .ok n := by
  simp only [threshold, nsAt_eq_ok hv, Res.ok_bind]
  cases hns : v[key]? with
  | none => exact ⟨_, rfl⟩
  | some ns =>
    obtain ⟨n, hn⟩ := parsed_of_elim (hr _ ns hns _ hrule)
    exact ⟨n, by simp only [hn, Res.okOr_some]⟩

theorem minKeepMinutes_of_ruled {ns : Namespace} (hv : s.versions[ledger.head]? = some v) (hr : Ruled v)
    (hns : v[minKeepMinutesKey]? = some ns) :
    ∃ minutes, parseMinKeep ns.value = some minutes ∧ ledger.minKeepMinutes s = .ok minutes := by
  obtain ⟨minutes, hm⟩ := parsed_of_elim (hr _ ns hns _ rule_minKeepMinutesKey)
  refine ⟨minutes, hm, ?_⟩
  simp only [minKeepMinutes, nsAt_eq_ok hv, Res.ok_bind, hns, Option.bind_some, hm, Option.getD_some]
  rfl

/-- Every version the ledger ever wrote keeps the rules of the reserved namespaces, so every reader
of one succeeds on it, and the compaction floor read is the one set. -/
theorem Written.reserved (h : Written s) {head : EnvelopeDigest} {v : Version} (hv : s.versions[head]? = some v) :
    Ruled v ∧ (∃ keys, (Ledger.mk head).trustedKeys s = .ok keys) ∧
      (∃ weight, (Ledger.mk head).minEnvelopeWeight s = .ok weight) ∧
      (∃ signers, (Ledger.mk head).minEnvelopeSignatures s = .ok signers) ∧
      (∃ addresses, (Ledger.mk head).peerAddresses s = .ok addresses) ∧
      ∀ ns, v[minKeepMinutesKey]? = some ns →
        ∃ minutes, parseMinKeep ns.value = some minutes ∧ (Ledger.mk head).minKeepMinutes s = .ok minutes := by
  have hr := h.ruled head v hv
  exact ⟨hr, trustedKeys_of_ruled hv hr, threshold_of_ruled hv hr rule_minEnvelopeWeightKey,
    threshold_of_ruled hv hr rule_minEnvelopeSignaturesKey, peerAddresses_of_ruled hv hr,
    fun _ hns => minKeepMinutes_of_ruled hv hr hns⟩

end Ledger

end IrohLotus.State

/-! ## A run of the samples -/

namespace IrohLotus.State.Ledger

open Std Outcome IrohLotus.Wire IrohLotus.Wire.Sample IrohLotus.Storage

/-- The store once a compaction floor of an hour was set. -/
def flooredStore : MemStorage := (Ledger.init floored (MemStorage.empty 0)).2

/-- And once it was raised by five minutes. -/
def raisedStore : MemStorage := ((Ledger.mk flooredDigest).apply raised flooredStore).2

theorem written_raisedStore : Written raisedStore := by
  have hinit : Ledger.init floored (MemStorage.empty 0) = (.ok ⟨flooredDigest⟩, flooredStore) := by decide +kernel
  have happly : (Ledger.mk flooredDigest).apply raised flooredStore = (.ok ⟨raisedDigest⟩, raisedStore) := by
    decide +kernel
  exact .apply (.init (.empty 0) hinit) happly

theorem Written.reserved_raisedStore :
    Written raisedStore ∧
      raisedStore.versions[raisedDigest]? = some (Std.ExtTreeMap.insert ∅ minKeepMinutesKey ⟨.int 65⟩) ∧
      Ruled (Std.ExtTreeMap.insert ∅ minKeepMinutesKey ⟨.int 65⟩) ∧
      (∃ keys, (Ledger.mk raisedDigest).trustedKeys raisedStore = .ok keys) ∧
      (Ledger.mk raisedDigest).minKeepMinutes raisedStore = .ok 65 := by
  have hv : raisedStore.versions[raisedDigest]? = some (Std.ExtTreeMap.insert ∅ minKeepMinutesKey ⟨.int 65⟩) := by
    decide +kernel
  obtain ⟨hruled, hkeys, -, -, -, hfloor⟩ := written_raisedStore.reserved hv
  obtain ⟨minutes, hparse, hread⟩ := hfloor ⟨.int 65⟩ (by decide +kernel)
  obtain rfl : minutes = 65 := by
    have h65 : parseMinKeep (.int 65) = some 65 := by decide +kernel
    rw [h65] at hparse; exact (Option.some.inj hparse).symm
  exact ⟨written_raisedStore, hv, hruled, hkeys, hread⟩

end IrohLotus.State.Ledger
