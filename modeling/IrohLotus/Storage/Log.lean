/-
Laws of the in-memory store: what each write does to every read, and that the children index is
exactly the parent column of the log read backwards.
-/
import IrohLotus.Storage.Mem

namespace IrohLotus.Storage.MemStorage

open Std Outcome IrohLotus.Wire

variable {E : Type} (s : MemStorage)

/-! ## Versions -/

theorem containsVersion_eq (head : EnvelopeDigest) : s.containsVersion head = s.versions[head]?.isSome :=
  ExtTreeMap.contains_eq_isSome_getElem?

theorem containsVersion_iff (head : EnvelopeDigest) : s.containsVersion head = true ↔ ∃ v, s.versions[head]? = some v := by
  rw [containsVersion_eq, Option.isSome_iff_exists]

theorem version_eq_ok {head : EnvelopeDigest} {v : Version} (h : s.versions[head]? = some v) :
    s.version (E := E) head = .ok v := by
  unfold version; rw [h]; rfl

@[simp] theorem versions_install (head digest : EnvelopeDigest) (v : Version) :
    (s.install head v).versions[digest]? = if head = digest then some v else s.versions[digest]? := by
  simp [install, ExtTreeMap.getElem?_insert]

/-- Installing what is installed changes nothing. -/
theorem install_same {head : EnvelopeDigest} {v : Version} (h : s.versions[head]? = some v) : s.install head v = s := by
  have hversions : s.versions.insert head v = s.versions := by
    refine ExtTreeMap.ext_getElem? fun d => ?_
    rw [ExtTreeMap.getElem?_insert]
    split
    · rename_i heq
      rw [← Std.compare_eq_iff_eq.1 heq, h]
    · rfl
  unfold install
  rw [hversions]

@[simp] theorem envelope_install (head : EnvelopeDigest) (v : Version) (digest : EnvelopeDigest) :
    (s.install head v).envelope digest = s.envelope digest := rfl

@[simp] theorem childSet_install (head : EnvelopeDigest) (v : Version) (digest : EnvelopeDigest) :
    (s.install head v).childSet digest = s.childSet digest := rfl

@[simp] theorem versions_retain (keep : List EnvelopeDigest) (digest : EnvelopeDigest) :
    (s.retain keep).versions[digest]? = if digest ∈ keep then s.versions[digest]? else none := by
  simp only [retain, ExtTreeMap.getElem?_filter, ExtTreeMap.getKey_eq]
  cases s.versions[digest]? <;> by_cases h : digest ∈ keep <;> simp [h]

@[simp] theorem envelope_retain (keep : List EnvelopeDigest) (digest : EnvelopeDigest) :
    (s.retain keep).envelope digest = s.envelope digest := rfl

@[simp] theorem children_retain (keep : List EnvelopeDigest) (digest : EnvelopeDigest) :
    (s.retain keep).children digest = s.children digest := rfl

/-- A commit that goes through writes one version and nothing else. -/
theorem commit_eq_ok {parent head : EnvelopeDigest} {op : NamespaceOp} {t : MemStorage}
    (h : s.commit (E := E) parent head op = .ok t) :
    ∃ v v', s.versions[parent]? = some v ∧ op.update (E := E) v = .ok v' ∧ t = s.install head v' := by
  unfold commit at h
  obtain ⟨v, hv, h⟩ := Res.bind_eq_ok h
  obtain ⟨v', hu, h⟩ := Res.bind_eq_ok h
  cases h
  refine ⟨v, v', ?_, hu, rfl⟩
  unfold version at hv
  cases hv' : s.versions[parent]? with
  | none => rw [hv'] at hv; cases hv
  | some w => rw [hv'] at hv; cases hv; rfl

/-! ## Namespace writes -/

theorem update_delete_eq_ok {v v' : Version} {key : NamespaceKey}
    (h : (NamespaceOp.delete key).update (E := E) v = .ok v') : v' = v.erase key := by
  obtain ⟨_, -, h⟩ := Res.bind_eq_ok h
  cases h; rfl

theorem update_setAt_eq_ok {v v' : Version} {key : NamespaceKey} {path : SubkeyPath} {value : Option Value}
    (h : (NamespaceOp.setAt key path value).update (E := E) v = .ok v') :
    ∃ ns w, v[key]? = some ns ∧ Storage.setAt (E := E) ns.value path value = .ok w ∧ v' = v.insert key ⟨w⟩ := by
  obtain ⟨ns, hns, h⟩ := Res.bind_eq_ok h
  obtain ⟨w, hw, h⟩ := Res.bind_eq_ok h
  cases h
  exact ⟨ns, w, Res.expect_eq_ok hns, hw, rfl⟩

theorem update_amendAt_eq_ok {v v' : Version} {key : NamespaceKey} {path : Option SubkeyPath} {op : AmendOp}
    (h : (NamespaceOp.amendAt key path op).update (E := E) v = .ok v') :
    ∃ ns w, v[key]? = some ns ∧ Storage.amendAt (E := E) ns.value path op = .ok w ∧ v' = v.insert key ⟨w⟩ := by
  obtain ⟨ns, hns, h⟩ := Res.bind_eq_ok h
  obtain ⟨w, hw, h⟩ := Res.bind_eq_ok h
  cases h
  exact ⟨ns, w, Res.expect_eq_ok hns, hw, rfl⟩

/-! ## The log -/

@[simp] theorem versions_putEnvelope (digest : EnvelopeDigest) (e : Envelope) :
    (s.putEnvelope digest e).versions = s.versions := rfl

@[simp] theorem containsVersion_putEnvelope (digest head : EnvelopeDigest) (e : Envelope) :
    (s.putEnvelope digest e).containsVersion head = s.containsVersion head := rfl

@[simp] theorem envelope_putEnvelope (digest other : EnvelopeDigest) (e : Envelope) :
    (s.putEnvelope digest e).envelope other = if digest = other then some e else s.envelope other := by
  simp only [envelope, loggedEnvelope, putEnvelope, ExtTreeMap.getElem?_insert, Std.compare_eq_iff_eq]
  split <;> rfl

@[simp] theorem versions_removeEnvelope (digest : EnvelopeDigest) :
    (s.removeEnvelope digest).versions = s.versions := rfl

@[simp] theorem envelope_removeEnvelope (digest other : EnvelopeDigest) :
    (s.removeEnvelope digest).envelope other = if digest = other then none else s.envelope other := by
  simp only [envelope, loggedEnvelope, removeEnvelope, ExtTreeMap.getElem?_erase, Std.compare_eq_iff_eq]
  split <;> rfl

theorem parent_eq_some {digest prev : EnvelopeDigest} :
    s.parent digest = some prev ↔ ∃ e, s.envelope digest = some e ∧ e.prev = some prev := by
  simp only [parent, Option.bind_eq_some_iff]

@[simp] theorem mem_children {parent digest : EnvelopeDigest} : digest ∈ s.children parent ↔ digest ∈ s.childSet parent := by
  simp [children]

theorem childSet_putEnvelope (digest parent : EnvelopeDigest) (e : Envelope) :
    (s.putEnvelope digest e).childSet parent =
      if e.prev = some parent then (s.childSet parent).insert digest else s.childSet parent := by
  simp only [childSet, putEnvelope]
  cases hp : e.prev with
  | none => simp
  | some prev =>
    by_cases h : prev = parent
    · subst h; simp
    · simp [ExtTreeMap.getElem?_insert, h]

theorem childSet_removeEnvelope (digest parent : EnvelopeDigest) :
    (s.removeEnvelope digest).childSet parent =
      if s.parent digest = some parent then (s.childSet parent).erase digest else s.childSet parent := by
  simp only [childSet, removeEnvelope]
  cases hp : s.parent digest with
  | none => simp
  | some prev =>
    simp only [Option.some.injEq]
    by_cases h : prev = parent
    · subst h
      rw [if_pos rfl]
      cases hi : s.childIndex[prev]? with
      | none => simp [hi, ExtTreeSet.erase_empty]
      | some siblings =>
        by_cases he : (siblings.erase digest).isEmpty = true
        · simp only [he, if_true, Option.getD_some, ExtTreeMap.getElem?_erase_self, Option.getD_none]
          exact (ExtTreeSet.isEmpty_iff.1 he).symm
        · simp only [he, Bool.false_eq_true, if_false, ExtTreeMap.getElem?_insert_self, Option.getD_some]
    · rw [if_neg h]
      cases hi : s.childIndex[prev]? with
      | none => rfl
      | some siblings =>
        by_cases he : (siblings.erase digest).isEmpty = true
        · simp only [he, if_true, ExtTreeMap.getElem?_erase, Std.compare_eq_iff_eq, h, if_false]
        · simp only [he, Bool.false_eq_true, if_false, ExtTreeMap.getElem?_insert, Std.compare_eq_iff_eq, h]

/-! ## The children index -/

/-- The children index names exactly the stored envelopes of each parent. -/
def Indexed : Prop := ∀ p c, c ∈ s.childSet p ↔ s.parent c = some p

variable {s}

theorem Indexed.mem_children (h : s.Indexed) {p c : EnvelopeDigest} : c ∈ s.children p ↔ s.parent c = some p := by
  rw [MemStorage.mem_children]; exact h p c

theorem indexed_empty (clock : StoredAt) : (MemStorage.empty clock).Indexed := by
  intro p c
  simp [MemStorage.empty, childSet, parent, envelope, loggedEnvelope]

theorem parent_putEnvelope (digest other : EnvelopeDigest) (e : Envelope) :
    (s.putEnvelope digest e).parent other = if digest = other then e.prev else s.parent other := by
  simp only [parent, envelope_putEnvelope]
  split <;> rfl

theorem parent_removeEnvelope (digest other : EnvelopeDigest) :
    (s.removeEnvelope digest).parent other = if digest = other then none else s.parent other := by
  simp only [parent, envelope_removeEnvelope]
  split <;> rfl

/-- Storing an envelope keeps the index exact, as long as a record it replaces had its parent. -/
theorem Indexed.putEnvelope (h : s.Indexed) {digest : EnvelopeDigest} {e : Envelope}
    (hsame : ∀ e', s.envelope digest = some e' → e'.prev = e.prev) : (s.putEnvelope digest e).Indexed := by
  intro p c
  rw [childSet_putEnvelope, parent_putEnvelope]
  by_cases hc : digest = c
  · subst hc
    rw [if_pos rfl]
    by_cases hp : e.prev = some p
    · simp [hp]
    · rw [if_neg hp, h]
      constructor
      · intro hpar
        obtain ⟨e', he', hp'⟩ := (parent_eq_some s).1 hpar
        exact absurd (hsame e' he' ▸ hp') hp
      · intro hp'; exact absurd hp' hp
  · rw [if_neg hc, ← h p c]
    split
    · simp [ExtTreeSet.mem_insert, hc]
    · rfl

/-- Removing an envelope keeps the index exact. -/
theorem Indexed.removeEnvelope (h : s.Indexed) (digest : EnvelopeDigest) : (s.removeEnvelope digest).Indexed := by
  intro p c
  rw [childSet_removeEnvelope, parent_removeEnvelope]
  by_cases hc : digest = c
  · subst hc
    rw [if_pos rfl]
    by_cases hp : s.parent digest = some p
    · simp [hp, ExtTreeSet.mem_erase]
    · rw [if_neg hp, h]; simp [hp]
  · rw [if_neg hc, ← h p c]
    split
    · simp [ExtTreeSet.mem_erase, hc]
    · rfl

theorem Indexed.install (h : s.Indexed) (head : EnvelopeDigest) (v : Version) : (s.install head v).Indexed := h

theorem Indexed.retain (h : s.Indexed) (keep : List EnvelopeDigest) : (s.retain keep).Indexed := h

end IrohLotus.Storage.MemStorage
