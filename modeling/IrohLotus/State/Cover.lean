/-
Change sets against the state. A change set names every namespace and every path the messages on
either side of a movement wrote, so it covers every difference between the two versions as long as
no message moved the entries of an array behind the one it cleared.
-/
import IrohLotus.State.Orphan
import IrohLotus.Storage.Frame

namespace IrohLotus.State

open Std Outcome Forest IrohLotus.Wire IrohLotus.Storage

/-! ## What a change set says -/

theorem zip_all_iff : ∀ (a b : List Subkey), ((a.zip b).all fun (a, b) => a = b) = true ↔ Comparable a b
  | [], b => by simp [comparable_nil]
  | a :: as, [] => by simp [Comparable]
  | a :: as, b :: bs => by
    have ih := zip_all_iff as bs
    rw [comparable_cons, ← ih]
    simp

theorem overlaps_iff {a b : SubkeyPath} : overlaps a b = true ↔ Comparable a.segments b.segments :=
  zip_all_iff a.segments b.segments

theorem covers_iff {a b : SubkeyPath} : covers a b = true ↔ a.segments <+: b.segments := by
  simp only [covers, Bool.and_eq_true, decide_eq_true_eq, overlaps_iff, Comparable]
  constructor
  · rintro ⟨hlen, h | h⟩
    · exact h
    · rw [h.eq_of_length_le hlen]
  · intro h
    exact ⟨h.length_le, .inl h⟩

/-- Whether a change at one path, if any, may be seen at another: `none` is the whole namespace. -/
def Meets : Option SubkeyPath → Option SubkeyPath → Prop
  | some a, some b => Comparable a.segments b.segments
  | _, _ => True

/-- A change recorded under a path covers what was recorded, or asked, under it. -/
theorem overlaps_of_covers {a b : SubkeyPath} {c : SubkeyPath} (h : covers a b = true) (hc : overlaps b c = true) :
    overlaps a c = true :=
  overlaps_iff.2 ((overlaps_iff.1 hc).of_shorter (covers_iff.1 h))

namespace ChangeSet

variable {set : ChangeSet} {key k : NamespaceKey} {path : Option SubkeyPath} {q : Option SubkeyPath}

theorem touches_of_ne {change : Change} (hne : key ≠ k) (q : Option SubkeyPath) :
    (ChangeSet.mk (set.changes.insert key change)).touches k q = set.touches k q := by
  simp only [touches, ExtTreeMap.getElem?_insert, Std.compare_eq_iff_eq, if_neg hne]

theorem touches_paths {paths : ExtTreeSet SubkeyPath} (h : set.changes[k]? = some (.paths paths)) :
    set.touches k q = true ↔ ∀ b, q = some b → ∃ a ∈ paths, overlaps a b = true := by
  cases q with
  | none => simp [touches, h]
  | some b => simp [touches, h, List.any_eq_true]

/-- The law of `touch`: absorbing paths loses nothing, and nothing else is added. -/
theorem touches_touch : (set.touch key path).touches k q = true ↔ set.touches k q = true ∨ key = k ∧ Meets path q := by
  by_cases hne : key = k
  · subst hne
    cases path with
    | none =>
      have hget : (set.touch key none).changes[key]? = some .whole := by simp [touch]
      simp [touches, hget, Meets]
    | some path =>
      have hmeets : Meets (some path) q ↔ ∀ b, q = some b → overlaps path b = true := by
        cases q with
        | none => simp [Meets]
        | some b => simp [Meets, overlaps_iff]
      simp only [true_and, hmeets]
      cases hget : set.changes[key]? with
      | none =>
        have hold : set.touches key q = false := by simp [touches, hget]
        have hnew : (set.touch key (some path)).changes[key]? = some (.paths (ExtTreeSet.ofList [path])) := by
          simp [touch, hget]
        rw [touches_paths hnew, hold]
        simp
      | some change =>
        cases change with
        | whole =>
          have hold : set.touches key q = true := by simp [touches, hget]
          have hnew : set.touch key (some path) = set := by simp [touch, hget]
          simp [hnew, hold]
        | paths paths =>
          by_cases hany : (paths.toList.any fun touched => covers touched path) = true
          · have hnew : set.touch key (some path) = set := by
              simp only [touch, hget, hany, if_true]
            rw [hnew, touches_paths hget]
            refine ⟨.inl, ?_⟩
            rintro (h | h)
            · exact h
            · -- what covers the path sees whatever the path does
              obtain ⟨a, ha, hcov⟩ := List.any_eq_true.1 hany
              intro b hb
              exact ⟨a, ExtTreeSet.mem_toList.1 ha, overlaps_of_covers hcov (h b hb)⟩
          · have hnew : (set.touch key (some path)).changes[key]? =
                some (.paths ((paths.filter fun touched => !covers path touched).insert path)) := by
              simp only [touch, hget, hany]
              simp
            rw [touches_paths hnew, touches_paths hget]
            simp only [ExtTreeSet.mem_insert, Std.compare_eq_iff_eq]
            cases q with
            | none => simp
            | some b =>
              simp only [Option.some.injEq, forall_eq']
              constructor
              · rintro ⟨a, rfl | ha, hab⟩
                · exact .inr hab
                · exact .inl ⟨a, (ExtTreeSet.mem_filter.1 ha).1, hab⟩
              · rintro (⟨a, ha, hab⟩ | hab)
                · by_cases hcov : covers path a = true
                  · exact ⟨path, .inl rfl, overlaps_of_covers hcov hab⟩
                  · exact ⟨a, .inr (ExtTreeSet.mem_filter.2 ⟨ha, by simp [hcov]⟩), hab⟩
                · exact ⟨path, .inl rfl, hab⟩
  · have hsame : (set.touch key path).touches k q = set.touches k q := by
      cases path with
      | none => exact touches_of_ne hne q
      | some path =>
        simp only [touch]
        split
        · exact touches_of_ne hne q
        · rfl
        · split
          · rfl
          · exact touches_of_ne hne q
    rw [hsame]
    simp [hne]

end ChangeSet

/-- What a message writes: the namespaces of a checkpoint, one namespace, or a path in one. -/
def Writes (k : NamespaceKey) (q : Option SubkeyPath) : Msg → Prop
  | .init msg => k ∈ msg.state.namespaces
  | .setNamespace msg => msg.key = k
  | .deleteNamespace msg => msg.key = k
  | .setNamespaceKey msg => msg.key = k ∧ Meets (some msg.path) q
  | .amendNamespaceKey msg => msg.key = k ∧ Meets msg.path q

section Record

variable {set : ChangeSet} {k : NamespaceKey} {q : Option SubkeyPath}

theorem touches_record (msg : Msg) : (set.record msg).touches k q = true ↔ set.touches k q = true ∨ Writes k q msg := by
  cases msg with
  | init msg =>
    have hfold : ∀ (l : List NamespaceKey) (set : ChangeSet),
        (l.foldl (fun set key => set.touch key none) set).touches k q = true ↔ set.touches k q = true ∨ k ∈ l := by
      intro l
      induction l with
      | nil => simp
      | cons key l ih =>
        intro set
        rw [List.foldl_cons, ih, ChangeSet.touches_touch, List.mem_cons, or_assoc, eq_comm (a := k)]
        simp [Meets]
    rw [ChangeSet.record, hfold, ExtTreeMap.mem_keys]; rfl
  | setNamespace msg =>
    rw [ChangeSet.record, ChangeSet.touches_touch]
    simp [Writes, Meets]
  | deleteNamespace msg =>
    rw [ChangeSet.record, ChangeSet.touches_touch]
    simp [Writes, Meets]
  | setNamespaceKey msg => exact ChangeSet.touches_touch
  | amendNamespaceKey msg => exact ChangeSet.touches_touch

theorem touches_foldl_record : ∀ (l : List (EnvelopeDigest × Envelope)) (set : ChangeSet),
    (l.foldl (fun set p => set.record p.2.payload) set).touches k q = true ↔
      set.touches k q = true ∨ ∃ p ∈ l, Writes k q p.2.payload
  | [], set => by simp
  | p :: l, set => by
    rw [List.foldl_cons, touches_foldl_record l, touches_record, or_assoc]
    simp

/-- A movement's change set records the messages on both sides, one after the other. -/
theorem changes_movement {m : EnvelopeDigest} {undone made : Branch} :
    (ChangeDiffer.movement m undone made).changes =
      (undone.above m ++ made.above m).foldl (fun set p => set.record p.2.payload) ChangeSet.empty := by
  have hundone : ∀ (l : List (EnvelopeDigest × Envelope)) (v : Movement),
      (l.foldl (fun v p => Movement.mk (v.orphaned.insert p.1) (v.changes.record p.2.payload)) v).changes =
        l.foldl (fun set p => set.record p.2.payload) v.changes := by
    intro l
    induction l with
    | nil => exact fun _ => rfl
    | cons p l ih => exact fun v => ih _
  have hmade : ∀ (l : List (EnvelopeDigest × Envelope)) (v : Movement),
      (l.foldl (fun v p => { v with changes := v.changes.record p.2.payload }) v).changes =
        l.foldl (fun set p => set.record p.2.payload) v.changes := by
    intro l
    induction l with
    | nil => exact fun _ => rfl
    | cons p l ih => exact fun v => ih _
  rw [List.foldl_append]
  refine (hmade _ _).trans ?_
  exact congrArg (fun set => List.foldl _ set (made.above m)) (hundone (undone.above m) Movement.empty)

@[simp] theorem touches_empty : ChangeSet.empty.touches k q = false := by
  simp [ChangeSet.empty, ChangeSet.touches]

/-- A movement touches what the messages on either side of it wrote. -/
theorem touches_movement {m : EnvelopeDigest} {undone made : Branch} :
    (ChangeDiffer.movement m undone made).changes.touches k q = true ↔
      ∃ p ∈ undone.above m ++ made.above m, Writes k q p.2.payload := by
  rw [changes_movement, touches_foldl_record, touches_empty]
  simp

end Record

/-! ## What a message changes -/

/-- What `path` addresses in the namespace `key` of a version. -/
def entryAt (v : Version) (key : NamespaceKey) (path : SubkeyPath) : Option Value :=
  v[key]?.bind fun ns => ns.value.walk path.segments

/-- Whether a message clears an entry of an array and moves one behind it. -/
def shifts (v : Version) : Msg → Bool
  | .setNamespaceKey ⟨_, key, path, none⟩ =>
    match v[key]?.bind fun ns => ns.value.walk path.segments.dropLast, path.segments.getLast path.nonempty with
    | some (.array items), .index i => shiftsEntries items i
    | _, _ => false
  | _ => false

section Frame

variable {v v' : Version} {msg : Msg} {op : NamespaceOp} {k : NamespaceKey}

/-- A message changes no namespace but the one it writes. -/
theorem namespace_of_not_writes (hop : opOf msg = some op) (hu : op.update (E := ApplyError) v = .ok v')
    (hk : ¬ Writes k none msg) : v'[k]? = v[k]? := by
  cases msg with
  | init msg => cases hop
  | setNamespace msg =>
    cases hop; cases hu
    have hne : msg.key ≠ k := hk
    simp [ExtTreeMap.getElem?_insert, hne]
  | deleteNamespace msg =>
    cases hop
    rw [MemStorage.update_delete_eq_ok hu]
    have hne : msg.key ≠ k := hk
    simp [ExtTreeMap.getElem?_erase, hne]
  | setNamespaceKey msg =>
    cases hop
    obtain ⟨ns, w, -, -, rfl⟩ := MemStorage.update_setAt_eq_ok hu
    have hne : msg.key ≠ k := fun h => hk ⟨h, trivial⟩
    simp [ExtTreeMap.getElem?_insert, hne]
  | amendNamespaceKey msg =>
    cases hop
    obtain ⟨ns, w, -, -, rfl⟩ := MemStorage.update_amendAt_eq_ok hu
    have hne : msg.key ≠ k := fun h => hk ⟨h, by cases msg.path <;> trivial⟩
    simp [ExtTreeMap.getElem?_insert, hne]

/-- A message that moves no entries changes nothing off the path it writes. -/
theorem entryAt_of_not_writes {q : SubkeyPath} (hop : opOf msg = some op) (hu : op.update (E := ApplyError) v = .ok v')
    (hshift : shifts v msg = false) (hk : ¬ Writes k (some q) msg) : entryAt v' k q = entryAt v k q := by
  by_cases hns : Writes k none msg
  · cases msg with
    | init msg => cases hop
    | setNamespace msg => exact absurd hns hk
    | deleteNamespace msg => exact absurd hns hk
    | setNamespaceKey msg =>
      cases hop
      obtain ⟨prev, key, path, value⟩ := msg
      obtain ⟨ns, w, hget, hset, rfl⟩ := MemStorage.update_setAt_eq_ok hu
      obtain ⟨rfl, -⟩ := hns
      have hq : ¬ Comparable path.segments q.segments := fun h => hk ⟨rfl, h⟩
      have hsafe : value = none → ∀ items i, ns.value.walk path.segments.dropLast = some (.array items) →
          path.segments.getLast path.nonempty = .index i → shiftsEntries items i = false := by
        rintro rfl items i hwalk hlast
        simpa [shifts, hget, hwalk, hlast] using hshift
      have hwalk := walk_setAt hset hsafe q.segments hq
      simp [entryAt, hget, hwalk]
    | amendNamespaceKey msg =>
      cases hop
      obtain ⟨ns, w, hget, hamend, rfl⟩ := MemStorage.update_amendAt_eq_ok hu
      obtain ⟨rfl, -⟩ := hns
      have hq : ¬ Comparable (segmentsOf msg.path) q.segments := by
        intro h
        refine hk ⟨rfl, ?_⟩
        cases hpath : msg.path with
        | none => trivial
        | some path => rw [hpath] at h; exact h
      have hwalk := walk_amendAt hamend q.segments hq
      simp [entryAt, hget, hwalk]
  · simp only [entryAt, namespace_of_not_writes hop hu hns]

/-- A message that does move entries changes a path it does not write. -/
theorem exists_entryAt_of_shifts (hop : opOf msg = some op) (hu : op.update (E := ApplyError) v = .ok v')
    (hshift : shifts v msg = true) : ∃ k q, ¬ Writes k (some q) msg ∧ entryAt v' k q ≠ entryAt v k q := by
  unfold shifts at hshift
  split at hshift
  case h_2 => cases hshift
  case h_1 prev key path =>
    split at hshift
    case h_2 => cases hshift
    case h_1 items i hitems hlast =>
      cases hop
      obtain ⟨ns, w, hget, hset, rfl⟩ := MemStorage.update_setAt_eq_ok hu
      have hget' : v[key]? = some ns := hget
      rw [hget', Option.bind_some] at hitems
      obtain ⟨q, hne, hq, hdiff⟩ := walk_setAt_shift hset hitems hlast hshift
      refine ⟨key, ⟨q, hne⟩, fun h => hq h.2, ?_⟩
      simpa [entryAt, hget'] using hdiff

end Frame

/-! ## What a movement covers -/

/-- The envelope at `d` moved entries of an array when it was applied to the version of its parent. -/
def Shifts (s : MemStorage) (d : EnvelopeDigest) : Prop :=
  ∃ e p v, s.envelope d = some e ∧ e.prev = some p ∧ s.versions[p]? = some v ∧ shifts v e.payload = true

/-- The movement the differ reports from `h₁` to `h₂` touches every namespace and every path that
differs between their versions. -/
def Covered (s : MemStorage) (h₁ h₂ : EnvelopeDigest) : Prop :=
  ∀ v₁ v₂, s.versions[h₁]? = some v₁ → s.versions[h₂]? = some v₂ →
    (∃ a, s.Held a ∧ Desc s.parent a h₁ ∧ Desc s.parent a h₂) →
      ∃ move, (ChangeDiffer.openedAt h₁).diff s h₂ = .ok move ∧
        (∀ k, v₁[k]? ≠ v₂[k]? → move.changes.touches k none = true) ∧
        ∀ k q, entryAt v₁ k q ≠ entryAt v₂ k q → move.changes.touches k (some q) = true

section Moves

variable [Externals] {W : World} {base : EnvelopeDigest} {s : MemStorage}

/-- What none of the messages on a trail changes is the same at both its ends. -/
theorem Trail.eq_of_frame {α : Type} (f : Version → α) {x : EnvelopeDigest} {l : List (EnvelopeDigest × Envelope)}
    {next : Option EnvelopeDigest} {v : Version} (h : Trail s x l next) (hv : W.StateOf x v)
    (hframe : ∀ y e, (y, e) ∈ l → ∃ p w v, e.prev = some p ∧ W.StateOf p w ∧ W.StateOf y v ∧ f v = f w) :
    ∀ y w, next = some y → W.StateOf y w → f v = f w := by
  induction h with
  | start =>
    intro y w hy hw
    cases hy
    rw [hv.unique hw]
  | @step l y e trail stored ih =>
    intro z w hz hw
    obtain ⟨p, w', u, hp, hw', hu, heq⟩ := hframe y e (List.mem_append_right _ List.mem_cons_self)
    rw [hp] at hz; cases hz
    rw [ih (fun y e hye => hframe y e (List.mem_append_left _ hye)) y u rfl hu, heq, hw'.unique hw]

/-- The envelopes on one of the paths of two heads and not on the other. -/
def OneSide (s : MemStorage) (h₁ h₂ d : EnvelopeDigest) : Prop :=
  (Desc s.parent d h₁ ∧ ¬ Desc s.parent d h₂) ∨ (Desc s.parent d h₂ ∧ ¬ Desc s.parent d h₁)

/-- A movement covers what changed where no envelope on either side of it moved entries. -/
theorem covered_of_not_shifts {h₁ h₂ : EnvelopeDigest} (hco : Coherent W base s) (hfrom : s.HeldFrom base)
    (hno : ∀ d, s.Held d → OneSide s h₁ h₂ d → ¬ Shifts s d) : Covered s h₁ h₂ := by
  intro v₁ v₂ hv₁ hv₂ _
  obtain ⟨hs₁, hstate₁⟩ := hco.versions h₁ v₁ hv₁
  obtain ⟨hs₂, hstate₂⟩ := hco.versions h₂ v₂ hv₂
  have hb₁ := hco.desc hs₁
  have hb₂ := hco.desc hs₂
  obtain ⟨m, undone, made, hdiff, htrail₁, htrail₂, hlast, hundone, hmade⟩ := ChangeDiffer.diff_eq_ok hco.acyclic hb₁ hb₂
  have hbm : Desc s.parent base m := (hlast base).2 ⟨hb₁, hb₂⟩
  obtain ⟨vm, hvm⟩ := hco.exists_state (s.stored_of_desc hco.base_stored hbm)
  -- on either side, every envelope was accepted on a version the store holds
  have hside : ∀ y e, (y, e) ∈ undone.above m ++ made.above m → ∃ p w v, e.prev = some p ∧ W.StateOf p w ∧
      W.StateOf y v ∧ shifts w e.payload = false ∧ ∃ op, opOf e.payload = some op ∧
        op.update (E := ApplyError) w = .ok v := by
    intro y e hye
    have hfst : ∀ {l : List (EnvelopeDigest × Envelope)}, (y, e) ∈ l → y ∈ l.map Prod.fst := List.mem_map_of_mem
    have hwhere : s.envelope y = some e ∧ s.Held y ∧ OneSide s h₁ h₂ y := by
      rcases List.mem_append.1 hye with hye | hye
      · have hone := (hundone y).1 (hfst hye)
        have he := htrail₁.stored _ hye
        exact ⟨he, hfrom.of_desc hco.acyclic (hco.desc ⟨e, he⟩) hone.1 ⟨v₁, hv₁⟩, .inl hone⟩
      · have hone := (hmade y).1 (hfst hye)
        have he := htrail₂.stored _ hye
        exact ⟨he, hfrom.of_desc hco.acyclic (hco.desc ⟨e, he⟩) hone.1 ⟨v₂, hv₂⟩, .inr hone⟩
    obtain ⟨he, hheld, hone⟩ := hwhere
    have hne : y ≠ base := by
      rintro rfl
      rcases hone with ⟨-, h⟩ | ⟨-, h⟩
      · exact h hb₂
      · exact h hb₁
    obtain ⟨p, w, v, hp, hw, hacc⟩ := hco.accepted y e he hne
    have hparent : s.parent y = some p := by rw [s.parent_of_envelope he, hacc.prev]
    obtain ⟨w', hw'⟩ := hfrom y p hheld hne hparent
    obtain rfl := hw.unique (hco.versions p w' hw').2
    obtain ⟨op, hc, hu⟩ := hacc.checked
    have hop := (Ledger.validateMsg_eq_ok (E := ApplyError) (versions_only p w) (Ledger.checked_eq_ok hc).2.2.2.1).1
    refine ⟨p, w, v, hacc.prev, hw, World.StateOf.child hw (hco.content y e he).1 hacc, ?_, op, hop, hu⟩
    rw [← Bool.not_eq_true]
    exact fun hshift => hno y hheld hone ⟨e, p, w, he, hacc.prev, hw', hshift⟩
  -- so whatever neither side touches is at both heads what it is where they part
  have hkeep : ∀ {α : Type} (f : Version → α), (∀ y e, (y, e) ∈ undone.above m ++ made.above m → ∀ w v op,
      opOf e.payload = some op → op.update (E := ApplyError) w = .ok v → shifts w e.payload = false → f v = f w) →
        f v₁ = f v₂ := by
    intro α f hf
    have hframe : ∀ y e, (y, e) ∈ undone.above m ++ made.above m →
        ∃ p w v, e.prev = some p ∧ W.StateOf p w ∧ W.StateOf y v ∧ f v = f w := by
      intro y e hye
      obtain ⟨p, w, v, hp, hw, hv, hshift, op, hop, hu⟩ := hside y e hye
      exact ⟨p, w, v, hp, hw, hv, hf y e hye w v op hop hu hshift⟩
    have hleft := htrail₁.eq_of_frame f hstate₁ (fun y e hye => hframe y e (List.mem_append_left _ hye)) m vm rfl hvm
    have hright := htrail₂.eq_of_frame f hstate₂ (fun y e hye => hframe y e (List.mem_append_right _ hye)) m vm rfl hvm
    exact hleft.trans hright.symm
  refine ⟨_, hdiff, fun k hk => ?_, fun k q hkq => ?_⟩
  · by_contra htouch
    rw [touches_movement] at htouch
    push Not at htouch
    exact hk (hkeep (fun v => v[k]?) fun y e hye w v op hop hu _ => namespace_of_not_writes hop hu (htouch _ hye))
  · by_contra htouch
    rw [touches_movement] at htouch
    push Not at htouch
    exact hkq (hkeep (fun v => entryAt v k q) fun y e hye w v op hop hu hshift =>
      entryAt_of_not_writes hop hu hshift (htouch _ hye))

/-- Moving onto an envelope that moved entries leaves a change out. -/
theorem not_covered_of_shifts {d p : EnvelopeDigest} (hco : Coherent W base s) (hd : s.Held d) (hp : s.parent d = some p)
    (hshift : Shifts s d) : ¬ Covered s p d := by
  obtain ⟨e, p', v, he, hprev, hv, hshift⟩ := hshift
  obtain rfl : p' = p := by
    rw [s.parent_of_envelope he, hprev] at hp; exact Option.some.inj hp
  obtain ⟨w, hw⟩ := hd
  have hps := (hco.versions p' v hv).1
  have hpd : Desc s.parent p' d := Desc.of_child hp
  obtain ⟨m, undone, made, hdiff, htrail₁, htrail₂, -, hundone, hmade⟩ :=
    ChangeDiffer.diff_eq_ok hco.acyclic (hco.desc hps) ((hco.desc hps).trans hpd)
  have honly : ∀ q ∈ undone.above m ++ made.above m, q.2 = e := by
    rintro ⟨y, e'⟩ hye
    rcases List.mem_append.1 hye with hye | hye
    · obtain ⟨hyp, hyd⟩ := (hundone y).1 (List.mem_map_of_mem (f := Prod.fst) hye)
      exact absurd (hyp.trans hpd) hyd
    · obtain ⟨hyd, hyp⟩ := (hmade y).1 (List.mem_map_of_mem (f := Prod.fst) hye)
      have he' := htrail₂.stored _ hye
      by_cases hne : d = y
      · subst hne
        rw [he] at he'; exact (Option.some.inj he').symm
      · exact absurd (hyd.of_parent hne hp) hyp
  have hne : d ≠ base := by
    rintro rfl
    exact hco.not_desc_base hps hp
  obtain ⟨v', hacc, hstate⟩ := hco.accepted_at he hne hprev hv
  obtain rfl := hstate.unique (hco.versions d w hw).2
  obtain ⟨op, hc, hu⟩ := hacc.checked
  have hop := (Ledger.validateMsg_eq_ok (E := ApplyError) (versions_only p' v) (Ledger.checked_eq_ok hc).2.2.2.1).1
  obtain ⟨k, q, hwrites, hdiffer⟩ := exists_entryAt_of_shifts hop hu hshift
  intro hcov
  obtain ⟨move, hmove, -, hpath⟩ := hcov v v' hv hw ⟨p', ⟨v, hv⟩, Desc.refl, hpd⟩
  rw [hdiff] at hmove; cases hmove
  obtain ⟨r, hr, hwrite⟩ := touches_movement.1 (hpath k q (Ne.symm hdiffer))
  rw [honly r hr] at hwrite
  exact hwrites hwrite

/-- Something of a version that no message changes but by writing at `q` in `k`. -/
def Framed {α : Type} (f : Version → α) (k : NamespaceKey) (q : Option SubkeyPath) : Prop :=
  ∀ {msg : Msg} {op : NamespaceOp} {w v : Version}, opOf msg = some op → op.update (E := ApplyError) w = .ok v →
    ¬ Writes k q msg → f v = f w

omit [Externals] in
theorem framed_namespace (k : NamespaceKey) : Framed (fun v => v[k]?) k none := fun hop hu hk => namespace_of_not_writes hop hu hk

/-- A movement between heads that differ in it touches where it is written, whether the log still holds
their versions or not. -/
theorem Coherent.touches_of_ne {α : Type} {f : Version → α} {h₁ h₂ : EnvelopeDigest} {v₁ v₂ : Version} {k : NamespaceKey}
    {q : Option SubkeyPath} {move : Movement} (hco : Coherent W base s) (framed : Framed f k q) (hs₁ : s.Stored h₁)
    (hs₂ : s.Stored h₂) (hv₁ : W.StateOf h₁ v₁) (hv₂ : W.StateOf h₂ v₂) (hne : f v₁ ≠ f v₂)
    (hmove : (ChangeDiffer.openedAt h₁).diff s h₂ = .ok move) : move.changes.touches k q = true := by
  obtain ⟨m, undone, made, hdiff, htrail₁, htrail₂, hlast, hundone, hmade⟩ :=
    ChangeDiffer.diff_eq_ok hco.acyclic (hco.desc hs₁) (hco.desc hs₂)
  rw [hdiff] at hmove
  cases hmove
  have hbm : Desc s.parent base m := (hlast base).2 ⟨hco.desc hs₁, hco.desc hs₂⟩
  obtain ⟨vm, hvm⟩ := hco.exists_state (s.stored_of_desc hco.base_stored hbm)
  by_contra htouch
  rw [touches_movement] at htouch
  push Not at htouch
  -- what neither side writes is the same before and after each message of either
  have hframe : ∀ y e, (y, e) ∈ undone.above m ++ made.above m →
      ∃ p w v, e.prev = some p ∧ W.StateOf p w ∧ W.StateOf y v ∧ f v = f w := by
    intro y e hye
    obtain ⟨he, hside⟩ : s.envelope y = some e ∧ (Desc s.parent y h₁ ∧ ¬ Desc s.parent y h₂ ∨
        Desc s.parent y h₂ ∧ ¬ Desc s.parent y h₁) := by
      rcases List.mem_append.1 hye with hmem | hmem
      · exact ⟨htrail₁.stored _ hmem, .inl ((hundone y).1 (List.mem_map_of_mem hmem))⟩
      · exact ⟨htrail₂.stored _ hmem, .inr ((hmade y).1 (List.mem_map_of_mem hmem))⟩
    have hbase : y ≠ base := by
      rintro rfl
      rcases hside with ⟨-, h⟩ | ⟨-, h⟩
      · exact h (hco.desc hs₂)
      · exact h (hco.desc hs₁)
    obtain ⟨p, w, v, -, hw, hacc⟩ := hco.accepted y e he hbase
    obtain ⟨op, hc, hu⟩ := hacc.checked
    have hop := (Ledger.validateMsg_eq_ok (E := ApplyError) (versions_only p w) (Ledger.checked_eq_ok hc).2.2.2.1).1
    exact ⟨p, w, v, hacc.prev, hw, World.StateOf.child hw (hco.content y e he).1 hacc, framed hop hu (htouch _ hye)⟩
  have hleft := htrail₁.eq_of_frame f hv₁ (fun y e hye => hframe y e (List.mem_append_left _ hye)) m vm rfl hvm
  have hright := htrail₂.eq_of_frame f hv₂ (fun y e hye => hframe y e (List.mem_append_right _ hye)) m vm rfl hvm
  exact hne (hleft.trans hright.symm)

end Moves

/-- Change sets cover what changed between two heads wherever no envelope between them moved entries
of an array behind one it cleared; and they do so for every two heads of a log exactly when no
envelope whose version it holds did. -/
theorem Run.changes_cover_iff [Externals] {contents : Set SignedPortion} (laws : DigestLaws contents) {n : Nat}
    {run : Nat → Chain × MemStorage} (h : Run contents n run) :
    (∀ h₁ h₂, (∀ d, OneSide (run n).2 h₁ h₂ d → ¬ Shifts (run n).2 d) → Covered (run n).2 h₁ h₂) ∧
    ((∀ h₁ h₂, Covered (run n).2 h₁ h₂) ↔ ∀ d, (run n).2.Held d → ¬ Shifts (run n).2 d) := by
  obtain ⟨W, rfl, h0⟩ := h.start.live laws
  obtain ⟨base, hl⟩ := h.live h0 n le_rfl
  refine ⟨fun h₁ h₂ hno => covered_of_not_shifts hl.coherent hl.heldFrom fun d _ => hno d, ?_⟩
  constructor
  · intro hall d hd hshift
    obtain ⟨e, p, v, he, hprev, hrest⟩ := hshift
    have hp : (run n).2.parent d = some p := by rw [MemStorage.parent_of_envelope _ he]; exact hprev
    exact not_covered_of_shifts hl.coherent hd hp ⟨e, p, v, he, hprev, hrest⟩ (hall p d)
  · intro hno h₁ h₂
    exact covered_of_not_shifts hl.coherent hl.heldFrom fun d hd _ => hno d hd

end IrohLotus.State

/-! ## The samples -/

namespace IrohLotus.State

open Std Outcome Forest IrohLotus.Wire IrohLotus.Wire.Sample IrohLotus.Storage

theorem changes_cover_reorgRun :
    Run Sample.contents 2 reorgRun ∧ Covered reorged.2 otherDigest firstDigest := by
  have hmem : other.toSignedPortion ∈ table.map Prod.fst ∧ first.toSignedPortion ∈ table.map Prod.fst := by
    decide +kernel
  have hrun : Run Sample.contents 2 reorgRun := by
    refine ⟨reachable_genesisStore, fun i hi => ?_⟩
    match i with
    | 0 => exact Step.insert (e := other) hmem.1
    | 1 => exact Step.insert (e := first) hmem.2
  have hsets : ∀ x ∈ reorged.2.envelopes.toList, ∀ v, shifts v x.2.envelope.payload = false := by
    have hpayload : ∀ x ∈ reorged.2.envelopes.toList, x.2.envelope.payload = genesis.payload ∨
        x.2.envelope.payload = other.payload ∨ x.2.envelope.payload = first.payload := by
      decide +kernel
    intro x hx v
    rcases hpayload x hx with h | h | h <;> rw [h] <;> rfl
  refine ⟨hrun, (hrun.changes_cover_iff sample_laws).1 _ _ fun d _ hshift => ?_⟩
  obtain ⟨e, p, v, he, -, -, hs⟩ := hshift
  obtain ⟨entry, hentry, rfl⟩ := Option.map_eq_some_iff.1 he
  have hmem' := hsets (d, entry) (ExtTreeMap.mem_toList_iff_getElem?_eq_some.2 hentry) v
  rw [hs] at hmem'; cases hmem'

/-- The store of a chain whose last envelope cleared the first of two entries. -/
def clearedStore : MemStorage := ((Chain.mk genesisDigest ⟨genesisDigest⟩).insertBatch [listed, cleared] genesisStore).2.2

/-- The second entry is gone from its place, and the change set names the first alone. -/
theorem not_covered_clearedStore :
    Reachable Sample.contents ⟨genesisDigest, ⟨clearedDigest⟩⟩ clearedStore ∧
      clearedStore.valueAt (E := Error) listedDigest ⟨"l", by decide⟩ [.index 1] = .ok (some (.string "y")) ∧
      clearedStore.valueAt (E := Error) clearedDigest ⟨"l", by decide⟩ [.index 1] = .ok none ∧
      (∃ move, (ChangeDiffer.openedAt listedDigest).diff clearedStore clearedDigest = .ok move ∧
        move.changes.touches ⟨"l", by decide⟩ (some ⟨[.index 1], by decide⟩) = false) ∧
      ¬ Covered clearedStore listedDigest clearedDigest := by
  have hmem : ∀ e ∈ [listed, cleared], e.toSignedPortion ∈ table.map Prod.fst := by decide +kernel
  have hrun : (Chain.mk genesisDigest ⟨genesisDigest⟩).insertBatch [listed, cleared] genesisStore =
      (.ok .extended, ⟨genesisDigest, ⟨clearedDigest⟩⟩, clearedStore) := by
    decide +kernel
  have hdiff : (ChangeDiffer.openedAt listedDigest).diff clearedStore clearedDigest =
      .ok ⟨∅, ChangeSet.empty.touch ⟨"l", by decide⟩ (some ⟨[.index 0], by decide⟩)⟩ := by
    decide +kernel
  have htouch : (ChangeSet.empty.touch ⟨"l", by decide⟩ (some ⟨[.index 0], by decide⟩)).touches ⟨"l", by decide⟩
      (some ⟨[.index 1], by decide⟩) = false := by
    decide +kernel
  refine ⟨.insertBatch reachable_genesisStore hmem hrun, by decide +kernel, by decide +kernel, ⟨_, hdiff, htouch⟩,
    fun hcov => ?_⟩
  have hv₁ : clearedStore.versions[listedDigest]? =
      some ((∅ : Version).insert ⟨"l", by decide⟩ ⟨.array [.string "x", .string "y"]⟩) := by
    decide +kernel
  have hv₂ : clearedStore.versions[clearedDigest]? =
      some ((∅ : Version).insert ⟨"l", by decide⟩ ⟨.array [.string "y"]⟩) := by
    decide +kernel
  have hchild : clearedStore.parent clearedDigest = some listedDigest := by decide +kernel
  obtain ⟨move, hmove, -, hpath⟩ := hcov _ _ hv₁ hv₂ ⟨listedDigest, ⟨_, hv₁⟩, Desc.refl, Desc.of_child hchild⟩
  rw [hdiff] at hmove; cases hmove
  have htrue := hpath ⟨"l", by decide⟩ ⟨[.index 1], by decide⟩ (by decide +kernel)
  rw [htouch] at htrue; cases htrue

end IrohLotus.State
