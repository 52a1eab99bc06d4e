/-
Renaming an entry of a map from the browser (`App::rename`). The chain has no move: the parent is read,
the value set at the new key, then the old key deleted, each a request of its own that other clients'
writes may come before. The writes ask nothing of what was there, so what a rename keeps of the two keys
is what the states its writes land on allow.
-/
import IrohLotus.Lib.Interleave
import IrohLotus.Lotusd.WeakWrite
import IrohLotus.Lotusweb.Location

namespace IrohLotus.Lotusweb

open Std Outcome Interleave IrohLotus.Wire IrohLotus.Storage IrohLotus.State IrohLotus.Lotusd

/-! ## Locations beside each other -/

namespace Location

/-- The namespace, then the path as `lotusctl` writes one (`Display`). -/
def display (location : Location) : String :=
  match location.path with
  | none => location.key.name
  | some path => location.key.name ++ " › " ++ path.display

def segments (location : Location) : List Subkey := segmentsOf location.path

/-- One level down, at `subkey`. -/
def child (location : Location) (subkey : Subkey) : Location :=
  ⟨location.key, some ⟨location.segments ++ [subkey], List.concat_ne_nil _ _⟩⟩

/-- One level up; none at a namespace's root. -/
def parent (location : Location) : Option Location :=
  if location.segments = [] then none
  else if h : location.segments.dropLast = [] then some ⟨location.key, none⟩
  else some ⟨location.key, some ⟨location.segments.dropLast, h⟩⟩

/-- The key this is held under, when the last step here is into a map. -/
def mapKey (location : Location) : Option String :=
  match location.segments.getLast? with
  | some (.key name) => some name
  | _ => none

end Location

/-! ## The model -/

/-- How a request to the daemon goes: it is answered, it is served and the answer is lost, or it never
gets there. -/
inductive Reach where
  | answered
  | unanswered
  | dropped
deriving DecidableEq

/-- Why a rename failed. -/
inductive RenameError where
  | invalid (text : String)
  | refused (reason : State.Error)
  | daemon
  | halfway (done : String) (source : RenameError)

/-- What is still to be done. -/
inductive Phase where
  | reading
  | setting (to' : Location) (value : Value)
  | deleting (to' : Location)
  | ended (outcome : Res RenameError Location)

/-- The daemon's core, and the rename. -/
structure Session where
  core : Core
  phase : Phase

variable (keys : NodeKeys) (location : Location) (key : String)

/-- What is checked before anything is asked: the key the entry is held under, and the map it is in. -/
def checkRename : Res RenameError (String × Location) := do
  let held ← Res.okOr location.mapKey (.invalid (location.display ++ " is not a map entry"))
  if key = "" then Res.fail (.invalid "a key cannot be empty")
  if key = held then Res.fail (.invalid (location.display ++ " is already named `" ++ key ++ "`"))
  let parent ← Res.expect location.parent "a map entry has a parent"
  pure (held, parent)

/-- What is made of the map that was read: where the value goes, and the value. -/
def pick (held : String) (parent : Location) : Option Value → Res RenameError (Location × Value)
  | some (.map fields) => do
    let to' := parent.child (.key key)
    if (Entries.get fields key).isSome then Res.fail (.invalid (to'.display ++ " already exists"))
    let value ← Res.okOr (Entries.get fields held) (.invalid ("nothing is held at " ++ location.display))
    pure (to', value)
  | _ => Res.fail (.invalid (parent.display ++ " is not a map"))

/-- The first step: the parent is read. -/
def readParent (core : Core) (reach : Reach) : Res RenameError (Location × Value) := do
  let (held, parent) ← checkRename location key
  if reach ≠ .answered then Res.fail .daemon
  let (_, found) ← core.read parent.key parent.path
  pick location key held parent found

variable [Externals]

/-- A write asked of the daemon, and what the client hears of it. -/
def request (core : Core) (reach : Reach) (write : WeakWrite) : Res RenameError Unit × Core :=
  match reach with
  | .answered => (Res.mapErr .refused ((core.weakWrite keys write).1.map fun _ => ()), (core.weakWrite keys write).2)
  | .unanswered => (Res.fail .daemon, (core.weakWrite keys write).2)
  | .dropped => (Res.fail .daemon, core)

/-- The next step of the rename. -/
def rename (σ : Session) (reach : Reach) : Session :=
  match σ.phase with
  | .reading =>
    match readParent location key σ.core reach with
    | .ok (to', value) => { σ with phase := .setting to' value }
    | .error e => { σ with phase := .ended (.error e) }
  | .setting to' value =>
    match request keys σ.core reach (.set to'.key to'.path value) with
    | (.ok (), core) => ⟨core, .deleting to'⟩
    | (.error e, core) => ⟨core, .ended (.error e)⟩
  | .deleting to' =>
    match request keys σ.core reach (.delete location.key location.path) with
    | (.ok (), core) => ⟨core, .ended (.ok to')⟩
    | (.error e, core) =>
      ⟨core, .ended (Res.mapErr (.halfway ("copied " ++ location.display ++ " to " ++ to'.display)) (.error e))⟩
  | .ended _ => σ

/-- What happens next: a step of the rename, another client's write, or envelopes from another node. -/
inductive Event where
  | rename (reach : Reach)
  | other (write : WeakWrite)
  | synced (envelopes : List Envelope)

def step (σ : Session) : Event → Session
  | .rename reach => Lotusweb.rename keys location key σ reach
  | .other write => { σ with core := (σ.core.weakWrite keys write).2 }
  | .synced envelopes => { σ with core := (σ.core.insert envelopes).2 }

/-- Not the rename's own. -/
def Event.Foreign : Event → Prop
  | .rename _ => False
  | .other _ | .synced _ => True

/-! ## What can be read -/

/-- What a client that reads now finds at a location. -/
def held (core : Core) (location : Location) : Option Value :=
  (core.read (E := Empty) location.key location.path).toOption.bind Prod.snd

/-- The entry of a map under a name. -/
def entryOf (namespaceKey : NamespaceKey) (parents : List Subkey) (name : String) : Location :=
  ⟨namespaceKey, some ⟨parents ++ [.key name], List.concat_ne_nil _ _⟩⟩

/-- The new key, beside the old. -/
def Location.beside (location : Location) (key : String) : Location := entryOf location.key location.segments.dropLast key

/-- The rename has read the parent. -/
def Phase.HasRead : Phase → Prop
  | .reading => False
  | .setting _ _ | .deleting _ | .ended _ => True

instance : DecidablePred Phase.HasRead
  | .reading => isFalse id
  | .setting _ _ | .deleting _ | .ended _ => isTrue trivial

/-- The value is at one of the two keys, after the rename's read. -/
def Readable (σ : Session) (x : Value) : Prop :=
  σ.phase.HasRead ∧ (held σ.core location = some x ∨ held σ.core (location.beside key) = some x)

/-- The chain accepts the write. -/
def Accepted (core : Core) (write : WeakWrite) : Prop := ∃ written, (core.weakWrite keys write).1 = .ok written

/-- Where the next step of the rename takes nothing away. When the set is accepted, what the new key holds is
the value set, or at the old key as well; when the delete is, what the old key holds is at the new key. -/
def Safe (σ : Session) (reach : Reach) : Prop :=
  reach ≠ .dropped → match σ.phase with
    | .setting to' value => Accepted keys σ.core (.set to'.key to'.path value) →
      ∀ x, held σ.core (location.beside key) = some x → x = value ∨ held σ.core location = some x
    | .deleting _ => Accepted keys σ.core (.delete location.key location.path) →
      ∀ x, held σ.core location = some x → held σ.core (location.beside key) = some x
    | .reading | .ended _ => True

/-- The new key is that beside the old, in the same map. -/
def Phase.Formed (location : Location) (key : String) : Phase → Prop
  | .setting to' _ | .deleting to' => to' = location.beside key ∧
    ∃ parents name, location = entryOf location.key parents name ∧ name ≠ key
  | .reading | .ended _ => True

/-! ## The read -/

omit [Externals] in
theorem segments_entryOf (namespaceKey : NamespaceKey) (parents : List Subkey) (name : String) :
    (entryOf namespaceKey parents name).segments = parents ++ [.key name] := rfl

omit [Externals] in
theorem beside_entryOf (namespaceKey : NamespaceKey) (parents : List Subkey) (name : String) :
    (entryOf namespaceKey parents name).beside key = entryOf namespaceKey parents key := by
  unfold Location.beside
  rw [segments_entryOf, List.dropLast_concat]
  rfl

omit [Externals] in
theorem entryOf_of_mapKey {location : Location} {name : String} (h : location.mapKey = some name) :
    location = entryOf location.key location.segments.dropLast name := by
  unfold Location.mapKey at h
  split at h
  · rename_i last hlast
    cases h
    have hsplit : location.segments.dropLast ++ [.key name] = location.segments := List.dropLast_append_getLast? _ hlast
    obtain ⟨namespaceKey, path⟩ := location
    cases path with
    | none => cases hlast
    | some path =>
      unfold entryOf
      simp only [hsplit]
      rfl
  · cases h

omit [Externals] in
theorem parent_eq_some {location parent : Location} (h : location.parent = some parent) :
    parent.key = location.key ∧ parent.segments = location.segments.dropLast := by
  unfold Location.parent at h
  split at h
  · cases h
  · split at h
    · rename_i hdrop
      cases h
      exact ⟨rfl, hdrop.symm⟩
    · cases h
      exact ⟨rfl, rfl⟩

omit [Externals] in
/-- What passes the first checks is an entry of the map that is read, to be held under another name. -/
theorem checkRename_eq_ok {location parent : Location} {key name : String} (h : checkRename location key = .ok (name, parent)) :
    location = entryOf location.key parent.segments name ∧ name ≠ key ∧ parent.key = location.key ∧
      parent.child (.key key) = location.beside key := by
  unfold checkRename at h
  obtain ⟨held, hheld, h⟩ := Res.bind_eq_ok h
  have hmap := Res.okOr_eq_ok hheld
  by_cases hempty : key = ""
  · rw [if_pos hempty] at h
    cases h
  by_cases hsame : key = held
  · rw [if_neg hempty, if_pos hsame] at h
    cases h
  · rw [if_neg hempty, if_neg hsame] at h
    obtain ⟨above, habove, h⟩ := Res.bind_eq_ok h
    cases h
    obtain ⟨hkey, hsegments⟩ := parent_eq_some (Res.expect_eq_ok habove)
    refine ⟨?_, fun heq => hsame heq.symm, hkey, ?_⟩
    · rw [hsegments]
      exact entryOf_of_mapKey hmap
    · unfold Location.child Location.beside entryOf
      simp only [hkey, hsegments]

omit [Externals] in
/-- A read off the version the core stands at. -/
theorem held_eq {core : Core} {v : Version} (hv : core.storage.versions[core.head]? = some v) (location : Location) :
    held core location = valueIn v location.key location.segments := by
  unfold held
  rw [Core.read_eq hv]
  rfl

omit [Externals] in
theorem valueIn_key {v : Version} {namespaceKey : NamespaceKey} {parents : List Subkey} {fields : Entries Value}
    (h : valueIn v namespaceKey parents = some (.map fields)) (name : String) :
    valueIn v namespaceKey (parents ++ [.key name]) = Entries.get fields name := by
  obtain ⟨ns, hns, hwalk⟩ := Option.bind_eq_some_iff.1 h
  unfold valueIn
  rw [hns, Option.bind_some, Value.walk_append, hwalk, Option.bind_some, walk_key]
  rfl

omit [Externals] in
/-- What was read is a map with the value at the old key and nothing at the new one. -/
theorem readParent_eq_ok {core : Core} {v : Version} (hv : core.storage.versions[core.head]? = some v) {location to' : Location}
    {key : String} {reach : Reach} {value : Value} (h : readParent location key core reach = .ok (to', value)) :
    (Phase.setting to' value).Formed location key ∧ held core location = some value ∧ held core (location.beside key) = none := by
  unfold readParent at h
  obtain ⟨⟨name, parent⟩, hcheck, h⟩ := Res.bind_eq_ok h
  obtain ⟨hlocation, hne, hkey, hto⟩ := checkRename_eq_ok hcheck
  dsimp only at h
  by_cases hreach : reach ≠ .answered
  · rw [if_pos hreach] at h
    cases h
  · rw [if_neg hreach, Core.read_eq hv, Res.ok_bind] at h
    cases hfound : valueIn v parent.key parent.segments with
    | none =>
      rw [Location.segments] at hfound
      rw [hfound] at h
      cases h
    | some found =>
      have hparent := hfound
      rw [Location.segments] at hfound
      rw [hfound] at h
      cases found <;> try cases h
      case map fields =>
        unfold pick at h
        dsimp only at h
        by_cases hsome : (Entries.get fields key).isSome
        · rw [if_pos hsome] at h
          cases h
        · rw [if_neg hsome] at h
          obtain ⟨value', hvalue, h⟩ := Res.bind_eq_ok h
          cases h
          rw [hkey] at hparent
          refine ⟨⟨hto, parent.segments, name, hlocation, hne⟩, ?_, ?_⟩
          · rw [held_eq hv, hlocation]
            exact (valueIn_key hparent name).trans (Res.okOr_eq_ok hvalue)
          · rw [hlocation, beside_entryOf, held_eq hv]
            refine (valueIn_key hparent key).trans ?_
            rwa [Bool.not_eq_true, Option.isSome_eq_false_iff, Option.isNone_iff_eq_none] at hsome

/-! ## One write -/

variable {keys location key}

section Write

variable {contents : Set SignedPortion} {core : Core}

/-- A write at one entry of a map is refused and changes nothing, or leaves there what it says and the
other entries alone. -/
theorem weakWrite_cases (laws : DigestLaws contents) (reachable : Reachable contents core.chain core.storage)
    (content : ∀ msg e, keys.sign (Envelope.new msg) = .ok e → e.toSignedPortion ∈ contents) {write : WeakWrite}
    {namespaceKey : NamespaceKey} {parents : List Subkey} {name : String} {value : Option Value}
    (hwrite : ∀ prev, write.message prev =
      .setNamespaceKey ⟨prev, namespaceKey, ⟨parents ++ [.key name], List.concat_ne_nil _ _⟩, value⟩) :
    (∃ err, core.weakWrite keys write = (.error (.error err), core)) ∨
    ∃ written core', core.weakWrite keys write = (.ok written, core') ∧
      ∀ other, held core' (entryOf namespaceKey parents other) =
        if name = other then value else held core (entryOf namespaceKey parents other) := by
  obtain ⟨W, rfl, hgood⟩ := reachable.good laws
  obtain ⟨v, hv, ⟨err, hrefused, -⟩ | ⟨e, d, v', i, core', hlands, hrun, hhead, -, hv', -⟩⟩ :=
    Core.signWrite_cases hgood (fun prev => write.message prev) (write.prevDigest_message _) (fun e he => content _ e he)
  · exact .inl ⟨err, hrefused⟩
  · have hpasses := hlands.passes
    rw [hwrite] at hpasses
    refine .inr ⟨(d, i), core', hrun, fun other => ?_⟩
    rw [held_eq (hhead.symm ▸ hv'), held_eq hv]
    exact valueIn_of_passes rfl hpasses other

end Write

/-! ## One step -/

section Step

variable {contents : Set SignedPortion} {σ : Session}

/-- The core a request leaves. -/
def served (keys : NodeKeys) (core : Core) (reach : Reach) (write : WeakWrite) : Core :=
  if reach = .dropped then core else (core.weakWrite keys write).2

theorem request_snd (core : Core) (reach : Reach) (write : WeakWrite) :
    (request keys core reach write).2 = served keys core reach write := by
  cases reach <;> rfl

theorem rename_setting {to' : Location} {value : Value} {reach : Reach} (h : σ.phase = .setting to' value) :
    (rename keys location key σ reach).core = served keys σ.core reach (.set to'.key to'.path value) ∧
      (rename keys location key σ reach).phase.HasRead := by
  unfold rename
  rw [h, ← request_snd]
  dsimp only
  rcases request keys σ.core reach (.set to'.key to'.path value) with ⟨e | _, core⟩
  · exact ⟨rfl, trivial⟩
  · exact ⟨rfl, trivial⟩

theorem rename_deleting {to' : Location} {reach : Reach} (h : σ.phase = .deleting to') :
    (rename keys location key σ reach).core = served keys σ.core reach (.delete location.key location.path) ∧
      (rename keys location key σ reach).phase.HasRead := by
  unfold rename
  rw [h, ← request_snd]
  dsimp only
  rcases request keys σ.core reach (.delete location.key location.path) with ⟨e | _, core⟩
  · exact ⟨rfl, trivial⟩
  · exact ⟨rfl, trivial⟩

/-- A request that lands leaves what its write says, and any other the core as it was. -/
theorem served_cases (laws : DigestLaws contents) (reachable : Reachable contents σ.core.chain σ.core.storage)
    (content : ∀ msg e, keys.sign (Envelope.new msg) = .ok e → e.toSignedPortion ∈ contents) (reach : Reach) {write : WeakWrite}
    {namespaceKey : NamespaceKey} {parents : List Subkey} {name : String} {value : Option Value}
    (hwrite : ∀ prev, write.message prev =
      .setNamespaceKey ⟨prev, namespaceKey, ⟨parents ++ [.key name], List.concat_ne_nil _ _⟩, value⟩) :
    (served keys σ.core reach write = σ.core ∧ (reach ≠ .dropped → ¬ Accepted keys σ.core write)) ∨
    (reach ≠ .dropped ∧ Accepted keys σ.core write ∧ ∀ other, held (served keys σ.core reach write) (entryOf namespaceKey parents other) =
      if name = other then value else held σ.core (entryOf namespaceKey parents other)) := by
  unfold served
  by_cases hreach : reach = .dropped
  · exact .inl ⟨if_pos hreach, fun hne => absurd hreach hne⟩
  · rw [if_neg hreach]
    rcases weakWrite_cases laws reachable content hwrite with ⟨err, hrun⟩ | ⟨written, core', hrun, hheld⟩
    · refine .inl ⟨by rw [hrun], fun _ ⟨written, haccepted⟩ => ?_⟩
      rw [hrun] at haccepted
      cases haccepted
    · refine .inr ⟨hreach, ⟨written, by rw [hrun]⟩, fun other => ?_⟩
      rw [hrun]
      exact hheld other

/-- A step of the rename takes nothing away exactly where it is safe. -/
theorem keeps_rename_iff (laws : DigestLaws contents) (reachable : Reachable contents σ.core.chain σ.core.storage)
    (content : ∀ msg e, keys.sign (Envelope.new msg) = .ok e → e.toSignedPortion ∈ contents)
    (hformed : σ.phase.Formed location key) (reach : Reach) :
    Interleave.Keeps (step keys location key) (Readable location key) σ (.rename reach) ↔ Safe keys location key σ reach := by
  have hstep : step keys location key σ (.rename reach) = rename keys location key σ reach := rfl
  unfold Interleave.Keeps Readable Safe
  rw [hstep]
  cases hphase : σ.phase with
  | reading => exact ⟨fun _ _ => trivial, fun _ x hx => absurd hx.1 id⟩
  | ended outcome =>
    have hsame : rename keys location key σ reach = σ := by
      unfold rename
      rw [hphase]
    rw [hsame, hphase]
    exact ⟨fun _ _ => trivial, fun _ x hx => hx⟩
  | setting to' value =>
    rw [hphase] at hformed
    obtain ⟨rfl, parents, name, hlocation, hne⟩ := hformed
    obtain ⟨hcore, hread⟩ := @rename_setting keys location key _ σ _ _ reach hphase
    rw [hcore]
    generalize location.key = namespaceKey at hlocation
    subst hlocation
    rw [beside_entryOf]
    have hwrite : ∀ prev, (WeakWrite.set (entryOf namespaceKey parents key).key (entryOf namespaceKey parents key).path value).message prev =
        .setNamespaceKey ⟨prev, namespaceKey, ⟨parents ++ [.key key], List.concat_ne_nil _ _⟩, some value⟩ := fun _ => rfl
    rcases served_cases laws reachable content reach hwrite with ⟨hsame, hrefused⟩ | ⟨hreach, haccepted, hheld⟩
    · rw [hsame]
      exact ⟨fun _ hreach haccepted => absurd haccepted (hrefused hreach), fun _ x hx => ⟨hread, hx.2⟩⟩
    · rw [hheld, hheld, if_pos rfl, if_neg (Ne.symm hne)]
      constructor
      · intro h _ _ x hx
        obtain ⟨-, hx | hx⟩ := h x ⟨trivial, .inr hx⟩
        · exact .inr hx
        · exact .inl (Option.some.inj hx).symm
      · rintro h x ⟨-, hx | hx⟩
        · exact ⟨hread, .inl hx⟩
        · rcases h hreach haccepted x hx with rfl | hold
          · exact ⟨hread, .inr rfl⟩
          · exact ⟨hread, .inl hold⟩
  | deleting to' =>
    rw [hphase] at hformed
    obtain ⟨rfl, parents, name, hlocation, hne⟩ := hformed
    obtain ⟨hcore, hread⟩ := @rename_deleting keys location key _ σ _ reach hphase
    rw [hcore]
    generalize location.key = namespaceKey at hlocation
    subst hlocation
    rw [beside_entryOf]
    have hwrite : ∀ prev, (WeakWrite.delete namespaceKey (entryOf namespaceKey parents name).path).message prev =
        .setNamespaceKey ⟨prev, namespaceKey, ⟨parents ++ [.key name], List.concat_ne_nil _ _⟩, none⟩ := fun _ => rfl
    rcases served_cases laws reachable content reach hwrite with ⟨hsame, hrefused⟩ | ⟨hreach, haccepted, hheld⟩
    · rw [hsame]
      exact ⟨fun _ hreach haccepted => absurd haccepted (hrefused hreach), fun _ x hx => ⟨hread, hx.2⟩⟩
    · rw [hheld, hheld, if_pos rfl, if_neg hne]
      constructor
      · intro h _ _ x hx
        obtain ⟨-, hx | hx⟩ := h x ⟨trivial, .inl hx⟩
        · cases hx
        · exact hx
      · rintro h x ⟨-, hx | hx⟩
        · exact ⟨hread, .inr (h hreach haccepted x hx)⟩
        · exact ⟨hread, .inr hx⟩

end Step

/-! ## Every run -/

section Run

variable {contents : Set SignedPortion} {core : Core} {σ : Session}

/-- What holds of the session at every step. -/
structure Sound (contents : Set SignedPortion) (location : Location) (key : String) (σ : Session) : Prop where
  reachable : Reachable contents σ.core.chain σ.core.storage
  formed : σ.phase.Formed location key

/-- The envelopes from other nodes are among the contents. -/
def Event.Within (contents : Set SignedPortion) : Event → Prop
  | .synced envelopes => ∀ e ∈ envelopes, e.toSignedPortion ∈ contents
  | .rename _ | .other _ => True

theorem exists_version (laws : DigestLaws contents) (reachable : Reachable contents core.chain core.storage) :
    ∃ v, core.storage.versions[core.head]? = some v := by
  obtain ⟨W, -, hgood⟩ := reachable.good laws
  exact hgood.pathHeld _ hgood.tip.canonical

theorem served_reachable (reachable : Reachable contents core.chain core.storage)
    (content : ∀ msg e, keys.sign (Envelope.new msg) = .ok e → e.toSignedPortion ∈ contents) (reach : Reach) (write : WeakWrite) :
    Reachable contents (served keys core reach write).chain (served keys core reach write).storage := by
  unfold served
  split
  · exact reachable
  · exact Core.signWrite_reachable reachable content _

theorem Sound.step (laws : DigestLaws contents)
    (content : ∀ msg e, keys.sign (Envelope.new msg) = .ok e → e.toSignedPortion ∈ contents) (h : Sound contents location key σ)
    {e : Event} (hwithin : e.Within contents) : Sound contents location key (step keys location key σ e) := by
  cases e with
  | other write => exact ⟨Core.signWrite_reachable h.reachable content _, h.formed⟩
  | synced envelopes => exact ⟨Core.insert_reachable h.reachable hwithin, h.formed⟩
  | rename reach =>
    have hstep : Lotusweb.step keys location key σ (.rename reach) = rename keys location key σ reach := rfl
    rw [hstep]
    cases hphase : σ.phase with
    | reading =>
      obtain ⟨v, hv⟩ := exists_version laws h.reachable
      unfold rename
      rw [hphase]
      dsimp only
      cases hread : readParent location key σ.core reach with
      | error e => exact ⟨h.reachable, trivial⟩
      | ok picked => exact ⟨h.reachable, (readParent_eq_ok hv hread).1⟩
    | setting to' value =>
      have hformed := h.formed
      rw [hphase] at hformed
      refine ⟨?_, ?_⟩
      · rw [(rename_setting hphase).1]
        exact served_reachable h.reachable content reach _
      · unfold rename
        rw [hphase]
        dsimp only
        rcases request keys σ.core reach (.set to'.key to'.path value) with ⟨e | _, core⟩
        · trivial
        · exact hformed
    | deleting to' =>
      refine ⟨?_, ?_⟩
      · rw [(rename_deleting hphase).1]
        exact served_reachable h.reachable content reach _
      · unfold rename
        rw [hphase]
        dsimp only
        rcases request keys σ.core reach (.delete location.key location.path) with ⟨e | _, core⟩ <;> trivial
    | ended outcome =>
      unfold rename
      rw [hphase]
      exact h

theorem Sound.run (laws : DigestLaws contents)
    (content : ∀ msg e, keys.sign (Envelope.new msg) = .ok e → e.toSignedPortion ∈ contents) :
    ∀ {events : List Event} {σ : Session}, Sound contents location key σ → (∀ e ∈ events, e.Within contents) →
      Sound contents location key (events.foldl (Lotusweb.step keys location key) σ)
  | [], _, h, _ => h
  | e :: events, σ, h, hwithin => by
    have hnext := h.step laws content (hwithin e List.mem_cons_self)
    have hrun : Sound contents location key (events.foldl (Lotusweb.step keys location key) (Lotusweb.step keys location key σ e)) :=
      Sound.run laws content hnext fun e' he' => hwithin e' (List.mem_cons_of_mem _ he')
    exact hrun

/-- The value is still where the rename read it, then at both keys. -/
def Copied (location : Location) (key : String) (σ : Session) : Prop :=
  match σ.phase with
  | .setting _ value => held σ.core location = some value ∧ held σ.core (location.beside key) = none
  | .deleting _ => held σ.core location = held σ.core (location.beside key)
  | .reading | .ended _ => True

theorem Copied.safe (h : Copied location key σ) (reach : Reach) : Safe keys location key σ reach := by
  intro _
  unfold Copied at h
  cases hphase : σ.phase with
  | reading => trivial
  | ended outcome => trivial
  | setting to' value =>
    rw [hphase] at h
    intro _ x hx
    rw [h.2] at hx
    cases hx
  | deleting to' =>
    rw [hphase] at h
    intro _ x hx
    exact h.symm.trans hx

/-- Another party's step after the read leaves both keys as they are. -/
def Quiet (keys : NodeKeys) (location : Location) (key : String) (σ : Session) (e : Event) : Prop :=
  e.Foreign → σ.phase.HasRead → held (step keys location key σ e).core location = held σ.core location ∧
    held (step keys location key σ e).core (location.beside key) = held σ.core (location.beside key)

theorem accepted_of_request {reach : Reach} {write : WeakWrite} (h : (request keys core reach write).1 = .ok ()) :
    reach ≠ .dropped ∧ Accepted keys core write := by
  cases reach with
  | answered =>
    refine ⟨fun hdropped => (by cases hdropped), ?_⟩
    have hok := Res.mapErr_eq_ok h
    cases hwrite : (core.weakWrite keys write).1 with
    | error e =>
      rw [hwrite] at hok
      cases hok
    | ok written => exact ⟨written, hwrite⟩
  | unanswered => cases h
  | dropped => cases h

theorem Copied.step (laws : DigestLaws contents)
    (content : ∀ msg e, keys.sign (Envelope.new msg) = .ok e → e.toSignedPortion ∈ contents) (hsound : Sound contents location key σ)
    (h : Copied location key σ) {e : Event} (quiet : Quiet keys location key σ e) :
    Copied location key (Lotusweb.step keys location key σ e) := by
  have hforeign : e.Foreign → Copied location key (Lotusweb.step keys location key σ e) := by
    intro he
    have hphase : (Lotusweb.step keys location key σ e).phase = σ.phase := by
      cases e with
      | rename reach => exact he.elim
      | other write => rfl
      | synced envelopes => rfl
    unfold Copied at h ⊢
    rw [hphase]
    cases hσ : σ.phase with
    | reading => trivial
    | ended outcome => trivial
    | setting to' value =>
      obtain ⟨hold, hnew⟩ := quiet he (hσ ▸ trivial)
      rw [hσ] at h
      dsimp only
      rw [hold, hnew]
      exact h
    | deleting to' =>
      obtain ⟨hold, hnew⟩ := quiet he (hσ ▸ trivial)
      rw [hσ] at h
      dsimp only
      rw [hold, hnew]
      exact h
  cases e with
  | other write => exact hforeign trivial
  | synced envelopes => exact hforeign trivial
  | rename reach =>
    have hstep : Lotusweb.step keys location key σ (.rename reach) = rename keys location key σ reach := rfl
    rw [hstep]
    unfold Copied at h
    cases hphase : σ.phase with
    | reading =>
      obtain ⟨v, hv⟩ := exists_version laws hsound.reachable
      unfold rename
      rw [hphase]
      dsimp only
      cases hread : readParent location key σ.core reach with
      | error e => trivial
      | ok picked => exact (readParent_eq_ok hv hread).2
    | setting to' value =>
      have hformed := hsound.formed
      rw [hphase] at h hformed
      obtain ⟨rfl, parents, name, hlocation, hne⟩ := hformed
      unfold rename
      rw [hphase]
      dsimp only
      rcases hrequest : request keys σ.core reach (.set (location.beside key).key (location.beside key).path value) with ⟨e | _, core⟩
      · trivial
      · -- the set has landed: the value is at both keys
        obtain ⟨hreach, haccepted⟩ := accepted_of_request (congrArg Prod.fst hrequest)
        have hcore : served keys σ.core reach (.set (location.beside key).key (location.beside key).path value) = core := by
          rw [← request_snd, hrequest]
        generalize location.key = namespaceKey at hlocation
        subst hlocation
        rw [beside_entryOf] at hcore haccepted h
        have hwrite : ∀ prev, (WeakWrite.set (entryOf namespaceKey parents key).key (entryOf namespaceKey parents key).path value).message
            prev = .setNamespaceKey ⟨prev, namespaceKey, ⟨parents ++ [.key key], List.concat_ne_nil _ _⟩, some value⟩ := fun _ => rfl
        rcases served_cases laws hsound.reachable content reach hwrite with ⟨-, hrefused⟩ | ⟨-, -, hheld⟩
        · exact absurd haccepted (hrefused hreach)
        · rw [hcore] at hheld
          show held core (entryOf namespaceKey parents name) = held core ((entryOf namespaceKey parents name).beside key)
          rw [beside_entryOf, hheld, hheld, if_pos rfl, if_neg (Ne.symm hne)]
          exact h.1
    | deleting to' =>
      unfold rename
      rw [hphase]
      dsimp only
      rcases request keys σ.core reach (.delete location.key location.path) with ⟨e | _, core⟩ <;> trivial
    | ended outcome =>
      unfold rename
      rw [hphase]
      unfold Copied
      rw [hphase]
      trivial

/-- Every session of a run from the start of a rename is sound, and copies if the others leave the keys
alone. -/
theorem copied_run (laws : DigestLaws contents)
    (content : ∀ msg e, keys.sign (Envelope.new msg) = .ok e → e.toSignedPortion ∈ contents) :
    ∀ {events : List Event} {σ : Session}, Sound contents location key σ → Copied location key σ →
      (∀ e ∈ events, e.Within contents) →
      (∀ before e after, events = before ++ e :: after → Quiet keys location key (before.foldl (Lotusweb.step keys location key) σ) e) →
      Copied location key (events.foldl (Lotusweb.step keys location key) σ)
  | [], _, _, h, _, _ => h
  | e :: events, σ, hsound, h, hwithin, hquiet => by
    have he := hwithin e List.mem_cons_self
    have hnext := h.step laws content hsound (hquiet [] e events rfl)
    have hrun : Copied location key (events.foldl (Lotusweb.step keys location key) (Lotusweb.step keys location key σ e)) := by
      refine copied_run laws content (hsound.step laws content he) hnext (fun e' he' => hwithin e' (List.mem_cons_of_mem _ he')) ?_
      intro before e' after hsplit
      exact hquiet (e :: before) e' after (by rw [hsplit, List.cons_append])
    exact hrun

/-- What a rename loses. Whatever fails and whoever writes in between, a value at one of the two keys after
the read, the renamed one among them, is at one of them until another party takes it away, exactly in the
runs whose every step of the rename is safe where it lands; and so in every run in which the others leave
the two keys as they are once the rename has read. -/
theorem rename_losesNothing_iff (laws : DigestLaws contents) (reachable : Reachable contents core.chain core.storage)
    (content : ∀ msg e, keys.sign (Envelope.new msg) = .ok e → e.toSignedPortion ∈ contents) {events : List Event}
    (hwithin : ∀ e ∈ events, e.Within contents) :
    (LosesNothing (step keys location key) Event.Foreign (Readable location key) ⟨core, .reading⟩ events ↔
      ∀ before reach after, events = before ++ .rename reach :: after →
        Safe keys location key (before.foldl (step keys location key) ⟨core, .reading⟩) reach) ∧
    ((∀ before e after, events = before ++ e :: after →
        Quiet keys location key (before.foldl (step keys location key) ⟨core, .reading⟩) e) →
      LosesNothing (step keys location key) Event.Foreign (Readable location key) ⟨core, .reading⟩ events) ∧
    ∀ before reach after to' value, events = before ++ .rename reach :: after →
      (before.foldl (step keys location key) ⟨core, .reading⟩).phase = .reading →
      (rename keys location key (before.foldl (step keys location key) ⟨core, .reading⟩) reach).phase = .setting to' value →
      Readable location key (rename keys location key (before.foldl (step keys location key) ⟨core, .reading⟩) reach) value := by
  have hstart : Sound contents location key ⟨core, .reading⟩ := ⟨reachable, trivial⟩
  have hsound : ∀ before e after, events = before ++ e :: after →
      Sound contents location key (before.foldl (step keys location key) ⟨core, .reading⟩) := by
    intro before e after hsplit
    refine Sound.run laws content hstart fun e' he' => hwithin e' ?_
    rw [hsplit]
    exact List.mem_append_left _ he'
  have hiff : LosesNothing (step keys location key) Event.Foreign (Readable location key) ⟨core, .reading⟩ events ↔
      ∀ before reach after, events = before ++ .rename reach :: after →
        Safe keys location key (before.foldl (step keys location key) ⟨core, .reading⟩) reach := by
    rw [losesNothing_iff]
    constructor
    · intro h before reach after hsplit
      have hs := hsound before (.rename reach) after hsplit
      exact (keeps_rename_iff laws hs.reachable content hs.formed reach).1 (h before _ after hsplit id)
    · intro h before e after hsplit hforeign
      have hs := hsound before e after hsplit
      cases e with
      | other write => exact absurd trivial hforeign
      | synced envelopes => exact absurd trivial hforeign
      | rename reach => exact (keeps_rename_iff laws hs.reachable content hs.formed reach).2 (h before reach after hsplit)
  refine ⟨hiff, fun hquiet => hiff.2 fun before reach after hsplit => ?_, fun before reach after to' value hsplit hreading hset => ?_⟩
  · refine Copied.safe (copied_run laws content hstart trivial (fun e' he' => hwithin e' ?_) fun pre e post hpre => ?_) reach
    · rw [hsplit]
      exact List.mem_append_left _ he'
    · exact hquiet pre e (post ++ .rename reach :: after) (by rw [hsplit, hpre, List.append_assoc, List.cons_append])
  · have hs := hsound before (.rename reach) after hsplit
    have hcopied : Copied location key (before.foldl (step keys location key) ⟨core, .reading⟩) := by
      unfold Copied
      rw [hreading]
      trivial
    have hnext := hcopied.step (e := .rename reach) laws content hs fun hforeign => hforeign.elim
    have hstep : step keys location key (before.foldl (step keys location key) ⟨core, .reading⟩) (.rename reach) =
      rename keys location key (before.foldl (step keys location key) ⟨core, .reading⟩) reach := rfl
    rw [hstep] at hnext
    unfold Copied at hnext
    rw [hset] at hnext
    exact ⟨hset ▸ trivial, .inl hnext.1⟩

end Run

end IrohLotus.Lotusweb

/-! ## The samples -/

namespace IrohLotus.Lotusweb

open Std Outcome Interleave IrohLotus.Wire IrohLotus.Wire.Founded IrohLotus.Storage IrohLotus.State IrohLotus.Lotusd

/-- The entry to rename. -/
def entryA : Location := entryOf cfgKey [] "a"

/-- The founder's core once a client has set a map with that entry. -/
def configuredCore : Core := (foundedCore.weakWrite founderKeys (.set cfgKey none (.map [("a", .int 1)]))).2

theorem reachable_configuredCore : Reachable Set.univ configuredCore.chain configuredCore.storage := by
  rw [configuredCore]
  exact Core.weakWrite_reachable reachable_foundedCore (fun _ _ _ => Set.mem_univ _) _

/-- Where another client sets a third entry. -/
def entryC : Location := entryOf cfgKey [] "c"

/-- The rename reads, another client sets a third entry, the rename sets and deletes, and the answer to that
is lost. -/
def crossing : List Event :=
  [.rename .answered, .other (.set cfgKey entryC.path (.int 3)), .rename .answered, .rename .unanswered]

/-- The value is at the new key in the end, and what the other client wrote where it wrote it. -/
theorem losesNothing_crossing :
    LosesNothing (step founderKeys entryA "b") Event.Foreign (Readable entryA "b") ⟨configuredCore, .reading⟩ crossing ∧
      held (crossing.foldl (step founderKeys entryA "b") ⟨configuredCore, .reading⟩).core (entryA.beside "b") = some (.int 1) ∧
      held (crossing.foldl (step founderKeys entryA "b") ⟨configuredCore, .reading⟩).core entryA = none ∧
      held (crossing.foldl (step founderKeys entryA "b") ⟨configuredCore, .reading⟩).core entryC = some (.int 3) := by
  have hwithin : ∀ e ∈ crossing, e.Within Set.univ := by
    intro e he
    fin_cases he <;> trivial
  refine ⟨?_, by decide +kernel⟩
  refine (rename_losesNothing_iff founded_laws reachable_configuredCore (fun _ _ _ => Set.mem_univ _) hwithin).2.1 ?_
  intro before e after hsplit hforeign _
  -- the other client's write is the second event, right after the read
  rcases before with _ | ⟨read, _ | ⟨write, _ | ⟨set, _ | ⟨delete, before⟩⟩⟩⟩
  · cases hsplit
    exact hforeign.elim
  · cases hsplit
    show held _ _ = held _ _ ∧ held _ _ = held _ _
    decide +kernel
  · cases hsplit
    exact hforeign.elim
  · cases hsplit
    exact hforeign.elim
  · simp [crossing] at hsplit

/-- The rename reads and sets, another client sets the old key, and the rename deletes it. -/
def overwriting : List Event :=
  [.rename .answered, .rename .answered, .other (.set cfgKey entryA.path (.int 2))]

/-- What that client wrote is at neither key. -/
theorem not_losesNothing_overwriting : Reachable Set.univ configuredCore.chain configuredCore.storage ∧
    ¬ LosesNothing (step founderKeys entryA "b") Event.Foreign (Readable entryA "b") ⟨configuredCore, .reading⟩
      (overwriting ++ [.rename .answered]) := by
  refine ⟨reachable_configuredCore, fun h => ?_⟩
  have hreadable : Readable entryA "b" (overwriting.foldl (step founderKeys entryA "b") ⟨configuredCore, .reading⟩) (.int 2) :=
    ⟨by decide +kernel, .inl (by decide +kernel)⟩
  have hgone : held ((overwriting ++ [Event.rename .answered]).foldl (step founderKeys entryA "b") ⟨configuredCore, .reading⟩).core entryA =
      none := by decide +kernel
  have hcopy : held ((overwriting ++ [Event.rename .answered]).foldl (step founderKeys entryA "b") ⟨configuredCore, .reading⟩).core
      (entryA.beside "b") = some (.int 1) := by decide +kernel
  generalize (⟨configuredCore, .reading⟩ : Session) = σ at h hreadable hgone hcopy
  obtain ⟨-, hold | hnew⟩ := h overwriting [.rename .answered] [] (.int 2) (List.append_nil _).symm hreadable
    ⟨fun hforeign => hforeign.elim, trivial⟩
  · rw [hgone] at hold
    cases hold
  · rw [hcopy] at hnew
    cases hnew

end IrohLotus.Lotusweb
