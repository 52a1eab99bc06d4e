/-
The writes a local client asks for (`lotusd::server::WeakWrite`): each is a message chained onto the head
the core stands at when it is served, and asks nothing of what was there. A set or a clear of a map's
entry leaves there what it says, and the other entries of the map as they were.
-/
import IrohLotus.Lotusd.Signing

namespace IrohLotus.Storage

open Outcome IrohLotus.Wire

/-! ## One entry of a map -/

theorem walk_key (v : Value) (name : String) : v.walk [.key name] = v.child (.key name) := by
  rw [Value.walk_cons]
  exact Option.bind_fun_some _

/-- A set or a clear of an entry leaves what it says at the entry, and the ones beside it alone. -/
theorem walk_setAt_key {E : Type} {root w : Value} {path : SubkeyPath} {value : Option Value} {parents : List Subkey}
    {name : String} (hpath : path.segments = parents ++ [.key name]) (h : setAt (E := E) root path value = .ok w) (other : String) :
    w.walk (parents ++ [.key other]) = if name = other then value else root.walk (parents ++ [.key other]) := by
  obtain ⟨segments, nonempty⟩ := path
  obtain rfl : segments = parents ++ [.key name] := hpath
  unfold setAt at h
  obtain ⟨⟨x, put⟩, hput, h⟩ := Res.bind_eq_ok h
  have hwalk := Res.expect_eq_ok hput
  rw [List.dropLast_concat] at hwalk
  have hroot : root.walk (parents ++ [.key other]) = x.walk [.key other] := by
    rw [Value.walk_append, walk_of_walkMut hwalk, Option.bind_some]
  rw [List.getLast_append_singleton] at h
  rw [hroot]
  cases x <;> try (cases value <;> cases h)
  case map entries =>
    cases value with
    | some value =>
      cases h
      rw [walk_put hwalk]
      rw [walk_key, walk_key, Value.child, Value.child, Entries.get_insert]
    | none =>
      obtain ⟨_, -, h⟩ := Res.bind_eq_ok h
      cases h
      rw [walk_put hwalk]
      rw [walk_key, walk_key, Value.child, Value.child, Entries.get_remove]

end IrohLotus.Storage

namespace IrohLotus.Lotusd

open Std Outcome Forest IrohLotus.Wire IrohLotus.Storage IrohLotus.State

/-! ## The model -/

/-- A write a local client asks for, to be signed by this node onto its current head. -/
inductive WeakWrite where
  | set (key : NamespaceKey) (path : Option SubkeyPath) (value : Value)
  | push (key : NamespaceKey) (path : Option SubkeyPath) (value : Value)
  | delete (key : NamespaceKey) (path : Option SubkeyPath)
  | increment (key : NamespaceKey) (path : Option SubkeyPath) (delta : Int64) (min max : Option Int64)
  | deleteMatching (key : NamespaceKey) (path : Option SubkeyPath) (predicate : Predicate)
deriving DecidableEq

/-- The ledger message this write is, chained onto `prev`. A path picks the nested form; none, the
whole-namespace one. -/
def WeakWrite.message (prev : EnvelopeDigest) : WeakWrite → Msg
  | .set key (some path) value => .setNamespaceKey ⟨prev, key, path, some value⟩
  | .set key none value => .setNamespace ⟨prev, key, ⟨value⟩⟩
  | .push key path value => .amendNamespaceKey ⟨prev, key, path, .appendEntry value⟩
  | .delete key (some path) => .setNamespaceKey ⟨prev, key, path, none⟩
  | .delete key none => .deleteNamespace ⟨prev, key⟩
  | .increment key path delta min max => .amendNamespaceKey ⟨prev, key, path, .incrementDecrement ⟨delta, min, max⟩⟩
  | .deleteMatching key path predicate => .amendNamespaceKey ⟨prev, key, path, .deleteMatching predicate⟩

/-- The value `path` addresses in the namespace under `key`, and the head it was read at. -/
def Core.read {E : Type} (core : Core) (key : NamespaceKey) (path : Option SubkeyPath) :
    Res E (EnvelopeDigest × Option Value) := do
  let value ← core.storage.valueAt core.head key (segmentsOf path)
  pure (core.head, value)

theorem WeakWrite.prevDigest_message (write : WeakWrite) (prev : EnvelopeDigest) :
    (write.message prev).prevDigest = some prev := by
  cases write with
  | set key path value => cases path <;> rfl
  | push key path value => rfl
  | delete key path => cases path <;> rfl
  | increment key path delta min max => rfl
  | deleteMatching key path predicate => rfl

variable [Externals]

/-- Serves a write: what the mainloop answers, and the core it leaves. -/
def Core.weakWrite (core : Core) (keys : NodeKeys) (write : WeakWrite) : Res Error (EnvelopeDigest × Insert) × Core :=
  core.signWrite keys fun prev => write.message prev

/-! ## What a write leaves -/

variable {contents : Set SignedPortion} {core : Core} {keys : NodeKeys}

/-- Whatever is signed, the core it leaves is one the chain's calls reach. -/
theorem Core.signWrite_reachable (h : Reachable contents core.chain core.storage)
    (content : ∀ msg e, keys.sign (Envelope.new msg) = .ok e → e.toSignedPortion ∈ contents) (build : EnvelopeDigest → Msg) :
    Reachable contents (core.signWrite keys build).2.chain (core.signWrite keys build).2.storage := by
  unfold Core.signWrite
  cases hsign : keys.sign (Envelope.new (build core.head)) with
  | error err => exact h
  | ok e =>
    cases hd : e.digest with
    | error err =>
      simp only [Res.ofExcept_ok, Res.ok_bind, hd]
      exact h
    | ok d =>
      simp only [Res.ofExcept_ok, Res.ok_bind, hd]
      refine Core.insert_reachable h fun e' he' => ?_
      rw [List.mem_singleton.1 he']
      exact content _ e hsign

theorem Core.weakWrite_reachable (h : Reachable contents core.chain core.storage)
    (content : ∀ msg e, keys.sign (Envelope.new msg) = .ok e → e.toSignedPortion ∈ contents) (write : WeakWrite) :
    Reachable contents (core.weakWrite keys write).2.chain (core.weakWrite keys write).2.storage :=
  Core.signWrite_reachable h content _

/-- What a version holds at a path. -/
def valueIn (v : Version) (key : NamespaceKey) (path : List Subkey) : Option Value := v[key]?.bind fun ns => ns.value.walk path

omit [Externals] in
/-- The core stands at a version, and reads off it. -/
theorem Core.read_eq {E : Type} {v : Version} (hv : core.storage.versions[core.head]? = some v) (key : NamespaceKey)
    (path : Option SubkeyPath) : core.read (E := E) key path = .ok (core.head, valueIn v key (segmentsOf path)) := by
  unfold Core.read MemStorage.valueAt
  rw [MemStorage.version_eq_ok _ hv, Res.ok_bind]
  rfl

/-- A message about one entry of a map that passes its checks leaves there what it says. -/
theorem valueIn_of_passes {v v' : Version} {p prev : EnvelopeDigest} {key : NamespaceKey} {path : SubkeyPath} {value : Option Value}
    {parents : List Subkey} {name : String} (hpath : path.segments = parents ++ [.key name])
    (h : Passes v p (.setNamespaceKey ⟨prev, key, path, value⟩) v') (other : String) :
    valueIn v' key (parents ++ [.key other]) = if name = other then value else valueIn v key (parents ++ [.key other]) := by
  obtain ⟨op, hmsg, -, hu⟩ := h
  have hop := (Ledger.validateMsg_eq_ok (E := Empty) (versions_only p v) hmsg).1
  cases hop
  obtain ⟨ns, w, hns, hw, rfl⟩ := MemStorage.update_setAt_eq_ok hu
  unfold valueIn
  rw [ExtTreeMap.getElem?_insert_self, hns, Option.bind_some, Option.bind_some]
  exact walk_setAt_key hpath hw other

end IrohLotus.Lotusd
