/-
Change sets gathered from messages, one recorded or two sets merged at a time. A change is a place in its
namespace, the namespace itself being the place of no segments, and what a set keeps of the places messages
name is their frontier under the order of prefixes. So it depends on the messages alone.
-/
import IrohLotus.Lib.Frontier
import IrohLotus.State.Merge

namespace IrohLotus.State

open Std IrohLotus.Wire Frontier

/-! ## Places -/

/-- The place a change is recorded at: the namespace has no segments. -/
def place (path : Option SubkeyPath) : List Subkey := path.elim [] SubkeyPath.segments

/-- The places a change names. -/
def places : Option Change → Set (List Subkey)
  | none => ∅
  | some .whole => {[]}
  | some (.paths paths) => {l | ∃ path ∈ paths, path.segments = l}

theorem SubkeyPath.eq_of_segments {a b : SubkeyPath} (h : a.segments = b.segments) : a = b := by
  cases a; cases b
  cases h
  rfl

/-- A change that names something is known by its places. -/
theorem places_injective {c c' : Option Change} (hc : ∀ paths, c = some (.paths paths) → ∃ path, path ∈ paths)
    (hc' : ∀ paths, c' = some (.paths paths) → ∃ path, path ∈ paths) (h : places c = places c') : c = c' := by
  -- neither nothing nor the whole namespace is a set of paths
  have hpaths : ∀ {paths : ExtTreeSet SubkeyPath} {path : SubkeyPath} {c : Option Change}, path ∈ paths →
      places (some (.paths paths)) = places c → ∃ paths', c = some (.paths paths') := by
    intro paths path c hpath heq
    have hmem : path.segments ∈ places c := heq ▸ ⟨path, hpath, rfl⟩
    cases c with
    | none => cases hmem
    | some change =>
      cases change with
      | whole => exact absurd hmem path.nonempty
      | paths paths' => exact ⟨paths', rfl⟩
  have hwhole : places (some .whole) ≠ places none := by
    intro heq
    have hmem : [] ∈ places none := heq ▸ Set.mem_singleton []
    cases hmem
  rcases c with _ | (_ | paths) <;> rcases c' with _ | (_ | paths')
  · rfl
  · exact absurd h.symm hwhole
  · obtain ⟨path, hpath⟩ := hc' paths' rfl
    obtain ⟨_, heq⟩ := hpaths hpath h.symm
    cases heq
  · exact absurd h hwhole
  · rfl
  · obtain ⟨path, hpath⟩ := hc' paths' rfl
    obtain ⟨_, heq⟩ := hpaths hpath h.symm
    cases heq
  · obtain ⟨path, hpath⟩ := hc paths rfl
    obtain ⟨_, heq⟩ := hpaths hpath h
    cases heq
  · obtain ⟨path, hpath⟩ := hc paths rfl
    obtain ⟨_, heq⟩ := hpaths hpath h
    cases heq
  · have hiff : ∀ path, path ∈ paths ↔ path ∈ paths' := by
      intro path
      have hmem : path.segments ∈ places (some (.paths paths)) ↔ path.segments ∈ places (some (.paths paths')) := by rw [h]
      constructor
      · intro hpath
        obtain ⟨other, hother, heq⟩ := hmem.1 ⟨path, hpath, rfl⟩
        exact SubkeyPath.eq_of_segments heq ▸ hother
      · intro hpath
        obtain ⟨other, hother, heq⟩ := hmem.2 ⟨path, hpath, rfl⟩
        exact SubkeyPath.eq_of_segments heq ▸ hother
    rw [ExtTreeSet.ext_mem hiff]

namespace ChangeSet

variable {set : ChangeSet} {key k : NamespaceKey} {path : Option SubkeyPath}

theorem getElem?_touch_of_ne (hk : key ≠ k) : (set.touch key path).changes[k]? = set.changes[k]? := by
  have hinsert : ∀ change, (set.changes.insert key change)[k]? = set.changes[k]? := by
    intro change
    rw [ExtTreeMap.getElem?_insert, if_neg (by rwa [Std.compare_eq_iff_eq])]
  cases path with
  | none => exact hinsert .whole
  | some path =>
    simp only [touch]
    split
    · exact hinsert _
    · rfl
    · split
      · rfl
      · exact hinsert _

/-- The whole namespace absorbs whatever was recorded in it. -/
theorem places_touch_whole :
    places (set.touch key none).changes[key]? = absorb (· <+: ·) (places set.changes[key]?) [] := by
  have hget : (set.touch key none).changes[key]? = some .whole := by simp [touch]
  rw [hget]
  by_cases habove : ∃ y ∈ places set.changes[key]?, y <+: []
  · -- only the namespace itself is above the namespace
    rw [absorb_of_above habove]
    obtain ⟨y, hy, hnil⟩ := habove
    obtain rfl := List.prefix_nil.1 hnil
    cases hc : set.changes[key]? with
    | none => rw [hc] at hy; cases hy
    | some change =>
      cases change with
      | whole => rfl
      | paths paths =>
        rw [hc] at hy
        obtain ⟨path, -, hpath⟩ := hy
        exact absurd hpath path.nonempty
  · ext l
    rw [mem_absorb_of_not_above fun y hy hle => habove ⟨y, hy, hle⟩]
    constructor
    · intro hl
      exact .inr hl
    · rintro (⟨-, hno⟩ | hl)
      · exact absurd List.nil_prefix hno
      · exact hl

theorem places_touch_path (path : SubkeyPath) :
    places (set.touch key (some path)).changes[key]? = absorb (· <+: ·) (places set.changes[key]?) path.segments := by
  cases hc : set.changes[key]? with
  | none =>
    have hget : (set.touch key (some path)).changes[key]? = some (.paths (ExtTreeSet.ofList [path])) := by
      simp [touch, hc]
    rw [hget]
    ext l
    rw [mem_absorb_of_not_above fun y hy => by cases hy]
    constructor
    · rintro ⟨other, hother, rfl⟩
      obtain rfl : path = other := by simpa using hother
      exact .inr rfl
    · rintro (⟨hl, -⟩ | rfl)
      · cases hl
      · exact ⟨path, by simp, rfl⟩
  | some change =>
    cases change with
    | whole =>
      have hget : (set.touch key (some path)).changes[key]? = some .whole := by simp [touch, hc]
      have habove : ∃ y ∈ places (some .whole), y <+: path.segments := ⟨[], rfl, List.nil_prefix⟩
      rw [hget, absorb_of_above habove]
    | paths paths =>
      by_cases hcovered : (paths.toList.any fun touched => covers touched path) = true
      · have hget : (set.touch key (some path)).changes[key]? = some (.paths paths) := by
          simp only [touch, hc, hcovered, if_true]
        have habove : ∃ y ∈ places (some (.paths paths)), y <+: path.segments := by
          obtain ⟨touched, htouched, hle⟩ := List.any_eq_true.1 hcovered
          exact ⟨_, ⟨touched, ExtTreeSet.mem_toList.1 htouched, rfl⟩, covers_iff.1 hle⟩
        rw [hget, absorb_of_above habove]
      · have hget : (set.touch key (some path)).changes[key]? =
            some (.paths ((paths.filter fun touched => !covers path touched).insert path)) := by
          simp only [touch, hc, hcovered]
          simp
        have hno : ∀ y ∈ places (some (.paths paths)), ¬ y <+: path.segments := by
          rintro y ⟨touched, htouched, rfl⟩ hle
          exact hcovered (List.any_eq_true.2 ⟨touched, ExtTreeSet.mem_toList.2 htouched, covers_iff.2 hle⟩)
        rw [hget]
        ext l
        rw [mem_absorb_of_not_above hno]
        constructor
        · rintro ⟨other, hother, rfl⟩
          rw [ExtTreeSet.mem_insert, Std.compare_eq_iff_eq] at hother
          rcases hother with rfl | hother
          · exact .inr rfl
          · obtain ⟨hother, hcov⟩ := ExtTreeSet.mem_filter.1 hother
            refine .inl ⟨⟨other, hother, rfl⟩, fun hle => ?_⟩
            simp [covers_iff.2 hle] at hcov
        · rintro (⟨⟨other, hother, rfl⟩, hno⟩ | rfl)
          · have hcov : covers path other = false := Bool.eq_false_iff.2 fun hle => hno (covers_iff.1 hle)
            exact ⟨other, ExtTreeSet.mem_insert.2 (.inr (ExtTreeSet.mem_filter.2 ⟨hother, by simp [hcov]⟩)), rfl⟩
          · exact ⟨path, ExtTreeSet.mem_insert_self, rfl⟩

/-- One step of `touch`: the places of the namespace keep one more. -/
theorem places_touch : places (set.touch key path).changes[key]? =
    absorb (· <+: ·) (places set.changes[key]?) (place path) := by
  cases path with
  | none => exact places_touch_whole
  | some path => exact places_touch_path path

/-! ## What a set keeps -/

/-- What a set keeps of the places named in each namespace is their frontier. -/
def Keeps (set : ChangeSet) (named : NamespaceKey → Set (List Subkey)) : Prop :=
  ∀ key, places set.changes[key]? = frontier (· <+: ·) (named key)

/-- What touches name in each namespace. -/
def named (touches : List (NamespaceKey × Option SubkeyPath)) (key : NamespaceKey) : Set (List Subkey) :=
  {l | ∃ path, (key, path) ∈ touches ∧ place path = l}

theorem keeps_empty : empty.Keeps fun _ => ∅ := by
  intro key
  rw [frontier_empty, empty, ExtTreeMap.getElem?_empty]
  rfl

theorem Keeps.touch {seen : NamespaceKey → Set (List Subkey)} (h : set.Keeps seen) (key : NamespaceKey)
    (path : Option SubkeyPath) : (set.touch key path).Keeps fun k => seen k ∪ named [(key, path)] k := by
  intro k
  by_cases hk : key = k
  · subst hk
    have hnamed : seen key ∪ named [(key, path)] key = insert (place path) (seen key) := by
      ext l
      simp [named, or_comm, eq_comm]
    show _ = frontier _ (seen key ∪ named [(key, path)] key)
    rw [places_touch, h key, hnamed, frontier_insert (List.grounded_prefix _)]
  · have hnamed : seen k ∪ named [(key, path)] k = seen k := by
      ext l
      simp [named, Ne.symm hk]
    show _ = frontier _ (seen k ∪ named [(key, path)] k)
    rw [getElem?_touch_of_ne hk, h k, hnamed]

theorem Keeps.touchAll : ∀ (touches : List (NamespaceKey × Option SubkeyPath)) {set : ChangeSet}
    {seen : NamespaceKey → Set (List Subkey)}, set.Keeps seen →
      (touches.foldl (fun set t => set.touch t.1 t.2) set).Keeps fun k => seen k ∪ named touches k
  | [], set, seen, h => by
    intro k
    have hnamed : seen k ∪ named [] k = seen k := by
      ext l
      simp [named]
    show _ = frontier _ (seen k ∪ named [] k)
    rw [hnamed]
    exact h k
  | (key, path) :: touches, set, seen, h => by
    intro k
    have hnamed : seen k ∪ named ((key, path) :: touches) k = seen k ∪ named [(key, path)] k ∪ named touches k := by
      ext l
      simp [named, or_and_right, exists_or, or_assoc]
    show _ = frontier _ (seen k ∪ named ((key, path) :: touches) k)
    rw [hnamed]
    exact Keeps.touchAll touches (h.touch key path) k

/-- What a message records. -/
def touchesOf : Msg → List (NamespaceKey × Option SubkeyPath)
  | .init msg => msg.state.namespaces.keys.map fun key => (key, none)
  | .setNamespace msg => [(msg.key, none)]
  | .deleteNamespace msg => [(msg.key, none)]
  | .setNamespaceKey msg => [(msg.key, some msg.path)]
  | .amendNamespaceKey msg => [(msg.key, msg.path)]

theorem record_eq (msg : Msg) : set.record msg = (touchesOf msg).foldl (fun set t => set.touch t.1 t.2) set := by
  cases msg with
  | init msg => rw [touchesOf, List.foldl_map]; rfl
  | setNamespace msg => rfl
  | deleteNamespace msg => rfl
  | setNamespaceKey msg => rfl
  | amendNamespaceKey msg => rfl

/-- What merging a namespace's change records. -/
def touchesIn (entry : NamespaceKey × Change) : List (NamespaceKey × Option SubkeyPath) :=
  match entry.2 with
  | .whole => [(entry.1, none)]
  | .paths paths => paths.toList.map fun path => (entry.1, some path)

theorem merge_eq (set other : ChangeSet) :
    set.merge other = (other.changes.toList.flatMap touchesIn).foldl (fun set t => set.touch t.1 t.2) set := by
  have hchange : ∀ (set : ChangeSet) entry, set.mergeChange entry = (touchesIn entry).foldl (fun set t => set.touch t.1 t.2) set := by
    rintro set ⟨key, change⟩
    cases change with
    | whole => rfl
    | paths paths => simp only [touchesIn, List.foldl_map]; rfl
  rw [merge, List.foldl_flatMap]
  congr 1
  funext set entry
  exact hchange set entry

theorem named_merge (other : ChangeSet) (key : NamespaceKey) :
    named (other.changes.toList.flatMap touchesIn) key = places other.changes[key]? := by
  ext l
  simp only [named, Set.mem_ofPred_eq, List.mem_flatMap, Prod.exists, ExtTreeMap.mem_toList_iff_getElem?_eq_some]
  constructor
  · rintro ⟨path, ⟨key', change, hget, hmem⟩, rfl⟩
    cases change with
    | whole =>
      obtain ⟨rfl, rfl⟩ := Prod.mk.inj (List.mem_singleton.1 hmem)
      rw [hget]
      rfl
    | paths paths =>
      obtain ⟨path', hpath', heq⟩ := List.mem_map.1 hmem
      obtain ⟨rfl, rfl⟩ := Prod.mk.inj heq
      rw [hget]
      exact ⟨path', ExtTreeSet.mem_toList.1 hpath', rfl⟩
  · intro hl
    cases hget : other.changes[key]? with
    | none => rw [hget] at hl; cases hl
    | some change =>
      rw [hget] at hl
      cases change with
      | whole => exact ⟨none, ⟨key, _, hget, List.mem_singleton_self _⟩, hl.symm⟩
      | paths paths =>
        obtain ⟨path, hpath, rfl⟩ := hl
        exact ⟨some path, ⟨key, _, hget, List.mem_map.2 ⟨path, ExtTreeSet.mem_toList.2 hpath, rfl⟩⟩, rfl⟩

theorem Keeps.record {seen : NamespaceKey → Set (List Subkey)} (h : set.Keeps seen) (msg : Msg) :
    (set.record msg).Keeps fun k => seen k ∪ named (touchesOf msg) k := by
  rw [record_eq]
  exact h.touchAll _

theorem Keeps.merge {other : ChangeSet} {seen seen' : NamespaceKey → Set (List Subkey)} (h : set.Keeps seen)
    (h' : other.Keeps seen') : (set.merge other).Keeps fun k => seen k ∪ seen' k := by
  intro k
  rw [merge_eq, h.touchAll _ k]
  show frontier _ (seen k ∪ named _ k) = _
  rw [named_merge, h' k, frontier_union_frontier (List.grounded_prefix _)]

/-- What a set keeps of places is all there is to it. -/
theorem Keeps.unique {other : ChangeSet} {seen : NamespaceKey → Set (List Subkey)} (h : set.Keeps seen) (h' : other.Keeps seen)
    (hset : set.Formed) (hother : other.Formed) : set = other := by
  have hget : ∀ key, set.changes[key]? = other.changes[key]? := fun key =>
    places_injective (hset key) (hother key) ((h key).trans (h' key).symm)
  obtain ⟨changes⟩ := set
  obtain ⟨changes'⟩ := other
  congr 1
  exact ExtTreeMap.ext_getElem? hget

end ChangeSet

/-! ## Gathering -/

/-- How a change set comes about: messages recorded in a set, and sets merged into one another. -/
inductive Gathering where
  | empty
  | record (rest : Gathering) (msg : Msg)
  | merge (left right : Gathering)

namespace Gathering

/-- The change set that comes of it. -/
def changes : Gathering → ChangeSet
  | empty => .empty
  | record rest msg => rest.changes.record msg
  | merge left right => left.changes.merge right.changes

/-- The messages recorded on the way. -/
def messages : Gathering → List Msg
  | empty => []
  | record rest msg => rest.messages ++ [msg]
  | merge left right => left.messages ++ right.messages

theorem formed : ∀ g : Gathering, g.changes.Formed
  | empty => fun key paths h => by simp [changes, ChangeSet.empty] at h
  | record rest msg => rest.formed.record msg
  | merge left right => left.formed.merge right.changes

/-- A gathered set keeps the frontier of the places its messages name. -/
theorem keeps (g : Gathering) : g.changes.Keeps fun key => {l | ∃ msg ∈ g.messages, l ∈ ChangeSet.named (ChangeSet.touchesOf msg) key} := by
  induction g with
  | empty =>
    intro key
    simp only [messages, List.not_mem_nil, false_and, exists_false]
    exact ChangeSet.keeps_empty key
  | record rest msg ih =>
    intro key
    have h := ih.record msg key
    rw [changes, h]
    congr 1
    ext l
    simp [messages, or_and_right, exists_or]
  | merge left right ihl ihr =>
    intro key
    have h := ihl.merge ihr key
    rw [changes, h]
    congr 1
    ext l
    simp [messages, or_and_right, exists_or]

/-- Sets gathered from the same messages are equal, in whatever order and grouping. Each namespace's change
is the whole of it or a nonempty set of paths none of which is a prefix of another, merging a set into itself
changes nothing, and a merged set touches what either part touches. -/
theorem changes_canonical :
    (∀ g g' : Gathering, (∀ msg, msg ∈ g.messages ↔ msg ∈ g'.messages) → g.changes = g'.changes) ∧
    (∀ (g : Gathering) (key : NamespaceKey) (change : Change), g.changes.changes[key]? = some change →
      change = .whole ∨ ∃ paths, change = .paths paths ∧ (∃ path, path ∈ paths) ∧
        ∀ a ∈ paths, ∀ b ∈ paths, a.segments <+: b.segments → a = b) ∧
    (∀ g : Gathering, g.changes.merge g.changes = g.changes) ∧
    ∀ (g g' : Gathering) (key : NamespaceKey) (path : Option SubkeyPath),
      (g.changes.merge g'.changes).touches key path = true ↔
        g.changes.touches key path = true ∨ g'.changes.touches key path = true := by
  have hsame : ∀ g g' : Gathering, (∀ msg, msg ∈ g.messages ↔ msg ∈ g'.messages) → g.changes = g'.changes := by
    intro g g' hmessages
    have hkeeps := g'.keeps
    simp only [← hmessages] at hkeeps
    exact g.keeps.unique hkeeps g.formed g'.formed
  refine ⟨hsame, fun g key change hget => ?_, fun g => ?_, fun g g' key path => ChangeSet.touches_merge g'.formed⟩
  · cases change with
    | whole => exact .inl rfl
    | paths paths =>
      refine .inr ⟨paths, rfl, g.formed key paths hget, fun a ha b hb hle => ?_⟩
      have hkeeps := g.keeps key
      rw [hget] at hkeeps
      have hmem : ∀ path ∈ paths, path.segments ∈ places (some (.paths paths)) := fun path hpath => ⟨path, hpath, rfl⟩
      have ha' := hkeeps ▸ hmem a ha
      have hb' := hkeeps ▸ hmem b hb
      exact SubkeyPath.eq_of_segments (hb'.2 _ ha'.1 hle)
  · refine hsame (.merge g g) g fun msg => ?_
    simp [messages]

end Gathering

end IrohLotus.State
