/-
Values as a self-describing format carries them: the trees a writer is handed and a reader hands
back. A canonical writer puts the entries of a map in an order of its own, so what is read is what was
written up to the order of entries, and what a reader is asked is to make the same value of every
such tree.
-/
import IrohLotus.Lib.Bytes

namespace Serde

open Bytes

/-- What a format carries. The keys of a map are trees too, though mostly numbers or text. -/
inductive Tree where
  | null
  | bool (flag : Bool)
  | int (n : Int)
  | text (s : String)
  | bytes (blob : Blob)
  | seq (items : List Tree)
  | map (entries : List (Tree × Tree))

mutual

/-- The same up to the order of the entries of each map. -/
inductive Reordered : Tree → Tree → Prop
  | null : Reordered .null .null
  | bool (flag : Bool) : Reordered (.bool flag) (.bool flag)
  | int (n : Int) : Reordered (.int n) (.int n)
  | text (s : String) : Reordered (.text s) (.text s)
  | bytes (blob : Blob) : Reordered (.bytes blob) (.bytes blob)
  | seq {xs ys : List Tree} : ReorderedItems xs ys → Reordered (.seq xs) (.seq ys)
  | map {ps qs rs : List (Tree × Tree)} : ReorderedEntries ps qs → qs.Perm rs → Reordered (.map ps) (.map rs)

inductive ReorderedItems : List Tree → List Tree → Prop
  | nil : ReorderedItems [] []
  | cons {x y : Tree} {xs ys : List Tree} : Reordered x y → ReorderedItems xs ys → ReorderedItems (x :: xs) (y :: ys)

inductive ReorderedEntries : List (Tree × Tree) → List (Tree × Tree) → Prop
  | nil : ReorderedEntries [] []
  | cons {k k' v v' : Tree} {ps qs : List (Tree × Tree)} : Reordered k k' → Reordered v v' → ReorderedEntries ps qs →
      ReorderedEntries ((k, v) :: ps) ((k', v') :: qs)

end

mutual

theorem Reordered.refl : ∀ t : Tree, Reordered t t
  | .null => .null
  | .bool flag => .bool flag
  | .int n => .int n
  | .text s => .text s
  | .bytes blob => .bytes blob
  | .seq items => .seq (ReorderedItems.refl items)
  | .map entries => .map (ReorderedEntries.refl entries) (List.Perm.refl entries)

theorem ReorderedItems.refl : ∀ items : List Tree, ReorderedItems items items
  | [] => .nil
  | item :: rest => .cons (Reordered.refl item) (ReorderedItems.refl rest)

theorem ReorderedEntries.refl : ∀ entries : List (Tree × Tree), ReorderedEntries entries entries
  | [] => .nil
  | (key, value) :: rest => .cons (Reordered.refl key) (Reordered.refl value) (ReorderedEntries.refl rest)

end

/-- How a field or a variant is named: by number in a compact format, by name in a readable one. -/
structure Name where
  number : Nat
  name : String
deriving DecidableEq

/-! ## Writing -/

/-- The key an entry is written under. -/
def Name.key (human : Bool) (n : Name) : Tree := if human then .text n.name else .int n.number

/-- A record, field by field. -/
def record (human : Bool) (fields : List (Name × Tree)) : Tree := .map (fields.map fun f => (f.1.key human, f.2))

/-- An optional value: null for none. -/
def option {α : Type} (write : α → Tree) : Option α → Tree
  | none => .null
  | some a => write a

/-! ## Reading -/

/-- Whether a key names the field. -/
def Name.isKey (human : Bool) (n : Name) : Tree → Bool
  | .text s => human && s = n.name
  | .int k => !human && k = n.number
  | _ => false

namespace Tree

/-- The value of the field a record has exactly once. -/
def field (human : Bool) (n : Name) : Tree → Option Tree
  | .map entries =>
    match entries.filter fun e => n.isKey human e.1 with
    | [e] => some e.2
    | _ => none
  | _ => none

/-- A field is smaller than its record. -/
theorem sizeOf_field {human : Bool} {n : Name} {t value : Tree} (h : t.field human n = some value) :
    sizeOf value < sizeOf t := by
  cases t <;> simp only [field, reduceCtorEq] at h
  case map entries =>
    split at h
    · rename_i e he
      cases h
      have hmem : e ∈ entries := (List.mem_filter.1 (he ▸ List.mem_singleton_self e)).1
      have hlt := List.sizeOf_lt_of_mem hmem
      have he : sizeOf e = 1 + sizeOf e.1 + sizeOf e.2 := rfl
      simp only [map.sizeOf_spec]
      omega
    · cases h

def readBool : Tree → Option Bool
  | .bool flag => some flag
  | _ => none

def readText : Tree → Option String
  | .text s => some s
  | _ => none

/-- An integer of a width: what does not fit is refused. -/
def readInt (lo hi : Int) : Tree → Option Int
  | .int n => if lo ≤ n ∧ n < hi then some n else none
  | _ => none

def readOption {α : Type} (read : Tree → Option α) : Tree → Option (Option α)
  | .null => some none
  | t => (read t).map some

/-- The value of an optional field: one that is missing is none. -/
def optField {α : Type} (human : Bool) (n : Name) (read : Tree → Option α) : Tree → Option (Option α)
  | .map entries =>
    match entries.filter fun e => n.isKey human e.1 with
    | [] => some none
    | [e] => readOption read e.2
    | _ => none
  | _ => none

def readSeq {α : Type} (read : Tree → Option α) : Tree → Option (List α)
  | .seq items => items.mapM read
  | _ => none

/-- The entries of a map, in the order they are read. -/
def readMap {κ α : Type} (readKey : Tree → Option κ) (read : Tree → Option α) : Tree → Option (List (κ × α))
  | .map entries => entries.mapM fun e => do
    let key ← readKey e.1
    let value ← read e.2
    pure (key, value)
  | _ => none

end Tree

/-! ## What was written reads back -/

/-- However its maps are ordered, `w` reads as `a`. -/
def Reads {α : Type} (w : Tree) (read : Tree → Option α) (a : α) : Prop := ∀ t, Reordered w t → read t = some a

theorem Reads.self {α : Type} {w : Tree} {read : Tree → Option α} {a : α} (h : Reads w read a) : read w = some a :=
  h w (.refl w)

theorem reads_bool (flag : Bool) : Reads (.bool flag) Tree.readBool flag := by
  intro t h
  cases h
  rfl

theorem reads_text (s : String) : Reads (.text s) Tree.readText s := by
  intro t h
  cases h
  rfl

theorem reads_int {lo hi n : Int} (hn : lo ≤ n ∧ n < hi) : Reads (.int n) (Tree.readInt lo hi) n := by
  intro t h
  cases h
  exact if_pos hn

theorem Reordered.eq_null {w : Tree} (h : Reordered w .null) : w = .null := by
  cases h
  rfl

/-- An optional value reads back when what it holds is never written as null. -/
theorem reads_option {α : Type} {write : α → Tree} {read : Tree → Option α} {o : Option α}
    (hnull : ∀ a, write a ≠ .null) (h : ∀ a, o = some a → Reads (write a) read a) :
    Reads (option write o) (Tree.readOption read) o := by
  intro t ht
  cases o with
  | none => cases ht; rfl
  | some a =>
    have hread := h a rfl t ht
    have ht' : t ≠ .null := by
      rintro rfl
      exact hnull a ht.eq_null
    unfold Tree.readOption
    split
    · exact absurd rfl ht'
    · rw [hread]; rfl

theorem readSeq_of_reordered {α β : Type} {write : β → Tree} {read : Tree → Option α} {f : β → α} :
    ∀ {items : List β} {ts : List Tree}, (∀ b ∈ items, Reads (write b) read (f b)) → ReorderedItems (items.map write) ts →
      ts.mapM read = some (items.map f)
  | [], _, _, .nil => rfl
  | b :: items, _, h, .cons hx hxs => by
    rw [List.mapM_cons, h b List.mem_cons_self _ hx,
      readSeq_of_reordered (fun b hb => h b (List.mem_cons_of_mem _ hb)) hxs]
    rfl

theorem reads_seq {α β : Type} {write : β → Tree} {read : Tree → Option α} {f : β → α} {items : List β}
    (h : ∀ b ∈ items, Reads (write b) read (f b)) : Reads (.seq (items.map write)) (Tree.readSeq read) (items.map f) := by
  intro t ht
  cases ht with
  | seq hxs => exact readSeq_of_reordered h hxs

theorem readEntries_of_reordered {κ α β : Type} {writeKey : κ → Tree} {write : β → Tree} {readKey : Tree → Option κ}
    {read : Tree → Option α} {f : β → α} :
    ∀ {entries : List (κ × β)} {ts : List (Tree × Tree)},
      (∀ e ∈ entries, Reads (writeKey e.1) readKey e.1 ∧ Reads (write e.2) read (f e.2)) →
      ReorderedEntries (entries.map fun e => (writeKey e.1, write e.2)) ts →
      List.Forall₂ (fun t e => (do
        let key ← readKey t.1
        let value ← read t.2
        pure (key, value)) = some e) ts (entries.map fun e => (e.1, f e.2))
  | [], _, _, .nil => .nil
  | e :: entries, _, h, .cons hk hv hrest => by
    obtain ⟨hkey, hvalue⟩ := h e List.mem_cons_self
    refine .cons ?_ (readEntries_of_reordered (fun e he => h e (List.mem_cons_of_mem _ he)) hrest)
    simp only [hkey _ hk, hvalue _ hv]
    rfl

theorem mapM_of_forall₂ {α β : Type} {f : α → Option β} : ∀ {l : List α} {l' : List β},
    List.Forall₂ (fun a b => f a = some b) l l' → l.mapM f = some l'
  | _, _, .nil => rfl
  | _, _, .cons h hl => by
    rw [List.mapM_cons, h, mapM_of_forall₂ hl]
    rfl

/-- The entries of a map that was written are read in some order. -/
theorem readMap_of_reordered {κ α β : Type} {writeKey : κ → Tree} {write : β → Tree} {readKey : Tree → Option κ}
    {read : Tree → Option α} {f : β → α} {entries : List (κ × β)} {t : Tree}
    (h : ∀ e ∈ entries, Reads (writeKey e.1) readKey e.1 ∧ Reads (write e.2) read (f e.2))
    (ht : Reordered (.map (entries.map fun e => (writeKey e.1, write e.2))) t) :
    ∃ es, t.readMap readKey read = some es ∧ es.Perm (entries.map fun e => (e.1, f e.2)) := by
  cases ht with
  | map hps hperm =>
    obtain ⟨es, hes, hperm'⟩ := List.perm_comp_forall₂ hperm.symm (readEntries_of_reordered h hps)
    exact ⟨es, mapM_of_forall₂ hes, hperm'⟩

/-! ## Records -/

theorem Name.isKey_of_reordered {human : Bool} {n : Name} {k k' : Tree} (h : Reordered k k') :
    n.isKey human k' = n.isKey human k := by
  cases h <;> rfl

theorem filter_of_reordered {human : Bool} {n : Name} : ∀ {ps qs : List (Tree × Tree)}, ReorderedEntries ps qs →
    ReorderedEntries (ps.filter fun e => n.isKey human e.1) (qs.filter fun e => n.isKey human e.1)
  | _, _, .nil => .nil
  | _, _, .cons hk hv hrest => by
    have ih := @filter_of_reordered human n _ _ hrest
    simp only [List.filter_cons, Name.isKey_of_reordered hk]
    split
    · exact .cons hk hv ih
    · exact ih

/-- A field stays where it is named, however the record is ordered. -/
theorem Reordered.field {human : Bool} {n : Name} {w w' t : Tree} (h : Reordered w t) (hw : w.field human n = some w') :
    ∃ t', t.field human n = some t' ∧ Reordered w' t' := by
  cases h <;> try cases hw
  case map ps qs rs hps hperm =>
    have hfilter := @filter_of_reordered human n _ _ hps
    have hperm' := hperm.filter fun e => n.isKey human e.1
    simp only [Tree.field] at hw ⊢
    generalize ps.filter (fun e => n.isKey human e.1) = ps' at hw hfilter
    generalize qs.filter (fun e => n.isKey human e.1) = qs' at hfilter hperm'
    cases hfilter with
    | nil => cases hw
    | cons hk hv hrest =>
      cases hrest with
      | nil =>
        cases hw
        rw [← List.singleton_perm.1 hperm']
        exact ⟨_, rfl, hv⟩
      | cons => cases hw

/-- A field named once in a record is there once, in either format. -/
theorem field_record {human : Bool} {fields : List (Name × Tree)} (n : Name) {w : Tree}
    (hnumber : fields.filter (fun f => f.1.number = n.number) = [(n, w)])
    (hname : fields.filter (fun f => f.1.name = n.name) = [(n, w)]) : (record human fields).field human n = some w := by
  simp only [record, Tree.field, List.filter_map]
  cases human with
  | true =>
    have hkey : (fun e : Tree × Tree => n.isKey true e.1) ∘ (fun f : Name × Tree => (f.1.key true, f.2)) =
        fun f => decide (f.1.name = n.name) := by
      funext f
      simp [Name.key, Name.isKey]
    rw [hkey, hname]
    rfl
  | false =>
    have hkey : (fun e : Tree × Tree => n.isKey false e.1) ∘ (fun f : Name × Tree => (f.1.key false, f.2)) =
        fun f => decide (f.1.number = n.number) := by
      funext f
      simp [Name.key, Name.isKey]
    rw [hkey, hnumber]
    rfl

section

variable {human : Bool} {fields : List (Name × Tree)} {t w : Tree} {α : Type} {read : Tree → Option α}

theorem Reordered.readField (h : Reordered (record human fields) t) (n : Name)
    (hnumber : fields.filter (fun f => f.1.number = n.number) = [(n, w)])
    (hname : fields.filter (fun f => f.1.name = n.name) = [(n, w)]) {a : α} (hr : Reads w read a) :
    (t.field human n).bind read = some a := by
  obtain ⟨t', ht', hw⟩ := h.field (field_record n hnumber hname)
  rw [ht', Option.bind_some]
  exact hr t' hw

theorem Reordered.readOptField (h : Reordered (record human fields) t) (n : Name)
    (hnumber : fields.filter (fun f => f.1.number = n.number) = [(n, w)])
    (hname : fields.filter (fun f => f.1.name = n.name) = [(n, w)]) {o : Option α} (hr : Reads w (Tree.readOption read) o) :
    t.optField human n read = some o := by
  obtain ⟨t', ht', hw⟩ := h.field (field_record n hnumber hname)
  have hread := hr t' hw
  cases t <;> simp only [Tree.field, reduceCtorEq] at ht'
  case map entries =>
    simp only [Tree.optField]
    split at ht'
    · rename_i e he
      cases ht'
      rw [he]
      exact hread
    · cases ht'

end

end Serde
