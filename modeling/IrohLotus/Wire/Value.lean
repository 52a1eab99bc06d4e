/-
The data a ledger holds: keys, paths, values and namespaces, as the `wire` crate defines them.
A `BTreeMap` that is not part of a recursive type is a `Std.ExtTreeMap` (sorted, extensional); the
map inside a `Value` is the sorted list of its entries, read and written through `Entries`.
-/
import Mathlib

namespace IrohLotus.Wire

open Std

/-! ## Fixed-width byte strings -/

/-- The id a trusted key is referred to by (`KeyId`), ordered bytewise as a big-endian number. -/
structure KeyId where
  hash : BitVec 256
deriving DecidableEq

instance : Ord KeyId := ⟨compareOn KeyId.hash⟩
instance : TransOrd KeyId := inferInstanceAs (TransCmp (compareOn KeyId.hash))
instance : LawfulEqOrd KeyId where
  eq_of_compare {a b} h := by
    have h : a.hash = b.hash := LawfulEqOrd.eq_of_compare h
    cases a; cases b; cases h; rfl

/-- A digest over a whole envelope (`EnvelopeDigest`), ordered bytewise as a big-endian number. -/
structure EnvelopeDigest where
  hash : BitVec 256
deriving DecidableEq

instance : Ord EnvelopeDigest := ⟨compareOn EnvelopeDigest.hash⟩
instance : TransOrd EnvelopeDigest := inferInstanceAs (TransCmp (compareOn EnvelopeDigest.hash))
instance : LawfulEqOrd EnvelopeDigest where
  eq_of_compare {a b} h := by
    have h : a.hash = b.hash := LawfulEqOrd.eq_of_compare h
    cases a; cases b; cases h; rfl

/-- The digest an envelope's signatures are taken over (`EnvelopeSignatureDigest`). -/
structure EnvelopeSignatureDigest where
  hash : BitVec 256
deriving DecidableEq

structure Ed25519PublicKey where
  bytes : BitVec 256
deriving DecidableEq

structure Ed25519Signature where
  bytes : BitVec 512
deriving DecidableEq

inductive PublicKey where
  | ed25519 (key : Ed25519PublicKey)
deriving DecidableEq

inductive Signature where
  | ed25519 (signature : Ed25519Signature)
deriving DecidableEq

/-- An entry of the trusted key set. -/
structure Key where
  publicKey : PublicKey
  weight : UInt32
  metadata : ExtTreeMap String String
deriving DecidableEq

/-! ## Paths -/

/-- One step of a path into a namespace's value. -/
inductive Subkey where
  | key (name : String)
  | index (i : UInt32)
deriving DecidableEq

/-- What a subkey is ordered by: keys before indices, then by name, then by index. -/
def Subkey.order : Subkey → Nat × String × UInt32
  | .key name => (0, name, 0)
  | .index i => (1, "", i)

instance : Ord Subkey := ⟨compareLex (compareOn fun a => a.order.1)
  (compareLex (compareOn fun a => a.order.2.1) (compareOn fun a => a.order.2.2))⟩
instance : TransOrd Subkey := inferInstanceAs (TransCmp (compareLex (compareOn fun a : Subkey => a.order.1)
  (compareLex (compareOn fun a => a.order.2.1) (compareOn fun a => a.order.2.2))))
instance : LawfulEqOrd Subkey where
  eq_of_compare {a b} h := by
    obtain ⟨h0, h12⟩ := compareLex_eq_eq.1 h
    obtain ⟨h1, h2⟩ := compareLex_eq_eq.1 h12
    have h0 : a.order.1 = b.order.1 := LawfulEqOrd.eq_of_compare h0
    have h1 : a.order.2.1 = b.order.2.1 := LawfulEqOrd.eq_of_compare h1
    have h2 : a.order.2.2 = b.order.2.2 := LawfulEqOrd.eq_of_compare h2
    cases a <;> cases b <;> simp_all [Subkey.order]

/-- A path to a value nested inside a namespace; never empty. -/
structure SubkeyPath where
  segments : List Subkey
  nonempty : segments ≠ []
deriving DecidableEq

instance : Ord SubkeyPath := ⟨compareOn SubkeyPath.segments⟩
instance : TransOrd SubkeyPath := inferInstanceAs (TransCmp (compareOn SubkeyPath.segments))
instance : LawfulEqOrd SubkeyPath where
  eq_of_compare {a b} h := by
    have h : a.segments = b.segments := LawfulEqOrd.eq_of_compare h
    cases a; cases b; cases h; rfl

/-- The segments of an optional path: none for the value as a whole. -/
def segmentsOf (path : Option SubkeyPath) : List Subkey := path.elim [] SubkeyPath.segments

@[simp] theorem segmentsOf_none : segmentsOf none = [] := rfl
@[simp] theorem segmentsOf_some (path : SubkeyPath) : segmentsOf (some path) = path.segments := rfl

/-- The name a namespace is stored under; never empty. -/
structure NamespaceKey where
  name : String
  nonempty : name ≠ ""
deriving DecidableEq

instance : Ord NamespaceKey := ⟨compareOn NamespaceKey.name⟩
instance : TransOrd NamespaceKey := inferInstanceAs (TransCmp (compareOn NamespaceKey.name))
instance : LawfulEqOrd NamespaceKey where
  eq_of_compare {a b} h := by
    have h : a.name = b.name := LawfulEqOrd.eq_of_compare h
    cases a; cases b; cases h; rfl

/-! ## Values -/

/-- A data value. -/
inductive Value where
  | string (text : String)
  | int (n : Int64)
  | bool (flag : Bool)
  | array (items : List Value)
  | map (entries : List (String × Value))
  | key (key : Key)

mutual

def Value.decEq : (a b : Value) → Decidable (a = b)
  | .string a, .string b => decidable_of_iff (a = b) (by simp)
  | .int a, .int b => decidable_of_iff (a = b) (by simp)
  | .bool a, .bool b => decidable_of_iff (a = b) (by simp)
  | .key a, .key b => decidable_of_iff (a = b) (by simp)
  | .array a, .array b => @decidable_of_iff _ (a = b) (by simp) (Value.decEqItems a b)
  | .map a, .map b => @decidable_of_iff _ (a = b) (by simp) (Value.decEqEntries a b)
  | .string _, .int _ | .string _, .bool _ | .string _, .array _ | .string _, .map _ | .string _, .key _
  | .int _, .string _ | .int _, .bool _ | .int _, .array _ | .int _, .map _ | .int _, .key _
  | .bool _, .string _ | .bool _, .int _ | .bool _, .array _ | .bool _, .map _ | .bool _, .key _
  | .array _, .string _ | .array _, .int _ | .array _, .bool _ | .array _, .map _ | .array _, .key _
  | .map _, .string _ | .map _, .int _ | .map _, .bool _ | .map _, .array _ | .map _, .key _
  | .key _, .string _ | .key _, .int _ | .key _, .bool _ | .key _, .array _ | .key _, .map _ =>
    isFalse (by simp)

def Value.decEqItems : (a b : List Value) → Decidable (a = b)
  | [], [] => isTrue rfl
  | [], _ :: _ | _ :: _, [] => isFalse (by simp)
  | a :: as, b :: bs =>
    match Value.decEq a b, Value.decEqItems as bs with
    | isTrue h, isTrue hs => isTrue (by rw [h, hs])
    | isFalse h, _ => isFalse (by simp [h])
    | _, isFalse h => isFalse (by simp [h])

def Value.decEqEntries : (a b : List (String × Value)) → Decidable (a = b)
  | [], [] => isTrue rfl
  | [], _ :: _ | _ :: _, [] => isFalse (by simp)
  | (j, a) :: as, (k, b) :: bs =>
    match (inferInstance : Decidable (j = k)), Value.decEq a b, Value.decEqEntries as bs with
    | isTrue h, isTrue h', isTrue hs => isTrue (by rw [h, h', hs])
    | isFalse h, _, _ => isFalse (by simp [h])
    | _, isFalse h, _ => isFalse (by simp [h])
    | _, _, isFalse h => isFalse (by simp [h])

end

instance : DecidableEq Value := Value.decEq

/-- A complete representation of a namespace. -/
structure Namespace where
  value : Value
deriving DecidableEq

/-! ## The entries of a map -/

/-- The entries of a `BTreeMap<String, _>`, in ascending key order. -/
abbrev Entries (V : Type) := List (String × V)

namespace Entries

variable {V : Type}

/-- `BTreeMap::get`. -/
def get : Entries V → String → Option V
  | [], _ => none
  | (k, v) :: rest, name => if k = name then some v else get rest name

/-- `BTreeMap::insert`, replacing what the key held. -/
def insert : Entries V → String → V → Entries V
  | [], name, value => [(name, value)]
  | (k, v) :: rest, name, value =>
    if k = name then (name, value) :: rest
    else if name < k then (name, value) :: (k, v) :: rest
    else (k, v) :: insert rest name value

/-- `BTreeMap::remove`. -/
def remove : Entries V → String → Entries V
  | [], _ => []
  | (k, v) :: rest, name => if k = name then remove rest name else (k, v) :: remove rest name

/-- `BTreeMap::retain`. -/
def retain (entries : Entries V) (keep : V → Bool) : Entries V := entries.filter fun entry => keep entry.2

theorem get_insert : ∀ (entries : Entries V) (name other : String) (value : V),
    (entries.insert name value).get other = if name = other then some value else entries.get other
  | [], name, other, value => by simp [insert, get]
  | (k, v) :: rest, name, other, value => by
    by_cases hk : k = name
    · subst hk
      by_cases ho : k = other <;> simp [insert, get, ho]
    · have ih := get_insert rest name other value
      by_cases hlt : name < k
      · simp [insert, get, hk, hlt]
      · by_cases ho : name = other
        · subst ho; simp [insert, get, hk, hlt, ih]
        · simp [insert, get, hk, hlt, ih, ho]

theorem insert_insert : ∀ (entries : Entries V) (name : String) (v w : V),
    (entries.insert name v).insert name w = entries.insert name w
  | [], name, v, w => by simp [insert]
  | (k, x) :: rest, name, v, w => by
    by_cases hk : k = name
    · simp [insert, hk]
    · by_cases hlt : name < k
      · simp [insert, hk, hlt]
      · simp [insert, hk, hlt, insert_insert rest name v w]

theorem get_remove : ∀ (entries : Entries V) (name other : String),
    (entries.remove name).get other = if name = other then none else entries.get other
  | [], name, other => by simp [remove, get]
  | (k, v) :: rest, name, other => by
    have ih := get_remove rest name other
    by_cases hk : k = name
    · subst hk
      by_cases ho : k = other
      · subst ho; simp [remove, ih]
      · simp [remove, get, ih, ho]
    · by_cases ho : name = other
      · subst ho; simp [remove, get, hk, ih]
      · simp [remove, get, hk, ih, ho]

end Entries

end IrohLotus.Wire
