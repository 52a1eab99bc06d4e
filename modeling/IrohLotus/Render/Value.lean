/-
Previews of values (`render::value`): a value written on one line where it fits, broken over its
entries and elided where it does not, all of it under one budget of lines that three mutually
recursive functions divide. A text is a list of characters, and a `usize` subtraction that would
fall below zero panics.
-/
import IrohLotus.Lib.Outcome
import IrohLotus.Wire.Path

namespace IrohLotus.Wire

/-! ## Keys as text -/

/-- `Display` of the key bytes: two hexadecimal digits each. -/
def Ed25519PublicKey.display (key : Ed25519PublicKey) : List Char := (Nat.toDigits 16 key.bytes.toNat).leftpad 64 '0'

def PublicKey.display : PublicKey → List Char
  | .ed25519 key => "ed25519:".toList ++ key.display

def Key.display (key : Key) : List Char :=
  key.publicKey.display ++ " (weight ".toList ++ Nat.toDigits 10 key.weight.toNat ++ [')']

end IrohLotus.Wire

namespace IrohLotus.Render

open Outcome IrohLotus.Wire

/-! ## The limits -/

/-- Columns a preview line may fill. -/
def WIDTH : Nat := 60

/-- Spaces one level of nesting indents by. -/
def INDENT : Nat := 2

/-- Columns a leaf is never elided below. -/
def MIN_LEAF : Nat := 16

/-- A `usize` subtraction. -/
def sub (a b : Nat) : Res Empty Nat := if b ≤ a then .ok (a - b) else .error (.panic "attempt to subtract with overflow")

/-- A line, or a part of one. -/
abbrev Line := List Char

/-- The columns a text occupies. -/
def width (text : Line) : Nat := text.length

/-- A character of a JSON string literal as it is written. -/
def escaped (c : Char) : Line :=
  if c = '"' then ['\\', '"']
  else if c = '\\' then ['\\', '\\']
  else if c = '\x08' then ['\\', 'b']
  else if c = '\x0c' then ['\\', 'f']
  else if c = '\n' then ['\\', 'n']
  else if c = '\r' then ['\\', 'r']
  else if c = '\t' then ['\\', 't']
  else if isControl c then '\\' :: 'u' :: (Nat.toDigits 16 c.toNat).leftpad 4 '0'
  else [c]

/-- The text as a JSON string literal. -/
def quoted (text : Line) : Line := '"' :: (text.flatMap escaped ++ ['"'])

/-- The text cut to `columns`, ending in an ellipsis where it was cut. -/
def elide (text : Line) (columns : Nat) : Res Empty Line :=
  let columns := max columns MIN_LEAF
  if text.length ≤ columns then .ok text
  else do
    let kept ← sub columns 1
    return text.take kept ++ ['…']

/-- Whether the line written so far still fits. -/
def fits (out : Line) (room : Nat) : Line × Bool := (out, width out ≤ room)

mutual

/-- Writes the value behind `out` on one line, giving up the moment the line passes `room` columns: what
is written by then, and whether all of it is. -/
def writeCompact (out : Line) (value : Value) (room : Nat) : Line × Bool :=
  if room < width out then (out, false)
  else
    match value with
    | .string text => fits (out ++ quoted text.toList) room
    | .int n => fits (out ++ (toString n.toInt).toList) room
    | .bool flag => fits (out ++ (toString flag).toList) room
    | .key key => fits (out ++ '<' :: (key.display ++ ['>'])) room
    | .array items =>
      let written := writeItems (out ++ ['[']) items 0 room
      if written.2 then fits (written.1 ++ [']']) room else written
    | .map fields =>
      let written := writeFields (out ++ ['{']) fields 0 room
      if written.2 then fits (written.1 ++ ['}']) room else written

/-- The items of an array from `index` on. -/
def writeItems (out : Line) (items : List Value) (index room : Nat) : Line × Bool :=
  match items with
  | [] => (out, true)
  | item :: items =>
    let written := writeCompact (if 0 < index then out ++ [',', ' '] else out) item room
    if written.2 then writeItems written.1 items (index + 1) room else written

/-- The fields of a map from `index` on. -/
def writeFields (out : Line) (fields : List (String × Value)) (index room : Nat) : Line × Bool :=
  match fields with
  | [] => (out, true)
  | (key, field) :: fields =>
    let written := writeCompact ((if 0 < index then out ++ [',', ' '] else out) ++ quoted key.toList ++ [':', ' '])
      field room
    if written.2 then writeFields written.1 fields (index + 1) room else written

end

/-! ## Breaking a value over lines -/

/-- A value and the label that opens its first line. -/
abbrev Labelled := Line × Value

/-- Whether a list carries JSON's separator between its entries. -/
inductive Separated where
  | yes
  | no
deriving DecidableEq

/-- Whether a container of `total` entries is worth breaking over `budget` lines: an opener, a closer and
a line inside, and one for the count of what was left out where more than one entry is in play. -/
def breakable (total budget : Nat) : Bool := 3 + (if 1 < total then 1 else 0) ≤ budget

/-- Whether a path stops at this value. -/
def isLeaf : Value → Bool
  | .array _ | .map _ => false
  | _ => true

def spaces (n : Nat) : Line := List.replicate n ' '

/-- The count of what a list leaves out. -/
def more (indent rest : Nat) : Line := spaces indent ++ '…' :: ' ' :: (Nat.toDigits 10 rest ++ " more".toList)

/-- The last of the lines just written, with the separator an entry that is not the last carries. One
that was itself elided has said so already. -/
def separate (separated : Separated) (rest : Nat) (last : Line) : Line :=
  if separated = .yes ∧ 1 < rest ∧ last.getLast? ≠ some '…' then last ++ [','] else last

/-- The items of an array, which carry no label. -/
def unlabelled (items : List Value) : List Labelled := items.map fun value => ([], value)

/-- The fields of a map, each under its key. -/
def labelled (fields : List (String × Value)) : List Labelled :=
  fields.map fun field => (quoted field.1.toList ++ [':', ' '], field.2)

mutual

/-- How many values a value is made of. -/
def nodes : Value → Nat
  | .array items => nodesItems items + 1
  | .map fields => nodesFields fields + 1
  | .string _ | .int _ | .bool _ | .key _ => 1

def nodesItems : List Value → Nat
  | [] => 0
  | item :: items => nodes item + nodesItems items

def nodesFields : List (String × Value) → Nat
  | [] => 0
  | (_, field) :: fields => nodes field + nodesFields fields

end

/-- How many values a list of labelled values is made of. -/
def weight (values : List Labelled) : Nat := (values.map fun entry => nodes entry.2).sum

@[simp] theorem weight_nil : weight [] = 0 := rfl

@[simp] theorem weight_cons (entry : Labelled) (values : List Labelled) :
    weight (entry :: values) = nodes entry.2 + weight values := rfl

theorem nodes_pos (value : Value) : 0 < nodes value := by
  cases value <;> simp [nodes]

theorem weight_unlabelled : ∀ items : List Value, weight (unlabelled items) = nodesItems items
  | [] => rfl
  | item :: items => by
    show nodes item + weight (unlabelled items) = _
    rw [weight_unlabelled items, nodesItems]

theorem weight_labelled : ∀ fields : List (String × Value), weight (labelled fields) = nodesFields fields
  | [] => rfl
  | (key, field) :: fields => by
    show nodes field + weight (labelled fields) = _
    rw [weight_labelled fields, nodesFields]

mutual

/-- The lines a value renders to: the first starting at column `start`, the rest indented to `indent`,
`budget` of them at most. -/
def lines (value : Value) (start indent budget : Nat) : Res Empty (List Line) :=
  let room := WIDTH - start
  let oneLine := writeCompact [] value room
  if oneLine.2 then .ok [oneLine.1]
  else
    match value with
    | .array items =>
      -- broken over lines, a list of leaves shows fewer of them than its one elided line does
      if items.all isLeaf then do return [← elide oneLine.1 room]
      else if breakable items.length budget then container '[' ']' (unlabelled items) indent budget
      else do return [← elide oneLine.1 room]
    | .map fields =>
      if breakable fields.length budget then container '{' '}' (labelled fields) indent budget
      else do return [← elide oneLine.1 room]
    | .string text => do return [quoted (← elide text.toList (room - 2))]
    | .int _ | .bool _ | .key _ => do return [← elide oneLine.1 room]
termination_by 4 * nodes value
decreasing_by all_goals simp only [nodes, weight_unlabelled, weight_labelled]; omega

/-- A container broken over its entries, between an opener and a closer that hold a line back each. -/
def container (opener closer : Char) (values : List Labelled) (indent budget : Nat) : Res Empty (List Line) := do
  let inside ← sub budget 2
  let written ← entries values (indent + INDENT) inside inside .yes
  return [opener] :: (written ++ [spaces indent ++ [closer]])
termination_by 4 * weight values + 3

/-- Each of the values at `indent`, its label opening it, within `budget` lines for the list and `share`
for any one of them. Whatever is left over when the budget runs out becomes a count of it. -/
def entries (values : List Labelled) (indent budget share : Nat) (separated : Separated) : Res Empty (List Line) :=
  entriesFrom values values.length 0 [] indent budget share separated
termination_by 4 * weight values + 2

/-- The loop over a list of `total` values: those from `index` on, with the lines `out` written so far. -/
def entriesFrom (values : List Labelled) (total index : Nat) (out : List Line) (indent budget share : Nat)
    (separated : Separated) : Res Empty (List Line) :=
  match values with
  | [] => .ok out
  | (label, value) :: values => do
    let left ← sub budget out.length
    let rest ← sub total index
    -- whatever follows this entry holds a line back, be it written out or counted
    let held := if 1 < rest then 1 else 0
    if left ≤ held then return out ++ [more indent rest]
    else
      let room ← sub left held
      let written ← lines value (indent + width label) indent (min room (max share 1))
      let out := out ++ ((spaces indent ++ label ++ written.headD []) :: written.tail)
      let last ← Res.expect out.getLast? "a line was just pushed"
      entriesFrom values total (index + 1) (out.dropLast ++ [separate separated rest last]) indent budget share separated
termination_by 4 * weight values + 1
decreasing_by
  · simp only [weight_cons]; omega
  · have := nodes_pos value
    simp only [weight_cons]; omega

end

/-- The call returned lines, as many as its budget allows and one at least. -/
def Within (budget : Nat) (r : Res Empty (List Line)) : Prop := ∃ ls, r = .ok ls ∧ ls ≠ [] ∧ ls.length ≤ budget

/-! ## The budget -/

/-- The last of some lines is rewritten in place. -/
theorem dropLast_append_getLast? {out new : List Line} (h : new ≠ []) :
    (out ++ new).getLast? = some (new.getLastD []) ∧ (out ++ new).dropLast = out ++ new.dropLast := by
  constructor
  · rw [List.getLast?_append_of_ne_nil _ h, List.getLast?_eq_some_getLast h, List.getLastD_eq_getLast?,
      List.getLast?_eq_some_getLast h]
    rfl
  · exact List.dropLast_append_of_ne_nil h

end IrohLotus.Render
