/-
Paths as text: how a path is written (`Display`) and how it is read (`FromStr`), as the `wire` crate
does both. A text in hand is a list of characters; a slice taken off a character boundary panics.
-/
import IrohLotus.Lib.Outcome
import IrohLotus.Lib.Text
import IrohLotus.Wire.Value

namespace IrohLotus.Wire

open Outcome Text

/-! ## Writing -/

/-- `char::is_control`: the characters of the category Cc. -/
def isControl (c : Char) : Bool := c.toNat < 0x20 || (0x7f ≤ c.toNat && c.toNat < 0xa0)

/-- Whether a key reads unambiguously bare (`Subkey::is_bare`). -/
def Subkey.isBare (key : List Char) : Bool :=
  !key.isEmpty && !(stripPrefix '$' key).isSome &&
    !key.any fun c => ['.', '[', ']', '\'', '"', '\\'].contains c || isControl c

/-- Whether this segment is written after a dot (`Subkey::is_dotted`). -/
def Subkey.isDotted : Subkey → Bool
  | .key name => Subkey.isBare name.toList
  | .index _ => false

/-- A character of a quoted key as it is written. -/
def escape (c : Char) : List Char :=
  if c = '\'' then ['\\', '\'']
  else if c = '\\' then ['\\', '\\']
  else if c = '\x08' then ['\\', 'b']
  else if c = '\x0c' then ['\\', 'f']
  else if c = '\n' then ['\\', 'n']
  else if c = '\r' then ['\\', 'r']
  else if c = '\t' then ['\\', 't']
  else if isControl c then '\\' :: 'u' :: (Nat.toDigits 16 c.toNat).leftpad 4 '0'
  else [c]

/-- A segment as it is written: bare, or quoted in brackets when it must be; an index in brackets. -/
def Subkey.display : Subkey → List Char
  | .key name =>
    if Subkey.isBare name.toList then name.toList
    else '[' :: '\'' :: (name.toList.flatMap escape ++ ['\'', ']'])
  | .index i => '[' :: (Nat.toDigits 10 i.toNat ++ [']'])

/-- A path as it is written; a leading dot is never emitted. -/
def SubkeyPath.display (path : SubkeyPath) : String :=
  String.ofList (path.segments.zipIdx.flatMap fun (segment, i) =>
    (if 0 < i ∧ segment.isDotted then ['.'] else []) ++ segment.display)

/-! ## Reading -/

/-- Why a path could not be read from text. -/
inductive PathParseError where
  | empty
  | emptyKey (text : String)
  | unclosedBracket (text : String)
  | badIndex (selector : String)
  | unclosedString (text : String)
  | badEscape (seq : String)
deriving DecidableEq

/-- What the error says. -/
def PathParseError.display : PathParseError → String
  | .empty => "a path needs at least one segment"
  | .emptyKey text => text ++ " has an empty key"
  | .unclosedBracket text => text ++ " has an unclosed ["
  | .badIndex index => "[" ++ index ++ "] is not a whole number under 2^32; a key in brackets is quoted, ['" ++ index ++ "']"
  | .unclosedString text => text ++ " has an unclosed quote"
  | .badEscape seq => seq ++ " is not an escape"

/-- What slicing off a character boundary panics with. -/
def notBoundary : String := "byte index is not a char boundary"

/-- The blanks RFC 9535 allows inside brackets (`BLANK`). -/
def blank (c : Char) : Bool := [' ', '\t', '\n', '\r'].contains c

/-- What opens a quoted key. -/
def isQuote (c : Char) : Bool := c = '\'' || c = '"'

/-- `char::is_ascii_hexdigit`; a byte of a longer character is none. -/
def isAsciiHexdigit (c : Char) : Bool := ('0' ≤ c && c ≤ '9') || ('a' ≤ c && c ≤ 'f') || ('A' ≤ c && c ≤ 'F')

/-- `char::from_u32` -/
def charFromU32 (n : Nat) : Option Char := if n.isValidChar then some (Char.ofNat n) else none

/-- `0xD800..=0xDBFF` -/
def highSurrogate (n : Nat) : Bool := 0xD800 ≤ n && n ≤ 0xDBFF

/-- `0xDC00..=0xDFFF` -/
def lowSurrogate (n : Nat) : Bool := 0xDC00 ≤ n && n ≤ 0xDFFF

/-- The code point two surrogates stand for. -/
def surrogatePair (high low : Nat) : Nat := 0x10000 + (high - 0xD800) * 2 ^ 10 + (low - 0xDC00)

/-- The four hex digits at a byte offset. -/
def unescapeUnit (rest : List Char) (n : Nat) : Option Nat :=
  ((get rest n (n + 4)).filter fun hex => hex.all isAsciiHexdigit).bind (parseUnsigned 16 (2 ^ 16))

/-- Reads the digits of a unicode escape, and the low surrogate a high one must be followed by, from the
front of `rest`: the character and how many characters were consumed (`unescape_unicode`). -/
def unescapeUnicode (rest : List Char) : Res PathParseError (Option (Char × Nat)) :=
  match unescapeUnit rest 0 with
  | none => .ok none
  | some high =>
    if highSurrogate high then do
      let tail ← Res.expect (sliceFrom rest 4) notBoundary
      let low := if ['\\', 'u'].isPrefixOf tail then (unescapeUnit rest 6).filter lowSurrogate else none
      .ok (low.bind fun low => (charFromU32 (surrogatePair high low)).map fun c => (c, 10))
    else if lowSurrogate high then .ok none
    else .ok ((charFromU32 high).map fun c => (c, 4))

/-- The character an escape stands for and how many characters it spans after its first; its backslash
is at byte `n` of `body`. -/
def unescape (body : List Char) (n : Nat) (escaped : Char) : Res PathParseError (Char × Nat) :=
  if ['\'', '"', '\\', '/'].contains escaped then .ok (escaped, 0)
  else if escaped = 'b' then .ok ('\x08', 0)
  else if escaped = 'f' then .ok ('\x0c', 0)
  else if escaped = 'n' then .ok ('\n', 0)
  else if escaped = 'r' then .ok ('\r', 0)
  else if escaped = 't' then .ok ('\t', 0)
  else if escaped = 'u' then do
    let rest ← Res.expect (sliceFrom body (n + 2)) notBoundary
    let read ← unescapeUnicode rest
    Res.okOr read (.badEscape (String.ofList ('\\' :: 'u' :: rest.take 4)))
  else Res.fail (.badEscape (String.ofList ['\\', escaped]))

/-- The loop of `unquote`: the key so far and the characters still to come. -/
def unquoteLoop (body : List Char) (quote : Char) (text : String) :
    Nat → List Char → List (Nat × Char) → Res PathParseError (List Char × List Char)
  | 0, _, _ => .error .hang
  | _ + 1, _, [] => Res.fail (.unclosedString text)
  | fuel + 1, key, (n, c) :: chars =>
    if c = quote then do
      let after ← Res.expect (sliceFrom body (n + c.utf8Size)) notBoundary
      .ok (key, after)
    else if c = '\\' then
      match chars with
      | [] => Res.fail (.unclosedString text)
      | (_, escaped) :: chars => do
        let (c, consumed) ← unescape body n escaped
        -- Advance past what the escape spanned.
        unquoteLoop body quote text fuel (key ++ [c]) (chars.drop consumed)
    else unquoteLoop body quote text fuel (key ++ [c]) chars

/-- Reads a quoted key up to its closing `quote`, and yields it with the text after the quote. -/
def unquote (body : List Char) (quote : Char) (text : String) : Res PathParseError (List Char × List Char) :=
  unquoteLoop body quote text (body.length + 1) [] (charIndices 0 body)

/-- Reads what follows an opening bracket through the closing one: the segment, and the text after it
(`parse_bracket`). -/
def parseBracket (inner : List Char) (text : String) : Res PathParseError (Subkey × List Char) :=
  let inner := inner.dropWhile blank
  match inner.head?.filter isQuote with
  | some quote => do
    let body ← Res.expect (sliceFrom inner quote.utf8Size) notBoundary
    let (key, after) ← unquote body quote text
    let after ← Res.okOr (stripPrefix ']' (after.dropWhile blank)) (.unclosedBracket text)
    .ok (.key (String.ofList key), after)
  | none => do
    let (selector, after) ← Res.okOr (splitOnce ']' inner) (.unclosedBracket text)
    let selector := trimMatches blank selector
    -- A `u32` never carries a sign or blanks; `parse` would take a `+`.
    let index ← Res.okOr (if selector.all Char.isDigit then parseUnsigned 10 (2 ^ 32) selector else none)
      (.badIndex (String.ofList selector))
    .ok (.index (UInt32.ofNat index), after)

/-- What ends a bare key. -/
def structural (c : Char) : Bool := c = '.' || c = '['

/-- A bare key off the front of `body`, and the text after it. -/
def readKey (text : String) (body : List Char) : Res PathParseError (Subkey × List Char) := do
  let (key, after) ← Res.expect (splitAt body ((find structural body).getD (size body))) notBoundary
  if key.isEmpty then Res.fail (.emptyKey text) else .ok (.key (String.ofList key), after)

/-- One segment off the front of `rest`, and the text after it. -/
def readSegment (text : String) (rooted first : Bool) (rest : List Char) : Res PathParseError (Subkey × List Char) :=
  match stripPrefix '[' rest with
  | some inner => parseBracket inner text
  | none =>
    -- A dot introduces every key but the first, and the first too, once a `$` stands before it.
    match stripPrefix '.' rest with
    | some after => if first && !rooted then Res.fail (.emptyKey text) else readKey text after
    | none => readKey text rest

/-- The loop of `from_str`: the segments so far and the text still to come. -/
def fromStrLoop (text : String) (rooted : Bool) :
    Nat → Bool → List Subkey → List Char → Res PathParseError (List Subkey)
  | 0, _, _, _ => .error .hang
  | fuel + 1, first, segments, rest =>
    if rest.isEmpty then .ok segments
    else do
      let (segment, after) ← readSegment text rooted first rest
      fromStrLoop text rooted fuel false (segments ++ [segment]) after

/-- What follows the root, and whether there is one: a `$` alone, or before a dot or a bracket. -/
def root (text : List Char) : List Char × Bool :=
  match stripPrefix '$' text with
  | some after => if after.isEmpty || (after.head?.any structural) then (after, true) else (text, false)
  | none => (text, false)

/-- Reads a path (`SubkeyPath::from_str`). -/
def SubkeyPath.fromStr (text : String) : Res PathParseError SubkeyPath := do
  let (rest, rooted) := root text.toList
  let segments ← fromStrLoop text rooted (rest.length + 1) true [] rest
  if h : segments ≠ [] then .ok ⟨segments, h⟩ else Res.fail .empty

end IrohLotus.Wire
