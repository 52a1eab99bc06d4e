/-
What a path may be written as. The grammar is the one `from_str` documents; beside it stands the one
the parser reads, which also lets a bare key follow a closing bracket without its dot. Each scanner
is shown to read exactly its part of the grammar, and what is written is shown to read back.
-/
import IrohLotus.Wire.Path

namespace IrohLotus.Wire

open Outcome Text

/-! ## The grammar -/

/-- Four hex digits. -/
structure Hex4 (s : List Char) : Prop where
  length : s.length = 4
  digits : ∀ c ∈ s, isAsciiHexdigit c

/-- The escapes of one character, each with what it stands for. -/
def escapes : List (Char × Char) :=
  [('\'', '\''), ('"', '"'), ('\\', '\\'), ('/', '/'), ('b', '\x08'), ('f', '\x0c'), ('n', '\n'), ('r', '\r'), ('t', '\t')]

/-- What follows a backslash in a quoted key, and the character the escape stands for. -/
inductive Escape : List Char → Char → Prop where
  | short {e c : Char} (h : (e, c) ∈ escapes) : Escape [e] c
  | unit {hex : List Char} (h : Hex4 hex) (hhigh : ¬highSurrogate (numeral 16 hex)) (hlow : ¬lowSurrogate (numeral 16 hex)) :
      Escape ('u' :: hex) (Char.ofNat (numeral 16 hex))
  | pair {high low : List Char} (h : Hex4 high) (h' : Hex4 low) (hhigh : highSurrogate (numeral 16 high))
      (hlow : lowSurrogate (numeral 16 low)) :
      Escape ('u' :: (high ++ '\\' :: 'u' :: low)) (Char.ofNat (surrogatePair (numeral 16 high) (numeral 16 low)))

/-- What stands between two quotes, and the key it spells. -/
inductive Quoted (quote : Char) : List Char → List Char → Prop where
  | nil : Quoted quote [] []
  | char {c : Char} {t key : List Char} (hquote : c ≠ quote) (hescape : c ≠ '\\') (rest : Quoted quote t key) :
      Quoted quote (c :: t) (c :: key)
  | escape {e t key : List Char} {c : Char} (h : Escape e c) (rest : Quoted quote t key) :
      Quoted quote ('\\' :: (e ++ t)) (c :: key)

def Blank (s : List Char) : Prop := ∀ c ∈ s, blank c

/-- What stands between two brackets, and the segment it spells: an index or a quoted key, with blanks
allowed around it. -/
inductive Bracket : List Char → Subkey → Prop where
  | index {l digits r : List Char} (hl : Blank l) (hr : Blank r) (hne : digits ≠ []) (hdigits : ∀ c ∈ digits, c.isDigit)
      (hlt : numeral 10 digits < 2 ^ 32) : Bracket (l ++ (digits ++ r)) (.index (UInt32.ofNat (numeral 10 digits)))
  | key {l t key r : List Char} {quote : Char} (hl : Blank l) (hr : Blank r) (hquote : isQuote quote)
      (h : Quoted quote t key) : Bracket (l ++ quote :: (t ++ quote :: r)) (.key (String.ofList key))

/-- A bare key: not empty, and free of dots and opening brackets. -/
structure Bare (key : List Char) : Prop where
  nonempty : key ≠ []
  free : ∀ c ∈ key, structural c = false

/-- What may follow a segment: brackets, and bare keys each after its dot. -/
inductive Tail : List Char → List Subkey → Prop where
  | nil : Tail [] []
  | bracket {t u : List Char} {segment : Subkey} {segments : List Subkey} (h : Bracket t segment) (rest : Tail u segments) :
      Tail ('[' :: (t ++ ']' :: u)) (segment :: segments)
  | dotted {key u : List Char} {segments : List Subkey} (h : Bare key) (rest : Tail u segments) :
      Tail ('.' :: (key ++ u)) (.key (String.ofList key) :: segments)

/-- A path as text, and the segments it denotes: an optional root, and at least one segment, of which
only an unrooted first one is a bare key without a dot. -/
inductive Spells : List Char → List Subkey → Prop where
  | rooted {t : List Char} {segments : List Subkey} (h : Tail t segments) (hne : segments ≠ []) : Spells ('$' :: t) segments
  | bracket {t u : List Char} {segment : Subkey} {segments : List Subkey} (h : Bracket t segment) (rest : Tail u segments) :
      Spells ('[' :: (t ++ ']' :: u)) (segment :: segments)
  | bare {key u : List Char} {segments : List Subkey} (h : Bare key) (hroot : key ≠ ['$']) (rest : Tail u segments) :
      Spells (key ++ u) (.key (String.ofList key) :: segments)

/-- A key written bare, and whether it stands directly after a closing bracket. -/
structure BareKey where
  text : List Char
  joined : Bool
deriving DecidableEq

/-- `Tail`, where a bare key may also follow a closing bracket directly: `closed` says that one stands
before this text. With the bare keys in it. -/
inductive Rest : Bool → List Char → List Subkey → List BareKey → Prop where
  | nil {closed : Bool} : Rest closed [] [] []
  | bracket {closed : Bool} {t u : List Char} {segment : Subkey} {segments : List Subkey} {bares : List BareKey}
      (h : Bracket t segment) (rest : Rest true u segments bares) :
      Rest closed ('[' :: (t ++ ']' :: u)) (segment :: segments) bares
  | dotted {closed : Bool} {key u : List Char} {segments : List Subkey} {bares : List BareKey}
      (h : Bare key) (rest : Rest false u segments bares) :
      Rest closed ('.' :: (key ++ u)) (.key (String.ofList key) :: segments) (⟨key, false⟩ :: bares)
  | joined {key u : List Char} {segments : List Subkey} {bares : List BareKey}
      (h : Bare key) (rest : Rest false u segments bares) :
      Rest true (key ++ u) (.key (String.ofList key) :: segments) (⟨key, true⟩ :: bares)

/-- `Spells`, where a bare key may also follow a closing bracket directly. -/
inductive ReadsAs : List Char → List Subkey → List BareKey → Prop where
  | rooted {t : List Char} {segments : List Subkey} {bares : List BareKey} (h : Rest false t segments bares)
      (hne : segments ≠ []) : ReadsAs ('$' :: t) segments bares
  | bracket {t u : List Char} {segment : Subkey} {segments : List Subkey} {bares : List BareKey}
      (h : Bracket t segment) (rest : Rest true u segments bares) :
      ReadsAs ('[' :: (t ++ ']' :: u)) (segment :: segments) bares
  | bare {key u : List Char} {segments : List Subkey} {bares : List BareKey} (h : Bare key) (hroot : key ≠ ['$'])
      (rest : Rest false u segments bares) :
      ReadsAs (key ++ u) (.key (String.ofList key) :: segments) (⟨key, false⟩ :: bares)

/-- A path but for a bare key that stands directly after a closing bracket, without its dot. -/
def Joins (text : List Char) : Prop := ∃ segments bares, ReadsAs text segments bares ∧ ∃ key ∈ bares, key.joined = true

/-! ## Hex digits -/

theorem hexdigit_cases {c : Char} (h : isAsciiHexdigit c) :
    (48 ≤ c.toNat ∧ c.toNat ≤ 57) ∨ (97 ≤ c.toNat ∧ c.toNat ≤ 102) ∨ (65 ≤ c.toNat ∧ c.toNat ≤ 70) := by
  simp only [isAsciiHexdigit, Bool.or_eq_true, Bool.and_eq_true, decide_eq_true_eq, Char.le_def, UInt32.le_iff_toNat_le,
    Char.toNat_val] at h
  change (48 ≤ c.toNat ∧ c.toNat ≤ 57 ∨ 97 ≤ c.toNat ∧ c.toNat ≤ 102) ∨ 65 ≤ c.toNat ∧ c.toNat ≤ 70 at h
  omega

theorem utf8Size_hexdigit {c : Char} (h : isAsciiHexdigit c) : c.utf8Size = 1 := by
  rw [Char.utf8Size_eq_one_iff, UInt32.le_iff_toNat_le, Char.toNat_val]
  change c.toNat ≤ 127
  have := hexdigit_cases h
  omega

theorem digit_hexdigit {c : Char} (h : isAsciiHexdigit c) : (digit 16 c).isSome := by
  have hcases := hexdigit_cases h
  simp only [digit, Char.le_def, UInt32.le_iff_toNat_le, Char.toNat_val]
  change Option.isSome (if (if 48 ≤ c.toNat ∧ c.toNat ≤ 57 then c.toNat - 48 else if 97 ≤ c.toNat ∧ c.toNat ≤ 122 then
    c.toNat - 87 else if 65 ≤ c.toNat ∧ c.toNat ≤ 90 then c.toNat - 55 else 16) < 16 then _ else none)
  rw [if_pos (by split_ifs <;> omega)]
  rfl

theorem Hex4.size_eq {s : List Char} (h : Hex4 s) : size s = 4 := by
  rw [size_eq_length fun c hc => utf8Size_hexdigit (h.digits c hc), h.length]

theorem Hex4.ne_nil {s : List Char} (h : Hex4 s) : s ≠ [] := fun he => by
  have hlength := h.length
  rw [he] at hlength
  cases hlength

theorem Hex4.numeral_lt {s : List Char} (h : Hex4 s) : numeral 16 s < 2 ^ 16 := by
  have hlt : numeral 16 s < 16 ^ s.length := Text.numeral_lt (by decide) s
  rwa [h.length] at hlt

/-- Four hex digits read as the number they spell. -/
theorem unescapeUnit_append {hex : List Char} (h : Hex4 hex) (a u : List Char) :
    unescapeUnit (a ++ (hex ++ u)) (size a) = some (numeral 16 hex) := by
  have hget : get (a ++ (hex ++ u)) (size a) (size a + 4) = some hex := h.size_eq ▸ get_append a hex u
  have hall : (some hex).filter (fun hex => hex.all isAsciiHexdigit) = some hex :=
    Option.filter_some_pos (List.all_eq_true.2 h.digits)
  have hparse : parseUnsigned 16 (2 ^ 16) hex = if numeral 16 hex < 2 ^ 16 then some (numeral 16 hex) else none :=
    parseUnsigned_digits h.ne_nil fun c hc => digit_hexdigit (h.digits c hc)
  rw [unescapeUnit, hget, hall, Option.bind_some, hparse, if_pos h.numeral_lt]

theorem unescapeUnit_eq_some {rest : List Char} {n v : Nat} (h : unescapeUnit rest n = some v) :
    ∃ a hex u, rest = a ++ (hex ++ u) ∧ size a = n ∧ Hex4 hex ∧ v = numeral 16 hex := by
  obtain ⟨hex, hfilter, hparse⟩ := Option.bind_eq_some_iff.1 h
  obtain ⟨hget, hall⟩ := Option.filter_eq_some_iff.1 hfilter
  obtain ⟨a, u, hrest, ha, hsize⟩ := get_eq_some hget
  have hdigits : ∀ c ∈ hex, isAsciiHexdigit c := List.all_eq_true.1 hall
  have hlength : hex.length = 4 := by
    rw [← size_eq_length fun c hc => utf8Size_hexdigit (hdigits c hc)]
    omega
  have hhex : Hex4 hex := ⟨hlength, hdigits⟩
  refine ⟨a, hex, u, hrest, ha, hhex, ?_⟩
  rw [parseUnsigned_digits hhex.ne_nil fun c hc => digit_hexdigit (hdigits c hc), if_pos hhex.numeral_lt] at hparse
  exact (Option.some.inj hparse).symm

/-! ## Escapes -/

theorem charFromU32_of_unit {n : Nat} (hlt : n < 2 ^ 16) (hhigh : ¬highSurrogate n) (hlow : ¬lowSurrogate n) :
    charFromU32 n = some (Char.ofNat n) := by
  simp only [highSurrogate, lowSurrogate, Bool.and_eq_true, decide_eq_true_eq] at hhigh hlow
  have hvalid : n.isValidChar := by
    unfold Nat.isValidChar
    omega
  rw [charFromU32, if_pos hvalid]

theorem charFromU32_of_pair {high low : Nat} (hhigh : highSurrogate high) (hlow : lowSurrogate low) :
    charFromU32 (surrogatePair high low) = some (Char.ofNat (surrogatePair high low)) := by
  simp only [highSurrogate, lowSurrogate, Bool.and_eq_true, decide_eq_true_eq] at hhigh hlow
  have hvalid : (surrogatePair high low).isValidChar := by
    unfold Nat.isValidChar surrogatePair
    omega
  rw [charFromU32, if_pos hvalid]

/-- The escape of one unit. -/
theorem unescapeUnicode_unit {hex : List Char} (h : Hex4 hex) (hhigh : ¬highSurrogate (numeral 16 hex))
    (hlow : ¬lowSurrogate (numeral 16 hex)) (u : List Char) :
    unescapeUnicode (hex ++ u) = .ok (some (Char.ofNat (numeral 16 hex), 4)) := by
  have hunit : unescapeUnit (hex ++ u) 0 = some (numeral 16 hex) := unescapeUnit_append h [] u
  simp only [unescapeUnicode, hunit]
  rw [if_neg hhigh, if_neg hlow, charFromU32_of_unit h.numeral_lt hhigh hlow]
  rfl

/-- After a high surrogate a second unit is read. -/
theorem unescapeUnicode_high {rest tail : List Char} {high : Nat} (hhigh : highSurrogate high)
    (hunit : unescapeUnit rest 0 = some high) (htail : sliceFrom rest 4 = some tail) :
    unescapeUnicode rest =
      .ok ((if ['\\', 'u'].isPrefixOf tail then (unescapeUnit rest 6).filter lowSurrogate else none).bind fun low =>
        (charFromU32 (surrogatePair high low)).map fun c => (c, 10)) := by
  simp only [unescapeUnicode, hunit]
  rw [if_pos hhigh, htail, Res.expect_some, Res.ok_bind]

/-- The escape of a surrogate pair. -/
theorem unescapeUnicode_pair {high low : List Char} (h : Hex4 high) (h' : Hex4 low) (hhigh : highSurrogate (numeral 16 high))
    (hlow : lowSurrogate (numeral 16 low)) (u : List Char) :
    unescapeUnicode (high ++ '\\' :: 'u' :: (low ++ u)) =
      .ok (some (Char.ofNat (surrogatePair (numeral 16 high) (numeral 16 low)), 10)) := by
  have hunit : unescapeUnit (high ++ '\\' :: 'u' :: (low ++ u)) 0 = some (numeral 16 high) := unescapeUnit_append h [] _
  have htail : sliceFrom (high ++ '\\' :: 'u' :: (low ++ u)) 4 = some ('\\' :: 'u' :: (low ++ u)) :=
    h.size_eq ▸ sliceFrom_append high _
  have hunit' : unescapeUnit (high ++ '\\' :: 'u' :: (low ++ u)) 6 = some (numeral 16 low) := by
    have hsize : size (high ++ ['\\', 'u']) = 6 := by rw [size_append, h.size_eq]; rfl
    have hread := unescapeUnit_append h' (high ++ ['\\', 'u']) u
    rwa [hsize, List.append_assoc] at hread
  have hprefix : ['\\', 'u'].isPrefixOf ('\\' :: 'u' :: (low ++ u)) = true := by simp
  rw [unescapeUnicode_high hhigh hunit htail, if_pos hprefix, hunit', Option.filter_some_pos hlow, Option.bind_some,
    charFromU32_of_pair hhigh hlow, Option.map_some]

/-- Two ways to cut a text at one offset are the same. -/
theorem unescapeUnit_at {a u : List Char} {v : Nat} (h : unescapeUnit (a ++ u) (size a) = some v) :
    ∃ hex t, u = hex ++ t ∧ Hex4 hex ∧ v = numeral 16 hex := by
  obtain ⟨a', hex, t, hrest, ha, hhex, hv⟩ := unescapeUnit_eq_some h
  have hcut := splitAt_append a' (hex ++ t)
  rw [← hrest, ha, splitAt_append] at hcut
  cases hcut
  exact ⟨hex, t, rfl, hhex, hv⟩

/-- Whatever is read of a unicode escape is one of the grammar. -/
theorem unescapeUnicode_ensures (rest : List Char) :
    (unescapeUnicode rest).Ensures fun read => ∀ c n, read = some (c, n) →
      ∃ e u, rest = e ++ u ∧ e.length = n ∧ Escape ('u' :: e) c := by
  unfold unescapeUnicode
  cases hunit : unescapeUnit rest 0 with
  | none => exact fun c n h => by cases h
  | some v =>
    obtain ⟨high, u, rfl, hhex, rfl⟩ := unescapeUnit_at (a := []) hunit
    dsimp only
    split
    · next hhigh =>
      have htail : sliceFrom (high ++ u) 4 = some u := hhex.size_eq ▸ sliceFrom_append high u
      rw [htail, Res.expect_some, Res.ok_bind]
      intro c n hread
      obtain ⟨low, hfound, hread⟩ := Option.bind_eq_some_iff.1 hread
      split at hfound
      · next hprefix =>
        obtain ⟨u', rfl⟩ := List.isPrefixOf_iff_prefix.1 hprefix
        obtain ⟨hunit', hlow⟩ := Option.filter_eq_some_iff.1 hfound
        have hsize : size (high ++ ['\\', 'u']) = 6 := by rw [size_append, hhex.size_eq]; rfl
        rw [← hsize, ← List.append_assoc] at hunit'
        obtain ⟨low, t, rfl, hhex', rfl⟩ := unescapeUnit_at hunit'
        rw [charFromU32_of_pair hhigh hlow, Option.map_some, Option.some.injEq, Prod.mk.injEq] at hread
        obtain ⟨rfl, rfl⟩ := hread
        refine ⟨high ++ '\\' :: 'u' :: low, t, by simp, ?_, .pair hhex hhex' hhigh hlow⟩
        simp [hhex.length, hhex'.length]
      · cases hfound
    · next hhigh =>
      split
      · exact fun c n h => by cases h
      · next hlow =>
        intro c n hread
        rw [charFromU32_of_unit hhex.numeral_lt hhigh hlow] at hread
        cases hread
        exact ⟨high, u, rfl, hhex.length, .unit hhex hhigh hlow⟩

theorem unescape_short {e c : Char} (h : (e, c) ∈ escapes) (body : List Char) (n : Nat) :
    unescape body n e = .ok (c, 0) := by
  have hall : ∀ p ∈ escapes, unescape body n p.1 = .ok (p.2, 0) := by simp [escapes, unescape]
  exact hall (e, c) h

/-- After the two characters that open a unicode escape. -/
theorem sliceFrom_unicode (pre u : List Char) : sliceFrom (pre ++ '\\' :: 'u' :: u) (size pre + 2) = some u := by
  have hsize : size (pre ++ ['\\', 'u']) = size pre + 2 := by rw [size_append]; rfl
  have hcut := sliceFrom_append (pre ++ ['\\', 'u']) u
  rwa [hsize, List.append_assoc] at hcut

theorem unescape_unicode (pre u : List Char) :
    unescape (pre ++ '\\' :: 'u' :: u) (size pre) 'u' = unescapeUnicode u >>= fun read =>
      Res.okOr read (.badEscape (String.ofList ('\\' :: 'u' :: u.take 4))) := by
  have hnot : ¬['\'', '"', '\\', '/'].contains 'u' = true := by decide
  rw [unescape, if_neg hnot, if_neg (by decide), if_neg (by decide), if_neg (by decide), if_neg (by decide),
    if_neg (by decide), if_pos rfl, sliceFrom_unicode, Res.expect_some, Res.ok_bind]

/-- An escape of the grammar is read as the character it stands for. -/
theorem unescape_append {e₀ c : Char} {e : List Char} (h : Escape (e₀ :: e) c) (pre u : List Char) :
    unescape (pre ++ '\\' :: e₀ :: (e ++ u)) (size pre) e₀ = .ok (c, e.length) := by
  cases h with
  | short hmem => exact unescape_short hmem _ _
  | unit hhex hhigh hlow =>
    rw [unescape_unicode, unescapeUnicode_unit hhex hhigh hlow, Res.ok_bind, Res.okOr_some, hhex.length]
  | @pair high low hhex hhex' hhigh hlow =>
    have hlength : (high ++ '\\' :: 'u' :: low).length = 10 := by simp [hhex.length, hhex'.length]
    rw [unescape_unicode, List.append_assoc, List.cons_append, List.cons_append,
      unescapeUnicode_pair hhex hhex' hhigh hlow, Res.ok_bind, Res.okOr_some, hlength]

theorem unescape_ensures (pre tail : List Char) (e₀ : Char) :
    (unescape (pre ++ '\\' :: e₀ :: tail) (size pre) e₀).Ensures fun read =>
      ∃ e u, tail = e ++ u ∧ e.length = read.2 ∧ Escape (e₀ :: e) read.1 := by
  have hshort : ∀ c, (e₀, c) ∈ escapes → ∃ e u, tail = e ++ u ∧ e.length = 0 ∧ Escape (e₀ :: e) c := fun c h =>
    ⟨[], tail, rfl, rfl, .short h⟩
  by_cases hu : e₀ = 'u'
  · subst hu
    rw [unescape_unicode]
    refine (unescapeUnicode_ensures tail).bind fun read hread => (Res.ensures_okOr read _).mono fun found hfound => ?_
    exact hread found.1 found.2 hfound
  · unfold unescape
    split
    · next hsame =>
      have hmem : (e₀, e₀) ∈ escapes := by
        simp only [List.contains_eq_mem, List.mem_cons, List.not_mem_nil, or_false, decide_eq_true_eq] at hsame
        rcases hsame with rfl | rfl | rfl | rfl <;> decide
      exact hshort e₀ hmem
    split
    · next h => exact h ▸ hshort _ (h ▸ by decide)
    split
    · next h => exact hshort _ (h ▸ by decide)
    split
    · next h => exact hshort _ (h ▸ by decide)
    split
    · next h => exact hshort _ (h ▸ by decide)
    split
    · next h => exact hshort _ (h ▸ by decide)
    trivial

/-! ## Quoted keys -/

section Loop

variable (body : List Char) (quote : Char) (text : String) (fuel : Nat) (key : List Char) (n : Nat) (chars : List (Nat × Char))

theorem unquoteLoop_quote : unquoteLoop body quote text (fuel + 1) key ((n, quote) :: chars) =
    Res.expect (sliceFrom body (n + quote.utf8Size)) notBoundary >>= fun after => .ok (key, after) := if_pos rfl

theorem unquoteLoop_escape {quote : Char} (h : quote ≠ '\\') (m : Nat) (escaped : Char) :
    unquoteLoop body quote text (fuel + 1) key ((n, '\\') :: (m, escaped) :: chars) =
      unescape body n escaped >>= fun read =>
        unquoteLoop body quote text fuel (key ++ [read.1]) (chars.drop read.2) :=
  (if_neg h.symm).trans (if_pos rfl)

theorem unquoteLoop_char {quote c : Char} (h : c ≠ quote) (h' : c ≠ '\\') :
    unquoteLoop body quote text (fuel + 1) key ((n, c) :: chars) = unquoteLoop body quote text fuel (key ++ [c]) chars :=
  (if_neg h).trans (if_neg h')

theorem unquoteLoop_open {quote : Char} (h : quote ≠ '\\') :
    unquoteLoop body quote text (fuel + 1) key [(n, '\\')] = Res.fail (.unclosedString text) :=
  (if_neg h.symm).trans (if_pos rfl)

end Loop

theorem size_escape (pre e : List Char) (e₀ : Char) :
    size (pre ++ '\\' :: e₀ :: e) = size pre + '\\'.utf8Size + e₀.utf8Size + size e := by
  rw [size_append, size_cons, size_cons]
  omega

theorem sliceFrom_quote (pre u : List Char) (quote : Char) : sliceFrom (pre ++ quote :: u) (size pre + quote.utf8Size) = some u := by
  have hcut := sliceFrom_append (pre ++ [quote]) u
  rwa [size_append, size_cons, size_nil, Nat.add_zero, List.append_assoc] at hcut

/-- The loop reads what is left of a quoted key, and stops after its quote. -/
theorem unquoteLoop_append {quote : Char} (hquote : quote ≠ '\\') (text : String) {t key : List Char}
    (h : Quoted quote t key) (u : List Char) : ∀ (fuel : Nat) (pre before : List Char), t.length < fuel →
      unquoteLoop (pre ++ (t ++ quote :: u)) quote text fuel before (charIndices (size pre) (t ++ quote :: u)) =
        .ok (before ++ key, u) := by
  induction h with
  | nil =>
    intro fuel pre before hfuel
    obtain ⟨fuel, rfl⟩ := Nat.exists_eq_succ_of_ne_zero (Nat.ne_of_gt hfuel)
    rw [List.nil_append, charIndices, unquoteLoop_quote, sliceFrom_quote, Res.expect_some, Res.ok_bind, List.append_nil]
  | @char c t key hne hescape rest ih =>
    intro fuel pre before hfuel
    obtain ⟨fuel, rfl⟩ := Nat.exists_eq_succ_of_ne_zero (Nat.ne_of_gt (Nat.zero_lt_of_lt hfuel))
    have hnext := ih fuel (pre ++ [c]) (before ++ [c]) (Nat.lt_of_succ_lt_succ hfuel)
    rw [size_append, size_cons, size_nil, Nat.add_zero, List.append_assoc, List.append_assoc] at hnext
    rw [List.cons_append, charIndices, unquoteLoop_char _ _ _ _ _ _ hne hescape]
    simpa using hnext
  | @escape e t key c hescape rest ih =>
    intro fuel pre before hfuel
    obtain ⟨fuel, rfl⟩ := Nat.exists_eq_succ_of_ne_zero (Nat.ne_of_gt (Nat.zero_lt_of_lt hfuel))
    obtain ⟨e₀, e, rfl⟩ : ∃ e₀ e', e = e₀ :: e' := by cases hescape <;> exact ⟨_, _, rfl⟩
    have hread := unescape_append hescape pre (t ++ quote :: u)
    have hdrop := drop_charIndices e (t ++ quote :: u) (size pre + '\\'.utf8Size + e₀.utf8Size)
    have hlt : t.length < fuel := by
      simp only [List.length_cons, List.length_append] at hfuel
      omega
    have hnext := ih fuel (pre ++ '\\' :: e₀ :: e) (before ++ [c]) hlt
    rw [size_escape] at hnext
    simp only [List.append_assoc, List.cons_append, List.nil_append] at hnext ⊢
    rw [charIndices, charIndices, unquoteLoop_escape _ _ _ _ _ _ hquote, hread, Res.ok_bind, hdrop]
    exact hnext

theorem unquote_append {quote : Char} (hquote : quote ≠ '\\') (text : String) {t key : List Char}
    (h : Quoted quote t key) (u : List Char) : unquote (t ++ quote :: u) quote text = .ok (key, u) :=
  unquoteLoop_append hquote text h u _ [] [] (by rw [List.length_append]; omega)

theorem unquoteLoop_ensures (quote : Char) (text : String) : ∀ (fuel : Nat) (pre rest before : List Char), rest.length < fuel →
    (unquoteLoop (pre ++ rest) quote text fuel before (charIndices (size pre) rest)).Ensures fun read =>
      ∃ t key, rest = t ++ quote :: read.2 ∧ Quoted quote t key ∧ read.1 = before ++ key
  | 0, _, _, _, hfuel => absurd hfuel (Nat.not_lt_zero _)
  | fuel + 1, pre, [], before, _ => trivial
  | fuel + 1, pre, c :: rest, before, hfuel => by
    rw [charIndices]
    by_cases hquote : c = quote
    · subst hquote
      rw [unquoteLoop_quote, sliceFrom_quote, Res.expect_some, Res.ok_bind]
      exact ⟨[], [], rfl, .nil, (List.append_nil before).symm⟩
    by_cases hescape : c = '\\'
    · subst hescape
      cases rest with
      | nil =>
        rw [charIndices, unquoteLoop_open _ _ _ _ _ (Ne.symm hquote)]
        trivial
      | cons e₀ tail =>
        rw [charIndices, unquoteLoop_escape _ _ _ _ _ _ (Ne.symm hquote)]
        refine (unescape_ensures pre tail e₀).bind fun read hread => ?_
        obtain ⟨e, rest, rfl, hlength, hspell⟩ := hread
        have hlt : rest.length < fuel := by
          simp only [List.length_cons, List.length_append] at hfuel
          omega
        have hnext := unquoteLoop_ensures quote text fuel (pre ++ '\\' :: e₀ :: e) rest (before ++ [read.1]) hlt
        rw [size_escape, List.append_assoc, List.cons_append, List.cons_append] at hnext
        rw [← hlength, drop_charIndices]
        refine hnext.mono ?_
        rintro out ⟨t, key, rfl, hkey, hout⟩
        refine ⟨'\\' :: (e₀ :: e ++ t), read.1 :: key, by simp, .escape hspell hkey, ?_⟩
        rw [hout, List.append_assoc]
        rfl
    · have hnext := unquoteLoop_ensures quote text fuel (pre ++ [c]) rest (before ++ [c]) (Nat.lt_of_succ_lt_succ hfuel)
      rw [size_append, size_cons, size_nil, Nat.add_zero, List.append_assoc] at hnext
      rw [unquoteLoop_char _ _ _ _ _ _ hquote hescape]
      refine hnext.mono ?_
      rintro read ⟨t, key, rfl, hkey, hread⟩
      exact ⟨c :: t, c :: key, rfl, .char hquote hescape hkey, by rw [hread, List.append_assoc]; rfl⟩

theorem unquote_ensures (body : List Char) (quote : Char) (text : String) :
    (unquote body quote text).Ensures fun read => ∃ t, body = t ++ quote :: read.2 ∧ Quoted quote t read.1 := by
  refine (unquoteLoop_ensures quote text (body.length + 1) [] body [] (Nat.lt_succ_self _)).mono ?_
  rintro read ⟨t, key, hbody, hkey, hread⟩
  exact ⟨t, hbody, hread ▸ hkey⟩

/-! ## Brackets -/

theorem isQuote_cases {c : Char} (h : isQuote c) : c = '\'' ∨ c = '"' := by simpa [isQuote] using h

theorem blank_cases {c : Char} (h : blank c) : c = ' ' ∨ c = '\t' ∨ c = '\n' ∨ c = '\r' := by simpa [blank] using h

theorem exists_blank (s : List Char) : ∃ l, Blank l ∧ s = l ++ s.dropWhile blank :=
  ⟨s.takeWhile blank, fun _ => List.mem_takeWhile_imp, List.takeWhile_append_dropWhile.symm⟩

theorem blank_of_isQuote {c : Char} (h : isQuote c) : blank c = false := by
  rcases isQuote_cases h with rfl | rfl <;> decide

theorem blank_of_isDigit {c : Char} (h : c.isDigit) : blank c = false := by
  refine Bool.eq_false_of_not_eq_true fun hblank => ?_
  rcases blank_cases hblank with rfl | rfl | rfl | rfl <;> exact absurd h (by decide)

theorem isQuote_of_isDigit {c : Char} (h : c.isDigit) : isQuote c = false := by
  refine Bool.eq_false_of_not_eq_true fun hquote => ?_
  rcases isQuote_cases hquote with rfl | rfl <;> exact absurd h (by decide)

theorem not_mem_close {digits r : List Char} (hdigits : ∀ c ∈ digits, c.isDigit) (hr : Blank r) : ']' ∉ digits ++ r := by
  intro h
  rcases List.mem_append.1 h with h | h
  · exact absurd (hdigits _ h) (by decide)
  · exact absurd (hr _ h) (by decide)

theorem digit_ten_isSome {digits : List Char} (hdigits : ∀ c ∈ digits, c.isDigit) : ∀ c ∈ digits, (digit 10 c).isSome :=
  fun c hc => by rw [digit_ten (hdigits c hc)]; rfl

/-- A quoted key between brackets. -/
theorem parseBracket_key {inner body : List Char} {quote : Char} (text : String) (hinner : inner.dropWhile blank = quote :: body)
    (hquote : isQuote quote) : parseBracket inner text = unquote body quote text >>= fun read =>
      Res.okOr (stripPrefix ']' (read.2.dropWhile blank)) (.unclosedBracket text) >>= fun after =>
        .ok (.key (String.ofList read.1), after) := by
  have hhead : (some quote).filter isQuote = some quote := Option.filter_some_pos hquote
  have hbody : sliceFrom (quote :: body) quote.utf8Size = some body := sliceFrom_append [quote] body
  simp only [parseBracket, hinner, List.head?_cons, hhead]
  rw [hbody, Res.expect_some, Res.ok_bind]

/-- Anything else between brackets. -/
theorem parseBracket_index {inner : List Char} (text : String) (hinner : (inner.dropWhile blank).head?.filter isQuote = none) :
    parseBracket inner text = Res.okOr (splitOnce ']' (inner.dropWhile blank)) (.unclosedBracket text) >>= fun split =>
      Res.okOr (if (trimMatches blank split.1).all Char.isDigit then parseUnsigned 10 (2 ^ 32) (trimMatches blank split.1)
        else none) (.badIndex (String.ofList (trimMatches blank split.1))) >>= fun index =>
          .ok (.index (UInt32.ofNat index), split.2) := by
  simp only [parseBracket, hinner]

/-- What the grammar has between brackets is read as the segment it spells. -/
theorem parseBracket_append {t : List Char} {segment : Subkey} (h : Bracket t segment) (u : List Char) (text : String) :
    parseBracket (t ++ ']' :: u) text = .ok (segment, u) := by
  cases h with
  | @index l digits r hl hr hne hdigits hlt =>
    obtain ⟨d, digits, rfl⟩ := List.exists_cons_of_ne_nil hne
    have hd : d.isDigit := hdigits d List.mem_cons_self
    have hinner : (l ++ (d :: digits ++ r) ++ ']' :: u).dropWhile blank = (d :: digits ++ r) ++ ']' :: u := by
      rw [List.append_assoc]
      exact dropWhile_append hl (stops_cons.2 (blank_of_isDigit hd))
    have hhead : ((d :: digits ++ r) ++ ']' :: u).head?.filter isQuote = none :=
      Option.filter_some_neg (by simp [isQuote_of_isDigit hd])
    have htrim : trimMatches blank (d :: digits ++ r) = d :: digits :=
      trimMatches_append (l := []) (fun c hc => by cases hc) (fun c hc => blank_of_isDigit (hdigits c hc)) hr hne
    have hparse : parseUnsigned 10 (2 ^ 32) (d :: digits) = some (numeral 10 (d :: digits)) :=
      (parseUnsigned_digits hne (digit_ten_isSome hdigits)).trans (if_pos hlt)
    rw [parseBracket_index text (by rw [hinner, hhead]), hinner, splitOnce_append (not_mem_close hdigits hr), Res.okOr_some,
      Res.ok_bind, htrim, if_pos (List.all_eq_true.2 hdigits), hparse, Res.okOr_some, Res.ok_bind]
  | @key l t key r quote hl hr hquote hkey =>
    have hne : quote ≠ '\\' := by rcases isQuote_cases hquote with rfl | rfl <;> decide
    have hinner : (l ++ quote :: (t ++ quote :: r) ++ ']' :: u).dropWhile blank = quote :: (t ++ quote :: (r ++ ']' :: u)) := by
      rw [List.append_assoc, List.cons_append, List.append_assoc, List.cons_append]
      exact dropWhile_append hl (stops_cons.2 (blank_of_isQuote hquote))
    have hclose : (r ++ ']' :: u).dropWhile blank = ']' :: u := dropWhile_append hr (stops_cons.2 (by decide))
    rw [parseBracket_key text hinner hquote, unquote_append hne text hkey, Res.ok_bind, hclose, stripPrefix_cons, if_pos rfl,
      Res.okOr_some, Res.ok_bind]

theorem parseBracket_ensures (inner : List Char) (text : String) :
    (parseBracket inner text).Ensures fun read => ∃ t, inner = t ++ ']' :: read.2 ∧ Bracket t read.1 := by
  obtain ⟨l, hl, hsplit⟩ := exists_blank inner
  cases hhead : (inner.dropWhile blank).head?.filter isQuote with
  | some quote =>
    obtain ⟨hhead, hquote⟩ := Option.filter_eq_some_iff.1 hhead
    obtain ⟨body, hinner⟩ := List.head?_eq_some_iff.1 hhead
    rw [parseBracket_key text hinner hquote]
    refine (unquote_ensures body quote text).bind fun read hread => ?_
    obtain ⟨t, hbody, hkey⟩ := hread
    refine (Res.ensures_okOr _ _).bind fun after hafter => ?_
    obtain ⟨r, hr, hrest⟩ := exists_blank read.2
    rw [stripPrefix_eq_some hafter] at hrest
    refine ⟨_, hsplit.trans ?_, .key hl hr hquote hkey⟩
    rw [hinner, hbody, hrest]
    simp
  | none =>
    rw [parseBracket_index text hhead]
    refine (Res.ensures_okOr _ _).bind fun split hcut => ?_
    refine (Res.ensures_okOr _ _).bind fun index hindex => ?_
    obtain ⟨l', r, htrim, hl', hr⟩ := exists_trimMatches blank split.1
    obtain ⟨hinner, -⟩ := splitOnce_eq_some hcut
    generalize trimMatches blank split.1 = digits at htrim hindex
    split at hindex
    · next hall =>
      have hdigits : ∀ c ∈ digits, c.isDigit := List.all_eq_true.1 hall
      have hne : digits ≠ [] := by
        rintro rfl
        cases hindex
      rw [parseUnsigned_digits hne (digit_ten_isSome hdigits)] at hindex
      split at hindex
      · next hlt =>
        cases hindex
        have hblank : Blank (l ++ l') := fun c hc => (List.mem_append.1 hc).elim (hl c) (hl' c)
        refine ⟨_, hsplit.trans ?_, .index hblank hr hne hdigits hlt⟩
        rw [hinner, htrim]
        simp
      · cases hindex
    · cases hindex

end IrohLotus.Wire
