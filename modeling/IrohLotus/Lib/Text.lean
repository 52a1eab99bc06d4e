/-
Texts as lists of characters, cut at byte offsets as UTF-8 strings are: an offset inside a character
is no place to cut. Numbers are read from their digits.
-/
import Mathlib

namespace Text

/-- How many bytes a text takes. -/
def size (s : List Char) : Nat := (s.map Char.utf8Size).sum

/-- The two sides of a byte offset, where it is the boundary of a character (`str::split_at`). -/
def splitAt : List Char → Nat → Option (List Char × List Char)
  | s, 0 => some ([], s)
  | [], _ + 1 => none
  | c :: s, n + 1 =>
    if c.utf8Size ≤ n + 1 then (splitAt s (n + 1 - c.utf8Size)).map fun sides => (c :: sides.1, sides.2) else none

/-- `&s[..n]` -/
def sliceTo (s : List Char) (n : Nat) : Option (List Char) := (splitAt s n).map Prod.fst

/-- `&s[n..]` -/
def sliceFrom (s : List Char) (n : Nat) : Option (List Char) := (splitAt s n).map Prod.snd

/-- `s.get(m..n)` -/
def get (s : List Char) (m n : Nat) : Option (List Char) :=
  if m ≤ n then (sliceFrom s m).bind (sliceTo · (n - m)) else none

/-- The characters, each with its byte offset; the first has offset `n` (`str::char_indices`). -/
def charIndices (n : Nat) : List Char → List (Nat × Char)
  | [] => []
  | c :: s => (n, c) :: charIndices (n + c.utf8Size) s

/-- The byte offset of the first character `p` holds of (`str::find`). -/
def find (p : Char → Bool) (s : List Char) : Option Nat := ((charIndices 0 s).find? fun e => p e.2).map Prod.fst

/-- What stands before the first `d` and after it (`str::split_once`). -/
def splitOnce (d : Char) (s : List Char) : Option (List Char × List Char) :=
  match s.dropWhile (· ≠ d) with
  | [] => none
  | _ :: after => some (s.takeWhile (· ≠ d), after)

/-- A text without the matches at its two ends (`str::trim_matches`). -/
def trimMatches (p : Char → Bool) (s : List Char) : List Char := (s.dropWhile p).rdropWhile p

/-- `str::strip_prefix` for one character. -/
def stripPrefix (c : Char) : List Char → Option (List Char)
  | [] => none
  | d :: s => if d = c then some s else none

/-! ## Cutting -/

@[simp] theorem size_nil : size [] = 0 := rfl
@[simp] theorem size_cons (c : Char) (s : List Char) : size (c :: s) = c.utf8Size + size s := rfl
@[simp] theorem size_append (a b : List Char) : size (a ++ b) = size a + size b := by simp [size]

theorem size_eq_length : ∀ {s : List Char}, (∀ c ∈ s, c.utf8Size = 1) → size s = s.length
  | [], _ => rfl
  | c :: s, h => by
    rw [size_cons, h c List.mem_cons_self, size_eq_length fun d hd => h d (List.mem_cons_of_mem c hd),
      List.length_cons, Nat.add_comm]

theorem splitAt_append : ∀ a b : List Char, splitAt (a ++ b) (size a) = some (a, b)
  | [], b => by cases b <;> rfl
  | c :: a, b => by
    have hpos := c.utf8Size_pos
    obtain ⟨n, hn⟩ : ∃ n, c.utf8Size + size a = n + 1 := ⟨c.utf8Size + size a - 1, by omega⟩
    have hrest : n + 1 - c.utf8Size = size a := by omega
    rw [size_cons, hn, List.cons_append, splitAt, if_pos (by omega), hrest, splitAt_append a b, Option.map_some]

/-- A cut gives the text back, its first side of the length asked for. -/
theorem splitAt_eq_some : ∀ {s : List Char} {n : Nat} {a b : List Char}, splitAt s n = some (a, b) →
    s = a ++ b ∧ size a = n
  | s, 0, a, b, h => by
    rw [splitAt] at h
    cases h
    exact ⟨rfl, rfl⟩
  | [], _ + 1, _, _, h => by cases h
  | c :: s, n + 1, a, b, h => by
    rw [splitAt] at h
    split at h
    · next hle =>
      obtain ⟨⟨a', b'⟩, hrest, hcut⟩ := Option.map_eq_some_iff.1 h
      cases hcut
      obtain ⟨rfl, hsize⟩ := splitAt_eq_some hrest
      exact ⟨rfl, by rw [size_cons, hsize]; omega⟩
    · cases h

@[simp] theorem sliceTo_append (a b : List Char) : sliceTo (a ++ b) (size a) = some a := by rw [sliceTo, splitAt_append]; rfl
@[simp] theorem sliceFrom_append (a b : List Char) : sliceFrom (a ++ b) (size a) = some b := by
  rw [sliceFrom, splitAt_append]; rfl

/-- The piece between two boundaries. -/
theorem get_append (a b s : List Char) : get (a ++ (b ++ s)) (size a) (size a + size b) = some b := by
  rw [get, if_pos (Nat.le_add_right _ _), sliceFrom_append, Option.bind_some, Nat.add_sub_cancel_left, sliceTo_append]

theorem get_eq_some {s : List Char} {m n : Nat} {b : List Char} (h : get s m n = some b) :
    ∃ a c, s = a ++ (b ++ c) ∧ size a = m ∧ size a + size b = n := by
  unfold get at h
  split at h
  · next hle =>
    obtain ⟨rest, hfrom, hto⟩ := Option.bind_eq_some_iff.1 h
    obtain ⟨⟨a, _⟩, hcut, rfl⟩ := Option.map_eq_some_iff.1 hfrom
    obtain ⟨⟨_, c⟩, hcut', rfl⟩ := Option.map_eq_some_iff.1 hto
    obtain ⟨rfl, ha⟩ := splitAt_eq_some hcut
    obtain ⟨hrest, hb⟩ := splitAt_eq_some hcut'
    refine ⟨a, c, congrArg (a ++ ·) hrest, ha, ?_⟩
    rw [ha, hb]
    omega
  · cases h

theorem drop_charIndices : ∀ (a b : List Char) (n : Nat),
    (charIndices n (a ++ b)).drop a.length = charIndices (n + size a) b
  | [], _, _ => rfl
  | c :: a, b, n => by
    rw [List.cons_append, charIndices, List.length_cons, List.drop_succ_cons, drop_charIndices a b, size_cons, Nat.add_assoc]

/-- A search over numbered characters finds the offset of what stands before the match. -/
theorem find?_charIndices (p : Char → Bool) : ∀ (s : List Char) (n : Nat),
    ((charIndices n s).find? fun e => p e.2).map Prod.fst =
      if s.any p then some (n + size (s.takeWhile fun c => !p c)) else none
  | [], _ => rfl
  | c :: s, n => by
    rw [charIndices, List.find?_cons, List.any_cons, List.takeWhile_cons]
    cases hc : p c with
    | true => simp
    | false => simp [find?_charIndices p s, Nat.add_assoc]

theorem takeWhile_of_not_any {p : Char → Bool} {s : List Char} (h : s.any p = false) : (s.takeWhile fun c => !p c) = s := by
  rw [List.takeWhile_eq_self_iff]
  intro c hc
  simp [List.any_eq_false.1 h c hc]

/-- Cutting where a search stops: what stands before the first match, or the whole text. -/
theorem splitAt_find (p : Char → Bool) (s : List Char) :
    splitAt s ((find p s).getD (size s)) = some (s.takeWhile (fun c => !p c), s.dropWhile fun c => !p c) := by
  have hcut := splitAt_append (s.takeWhile fun c => !p c) (s.dropWhile fun c => !p c)
  rw [List.takeWhile_append_dropWhile] at hcut
  rw [find, find?_charIndices, Nat.zero_add]
  split
  · exact hcut
  · next h => rw [takeWhile_of_not_any (Bool.eq_false_of_not_eq_true h)] at hcut ⊢; exact hcut

theorem splitOnce_append {d : Char} {a : List Char} (h : d ∉ a) (b : List Char) : splitOnce d (a ++ d :: b) = some (a, b) := by
  have hall : ∀ c ∈ a, decide (c ≠ d) = true := fun c hc => decide_eq_true fun he => h (he ▸ hc)
  rw [splitOnce, List.dropWhile_append_of_pos hall, List.takeWhile_append_of_pos hall,
    List.dropWhile_cons_of_neg (by simp), List.takeWhile_cons_of_neg (by simp), List.append_nil]

theorem splitOnce_eq_some {d : Char} {s a b : List Char} (h : splitOnce d s = some (a, b)) : s = a ++ d :: b ∧ d ∉ a := by
  unfold splitOnce at h
  split at h
  · cases h
  · next c after hdrop =>
    cases h
    have hc : c = d := by
      have hhead := List.head?_dropWhile_not (fun x => decide (x ≠ d)) s
      rw [hdrop] at hhead
      simpa using hhead
    refine ⟨?_, fun hmem => ?_⟩
    · calc s = s.takeWhile (· ≠ d) ++ s.dropWhile (· ≠ d) := List.takeWhile_append_dropWhile.symm
        _ = s.takeWhile (· ≠ d) ++ d :: b := by rw [hdrop, hc]
    · have hne := List.mem_takeWhile_imp hmem
      simp at hne

/-- A text whose first character fails `p`. -/
def Stops (p : Char → Bool) (s : List Char) : Prop := ∀ c, s.head? = some c → p c = false

theorem stops_nil (p : Char → Bool) : Stops p [] := fun _ h => by cases h

theorem stops_cons {p : Char → Bool} {c : Char} {s : List Char} : Stops p (c :: s) ↔ p c = false :=
  ⟨fun h => h c rfl, fun h d hd => by cases hd; exact h⟩

theorem stops_dropWhile (p : Char → Bool) (s : List Char) : Stops p (s.dropWhile p) := by
  intro c hc
  have hhead := List.head?_dropWhile_not p s
  rw [hc] at hhead
  simpa using hhead

theorem dropWhile_append {p : Char → Bool} {a b : List Char} (ha : ∀ c ∈ a, p c) (hb : Stops p b) :
    (a ++ b).dropWhile p = b := by
  rw [List.dropWhile_append_of_pos ha]
  cases b with
  | nil => rfl
  | cons c b => exact List.dropWhile_cons_of_neg (by simp [stops_cons.1 hb])

theorem takeWhile_append {p : Char → Bool} {a b : List Char} (ha : ∀ c ∈ a, p c) (hb : Stops p b) :
    (a ++ b).takeWhile p = a := by
  rw [List.takeWhile_append_of_pos ha]
  cases b with
  | nil => exact List.append_nil a
  | cons c b => rw [List.takeWhile_cons_of_neg (by simp [stops_cons.1 hb]), List.append_nil]

/-- Trimming takes off what matches and leaves what does not. -/
theorem trimMatches_append {p : Char → Bool} {l m r : List Char} (hl : ∀ c ∈ l, p c) (hm : ∀ c ∈ m, p c = false)
    (hr : ∀ c ∈ r, p c) (hne : m ≠ []) : trimMatches p (l ++ (m ++ r)) = m := by
  obtain ⟨c, m', rfl⟩ := List.exists_cons_of_ne_nil hne
  have hstart : Stops p (c :: m' ++ r) := stops_cons.2 (hm c List.mem_cons_self)
  have hstop : Stops p (c :: m').reverse := fun d hd => hm d (List.mem_reverse.1 (List.mem_of_mem_head? hd))
  rw [trimMatches, dropWhile_append hl hstart, List.rdropWhile, List.reverse_append,
    dropWhile_append (fun d hd => hr d (List.mem_reverse.1 hd)) hstop, List.reverse_reverse]

theorem exists_trimMatches (p : Char → Bool) (s : List Char) :
    ∃ l r, s = l ++ (trimMatches p s ++ r) ∧ (∀ c ∈ l, p c) ∧ ∀ c ∈ r, p c := by
  refine ⟨s.takeWhile p, (s.dropWhile p).rtakeWhile p, ?_, fun _ => List.mem_takeWhile_imp, fun _ => List.mem_rtakeWhile_imp⟩
  rw [trimMatches, List.rdropWhile_append_rtakeWhile, List.takeWhile_append_dropWhile]

@[simp] theorem stripPrefix_cons (c d : Char) (s : List Char) : stripPrefix c (d :: s) = if d = c then some s else none := rfl

theorem stripPrefix_eq_some {c : Char} {s t : List Char} (h : stripPrefix c s = some t) : s = c :: t := by
  cases s with
  | nil => cases h
  | cons d s =>
    rw [stripPrefix_cons] at h
    split at h
    · next hd => cases h; rw [hd]
    · cases h

/-! ## Numbers -/

/-- The digit a character is in a radix of at most 36 (`char::to_digit`). -/
def digit (radix : Nat) (c : Char) : Option Nat :=
  let value :=
    if '0' ≤ c ∧ c ≤ '9' then c.toNat - 48
    else if 'a' ≤ c ∧ c ≤ 'z' then c.toNat - 87
    else if 'A' ≤ c ∧ c ≤ 'Z' then c.toNat - 55
    else radix
  if value < radix then some value else none

/-- The number a run of digits spells. -/
def numeral (radix : Nat) (s : List Char) : Nat := s.foldl (fun n c => radix * n + (digit radix c).getD 0) 0

/-- Reads an unsigned number below `bound`, after an optional plus (`from_str_radix`). -/
def parseUnsigned (radix bound : Nat) (s : List Char) : Option Nat :=
  let digits := (stripPrefix '+' s).getD s
  if digits.isEmpty then none
  else (digits.foldlM (fun n c => (digit radix c).map (radix * n + ·)) 0).filter (· < bound)

theorem digit_lt {radix d : Nat} {c : Char} (h : digit radix c = some d) : d < radix := by
  unfold digit at h
  simp only [Option.ite_none_right_eq_some, Option.some.injEq] at h
  exact h.2 ▸ h.1

theorem foldl_numeral_lt {radix : Nat} (hr : 0 < radix) : ∀ (s : List Char) (n : Nat),
    s.foldl (fun n c => radix * n + (digit radix c).getD 0) n < (n + 1) * radix ^ s.length
  | [], n => by simp
  | c :: s, n => by
    have hdigit : (digit radix c).getD 0 < radix := by
      cases hc : digit radix c with
      | none => exact hr
      | some d => exact digit_lt hc
    have hstep : radix * n + (digit radix c).getD 0 + 1 ≤ (n + 1) * radix := by
      calc radix * n + (digit radix c).getD 0 + 1 ≤ radix * n + radix := by omega
        _ = (n + 1) * radix := by ring
    calc s.foldl (fun n c => radix * n + (digit radix c).getD 0) (radix * n + (digit radix c).getD 0)
        < (radix * n + (digit radix c).getD 0 + 1) * radix ^ s.length := foldl_numeral_lt hr s _
      _ ≤ (n + 1) * radix * radix ^ s.length := Nat.mul_le_mul_right _ hstep
      _ = (n + 1) * radix ^ (c :: s).length := by rw [List.length_cons, Nat.pow_succ]; ring

/-- A number of so many digits is below that power of the radix. -/
theorem numeral_lt {radix : Nat} (hr : 0 < radix) (s : List Char) : numeral radix s < radix ^ s.length := by
  have hlt := foldl_numeral_lt hr s 0
  rwa [Nat.zero_add, Nat.one_mul] at hlt

theorem foldlM_digit {radix : Nat} : ∀ {s : List Char}, (∀ c ∈ s, (digit radix c).isSome) → ∀ n,
    s.foldlM (fun n c => (digit radix c).map (radix * n + ·)) n =
      some (s.foldl (fun n c => radix * n + (digit radix c).getD 0) n)
  | [], _, _ => rfl
  | c :: s, h, n => by
    obtain ⟨d, hd⟩ := Option.isSome_iff_exists.1 (h c List.mem_cons_self)
    rw [List.foldlM_cons, hd, List.foldl_cons, hd]
    exact foldlM_digit (fun c hc => h c (List.mem_cons_of_mem _ hc)) _

/-- Digits read as the number they spell, where it is in range. -/
theorem parseUnsigned_digits {radix bound : Nat} {s : List Char} (hne : s ≠ []) (h : ∀ c ∈ s, (digit radix c).isSome) :
    parseUnsigned radix bound s = if numeral radix s < bound then some (numeral radix s) else none := by
  have hplus : stripPrefix '+' s = none := by
    cases s with
    | nil => rfl
    | cons c s =>
      have hc : c ≠ '+' := fun hc => by
        have hsome := h c List.mem_cons_self
        simp [hc, digit] at hsome
      rw [stripPrefix_cons, if_neg hc]
  rw [parseUnsigned, hplus, Option.getD_none]
  simp only [List.isEmpty_iff, if_neg hne, foldlM_digit h 0]
  change (some (numeral radix s)).filter (fun value => decide (value < bound)) = _
  by_cases hlt : numeral radix s < bound
  · simp [hlt]
  · rw [if_neg hlt]
    simpa using hlt

theorem digit_ten {c : Char} (h : c.isDigit) : digit 10 c = some (c.toNat - 48) := by
  have hrange : 48 ≤ c.toNat ∧ c.toNat ≤ 57 := by
    simpa [Char.isDigit, UInt32.le_iff_toNat_le] using h
  have hdigit : '0' ≤ c ∧ c ≤ '9' := by
    simp only [Char.le_def, UInt32.le_iff_toNat_le]
    exact hrange
  simp only [digit, if_pos hdigit]
  rw [if_pos (by omega)]

theorem foldl_numeral_ten : ∀ {s : List Char}, (∀ c ∈ s, c.isDigit) → ∀ n,
    s.foldl (fun n c => 10 * n + (digit 10 c).getD 0) n = Nat.ofDigitChars 10 s n
  | [], _, _ => by rw [Nat.ofDigitChars_nil]; rfl
  | c :: s, h, n => by
    rw [List.foldl_cons, digit_ten (h c List.mem_cons_self), Option.getD_some, Nat.ofDigitChars_cons]
    exact foldl_numeral_ten (fun c hc => h c (List.mem_cons_of_mem _ hc)) _

/-- A number's decimal digits spell it. -/
theorem numeral_toDigits (n : Nat) : numeral 10 (Nat.toDigits 10 n) = n := by
  have hdigits : ∀ c ∈ Nat.toDigits 10 n, c.isDigit := fun c hc => Nat.isDigit_of_mem_toDigits (by decide) (by decide) hc
  rw [numeral, foldl_numeral_ten hdigits, Nat.ofDigitChars_ten_toDigits]

end Text
