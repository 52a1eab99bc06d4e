/-
Paths of a URL: percent-encoding of a text outside a set of characters, and the removal of dot segments
a client does before it asks for a path (RFC 3986, section 5.2.4).
-/
import IrohLotus.Lib.Bytes

namespace Uri

open Bytes

/-! ## Percent-encoding -/

/-- The upper-case hexadecimal digit of a number below sixteen. -/
def hexDigit (n : Nat) : Char := if n < 10 then Char.ofNat (48 + n) else Char.ofNat (55 + n)

/-- What a byte stands for as a hexadecimal digit of either case. -/
def hexValue (b : UInt8) : Option Nat :=
  if 48 ≤ b ∧ b ≤ 57 then some (b.toNat - 48)
  else if 65 ≤ b ∧ b ≤ 70 then some (b.toNat - 55)
  else if 97 ≤ b ∧ b ≤ 102 then some (b.toNat - 87)
  else none

/-- A byte as it is written when it may not stand for itself. -/
def escapeByte (b : UInt8) : List Char := ['%', hexDigit (b.toNat / 16), hexDigit (b.toNat % 16)]

/-- The text with every character in the set, and every one that is not ASCII, written as its bytes. -/
def percentEncode (set : Char → Bool) (text : List Char) : List Char :=
  text.flatMap fun c => if c.toNat < 128 ∧ set c = false then [c] else (String.utf8EncodeChar c).flatMap escapeByte

/-- The bytes an encoded text stands for. A percent sign two digits do not follow stands for itself. -/
def unescape : Blob → Blob
  | 37 :: hi :: lo :: rest =>
    match hexValue hi, hexValue lo with
    | some h, some l => UInt8.ofNat (16 * h + l) :: unescape rest
    | _, _ => 37 :: unescape (hi :: lo :: rest)
  | b :: rest => b :: unescape rest
  | [] => []

/-- The text behind an encoded one, if its bytes are one. -/
def percentDecode (text : List Char) : Option (List Char) :=
  (String.fromUTF8? (unescape (text.flatMap String.utf8EncodeChar)).toByteArray).map String.toList

theorem utf8EncodeChar_ascii {c : Char} (h : c.toNat < 128) : String.utf8EncodeChar c = [UInt8.ofNat c.toNat] := by
  rw [String.utf8EncodeChar_eq_singleton]
  · rfl
  · refine Char.utf8Size_eq_one_iff.2 (UInt32.le_iff_toNat_le.2 ?_)
    show c.toNat ≤ 127
    omega

theorem hexDigit_spec : ∀ n < 16, (String.utf8EncodeChar (hexDigit n)).map hexValue = [some n] ∧ (hexDigit n).isAlphanum := by
  decide

theorem unescape_escapeByte (b : UInt8) (rest : Blob) :
    unescape ((escapeByte b).flatMap String.utf8EncodeChar ++ rest) = b :: unescape rest := by
  have hlt := b.toNat_lt
  obtain ⟨hi, hhi, hhiv⟩ := List.map_eq_singleton_iff.1 (hexDigit_spec (b.toNat / 16) (by omega)).1
  obtain ⟨lo, hlo, hlov⟩ := List.map_eq_singleton_iff.1 (hexDigit_spec (b.toNat % 16) (by omega)).1
  have hpercent : String.utf8EncodeChar '%' = [37] := by decide
  rw [escapeByte, List.flatMap_cons, List.flatMap_cons, List.flatMap_cons, hpercent, hhi, hlo]
  show unescape (37 :: hi :: lo :: rest) = _
  rw [unescape, hhiv, hlov]
  have hvalue : 16 * (b.toNat / 16) + b.toNat % 16 = b.toNat := Nat.div_add_mod _ _
  simp only [hvalue, UInt8.ofNat_toNat]

theorem unescape_escapeBytes : ∀ (bytes rest : Blob),
    unescape ((bytes.flatMap escapeByte).flatMap String.utf8EncodeChar ++ rest) = bytes ++ unescape rest
  | [], rest => rfl
  | b :: bytes, rest => by
    rw [List.flatMap_cons, List.flatMap_append, List.append_assoc, unescape_escapeByte, unescape_escapeBytes bytes rest,
      List.cons_append]

theorem unescape_cons {b : UInt8} (h : b ≠ 37) (rest : Blob) : unescape (b :: rest) = b :: unescape rest := by
  rw [unescape.eq_def]
  split
  · rename_i heq
    cases heq
    exact absurd rfl h
  · rename_i heq
    cases heq
    rfl
  · rename_i heq
    cases heq

/-- The bytes of a text are read back from it, where the percent sign itself is written as its byte. -/
theorem unescape_percentEncode {set : Char → Bool} (hset : set '%' = true) : ∀ text : List Char,
    unescape ((percentEncode set text).flatMap String.utf8EncodeChar) = text.flatMap String.utf8EncodeChar
  | [] => rfl
  | c :: text => by
    have ih := unescape_percentEncode hset text
    unfold percentEncode at ih ⊢
    rw [List.flatMap_cons, List.flatMap_append, List.flatMap_cons]
    by_cases hc : c.toNat < 128 ∧ set c = false
    · have hne : UInt8.ofNat c.toNat ≠ 37 := by
        intro h
        have h37 : c.toNat = 37 := by
          have hmod := congrArg UInt8.toNat h
          rw [UInt8.toNat_ofNat'] at hmod
          have : (37 : UInt8).toNat = 37 := rfl
          omega
        have hpercent : c = '%' := by rw [← Char.ofNat_toNat c, h37]
        rw [hpercent, hset] at hc
        exact Bool.noConfusion hc.2
      rw [if_pos hc, List.flatMap_cons, List.flatMap_nil, List.append_nil, utf8EncodeChar_ascii hc.1, List.singleton_append,
        unescape_cons hne, ih]
      rfl
    · rw [if_neg hc, unescape_escapeBytes, ih]

theorem percentDecode_encode {set : Char → Bool} (hset : set '%' = true) (text : List Char) :
    percentDecode (percentEncode set text) = some text := by
  have hbytes : (text.flatMap String.utf8EncodeChar).toByteArray = (String.ofList text).toByteArray := rfl
  unfold percentDecode
  rw [unescape_percentEncode hset, hbytes, String.fromUTF8?, dif_pos (String.ofList text).isValidUTF8]
  show some (String.ofList text).toList = _
  rw [String.toList_ofList]

/-- A text whose characters may all stand for themselves is written as it is. -/
theorem percentEncode_bare {set : Char → Bool} : ∀ {text : List Char}, (∀ c ∈ text, c.toNat < 128 ∧ set c = false) →
    percentEncode set text = text
  | [], _ => rfl
  | c :: text, h => by
    obtain ⟨hc, htext⟩ := List.forall_mem_cons.1 h
    have ih := percentEncode_bare htext
    unfold percentEncode at ih ⊢
    rw [List.flatMap_cons, if_pos hc, ih]
    rfl

/-- What is written is a percent sign, a digit, or a character that may stand for itself. -/
theorem percentEncode_chars {set : Char → Bool} {text : List Char} {c : Char} (h : c ∈ percentEncode set text) :
    c = '%' ∨ c.isAlphanum ∨ set c = false := by
  obtain ⟨d, -, hd⟩ := List.mem_flatMap.1 h
  split at hd
  · rename_i hbare
    obtain rfl := List.mem_singleton.1 hd
    exact .inr (.inr hbare.2)
  · obtain ⟨b, -, hb⟩ := List.mem_flatMap.1 hd
    have hlt := b.toNat_lt
    have hhi := (hexDigit_spec (b.toNat / 16) (by omega)).2
    have hlo := (hexDigit_spec (b.toNat % 16) (by omega)).2
    rcases List.mem_cons.1 hb with rfl | hb
    · exact .inl rfl
    · rcases List.mem_pair.1 hb with rfl | rfl
      · exact .inr (.inl hhi)
      · exact .inr (.inl hlo)

/-! ## Dot segments -/

/-- What is written so far, less its last segment and the slash before it. -/
def dropSegment (output : List Char) : List Char := (output.rdropWhile (· ≠ '/')).dropLast

/-- Moves the segments of a path to the output one by one; a dot is left out, and two take back the
segment before them. -/
def removeDotSegments (input output : List Char) : List Char :=
  if _hne : input = [] then output
  else if ['.', '.', '/'].isPrefixOf input then removeDotSegments (input.drop 3) output
  else if ['.', '/'].isPrefixOf input then removeDotSegments (input.drop 2) output
  else if ['/', '.', '/'].isPrefixOf input then removeDotSegments (input.drop 2) output
  else if _hdot : input = ['/', '.'] then removeDotSegments ['/'] output
  else if ['/', '.', '.', '/'].isPrefixOf input then removeDotSegments (input.drop 3) (dropSegment output)
  else if _hdots : input = ['/', '.', '.'] then removeDotSegments ['/'] (dropSegment output)
  else if input = ['.'] ∨ input = ['.', '.'] then output
  else removeDotSegments (input.tail.dropWhile (· ≠ '/')) (output ++ input.take 1 ++ input.tail.takeWhile (· ≠ '/'))
termination_by input.length
decreasing_by
  all_goals have hpos := List.length_pos_iff.2 _hne
  · rw [List.length_drop]; omega
  · rw [List.length_drop]; omega
  · rw [List.length_drop]; omega
  · rw [_hdot]; decide
  · rw [List.length_drop]; omega
  · rw [_hdots]; decide
  · have hle := (List.dropWhile_sublist (fun c : Char => decide (c ≠ '/')) (l := input.tail)).length_le
    rw [List.length_tail] at hle
    omega

/-- The next segment, or the end of the path. -/
def Ahead (rest : List Char) : Prop := rest = [] ∨ ∃ more, rest = '/' :: more

theorem takeWhile_segment {s rest : List Char} (hs : '/' ∉ s) (hrest : Ahead rest) :
    (s ++ rest).takeWhile (· ≠ '/') = s ∧ (s ++ rest).dropWhile (· ≠ '/') = rest := by
  have hall : ∀ c ∈ s, decide (c ≠ '/') = true := fun c hc => decide_eq_true fun h => hs (h ▸ hc)
  rw [List.takeWhile_append_of_pos hall, List.dropWhile_append_of_pos hall]
  rcases hrest with rfl | ⟨more, rfl⟩
  · simp
  · simp

theorem removeDotSegments_nil (output : List Char) : removeDotSegments [] output = output := by
  rw [removeDotSegments, dif_pos rfl]

/-- A segment that is not made of one or two dots is kept. -/
theorem removeDotSegments_segment {s rest : List Char} (hs : '/' ∉ s) (hone : s ≠ ['.']) (htwo : s ≠ ['.', '.'])
    (hrest : Ahead rest) (output : List Char) :
    removeDotSegments ('/' :: (s ++ rest)) output = removeDotSegments rest (output ++ '/' :: s) := by
  obtain ⟨htake, hdrop⟩ := takeWhile_segment hs hrest
  -- what stands before the next slash is the segment, so it is none of the dots
  have hcut {t more : List Char} (ht : '/' ∉ t) (hmore : Ahead more) (h : s ++ rest = t ++ more) : s = t := by
    rw [← htake, h, (takeWhile_segment ht hmore).1]
  have hstart {t : List Char} (ht : '/' ∉ t) (hne : s ≠ t) : ¬ ('/' :: (t ++ ['/'])).isPrefixOf ('/' :: (s ++ rest)) = true := by
    intro h
    obtain ⟨more, hmore⟩ := List.isPrefixOf_iff_prefix.1 h
    refine hne (hcut ht (.inr ⟨more, rfl⟩) ?_)
    have heq : t ++ ['/'] ++ more = s ++ rest := (List.cons.inj hmore).2
    rw [← heq, List.append_assoc]
    rfl
  have hend {t : List Char} (ht : '/' ∉ t) (hne : s ≠ t) : ¬ '/' :: (s ++ rest) = '/' :: t := by
    intro h
    refine hne (hcut ht (.inl rfl) ?_)
    rw [List.append_nil]
    exact (List.cons.inj h).2
  have hslash {t : List Char} : ¬ ('.' :: t).isPrefixOf ('/' :: (s ++ rest)) = true := by
    intro h
    exact absurd (List.cons_prefix_cons.1 (List.isPrefixOf_iff_prefix.1 h)).1 (by decide)
  have hstartOne : ¬ ['/', '.', '/'].isPrefixOf ('/' :: (s ++ rest)) = true := hstart (t := ['.']) (by decide) hone
  have hstartTwo : ¬ ['/', '.', '.', '/'].isPrefixOf ('/' :: (s ++ rest)) = true := hstart (t := ['.', '.']) (by decide) htwo
  rw [removeDotSegments, dif_neg (List.cons_ne_nil _ _), if_neg hslash, if_neg hslash, if_neg hstartOne,
    dif_neg (hend (by decide) hone), if_neg hstartTwo, dif_neg (hend (by decide) htwo), if_neg (by simp), List.tail_cons,
    htake, hdrop, List.append_assoc]
  rfl

/-- A path ends in a slash where its last segment is empty. -/
theorem removeDotSegments_slash (output : List Char) : removeDotSegments ['/'] output = output ++ ['/'] := by
  have h := @removeDotSegments_segment [] [] (by simp) (by simp) (by simp) (.inl rfl) output
  rw [List.append_nil, removeDotSegments_nil] at h
  exact h

theorem removeDotSegments_dot (output more : List Char) :
    removeDotSegments ['/', '.'] output = output ++ ['/'] ∧
      removeDotSegments ('/' :: '.' :: '/' :: more) output = removeDotSegments ('/' :: more) output := by
  constructor
  · rw [removeDotSegments]
    simp [removeDotSegments_slash]
  · rw [removeDotSegments]
    simp

theorem removeDotSegments_dots (output more : List Char) :
    removeDotSegments ['/', '.', '.'] output = dropSegment output ++ ['/'] ∧
      removeDotSegments ('/' :: '.' :: '.' :: '/' :: more) output = removeDotSegments ('/' :: more) (dropSegment output) := by
  constructor
  · rw [removeDotSegments]
    simp [removeDotSegments_slash]
  · rw [removeDotSegments]
    simp

end Uri
