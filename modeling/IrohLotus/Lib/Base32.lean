/-
Base32 without padding: bytes as a string of bits, cut into groups of five with zeros behind the last,
each group written as one of thirty-two symbols. Reading refuses what no writing gives: another symbol,
a group that holds nothing, or a bit behind the last byte.
-/
import IrohLotus.Lib.Bytes

namespace Base32

open Bytes

/-! ## Bits -/

/-- The last `width` bits of a number, most significant first. -/
def bits : Nat → Nat → List Bool
  | 0, _ => []
  | width + 1, n => bits width (n / 2) ++ [decide (n % 2 = 1)]

/-- The number a string of bits spells. -/
def ofBits (bs : List Bool) : Nat := bs.foldl (fun n b => 2 * n + b.toNat) 0

/-- A string of bits cut into groups of `width`, the last filled up with zeros. -/
def groups (width : Nat) (bs : List Bool) : List (List Bool) :=
  if _h : bs = [] ∨ width = 0 then []
  else (bs.take width).rightpad width false :: groups width (bs.drop width)
termination_by bs.length
decreasing_by
  obtain ⟨hbs, hwidth⟩ := not_or.1 _h
  have hpos := List.length_pos_iff.2 hbs
  rw [List.length_drop]
  omega

@[simp] theorem length_bits : ∀ width n : Nat, (bits width n).length = width
  | 0, _ => rfl
  | width + 1, n => by rw [bits, List.length_append, length_bits width, List.length_singleton]

theorem ofBits_append_singleton (bs : List Bool) (b : Bool) : ofBits (bs ++ [b]) = 2 * ofBits bs + b.toNat := by
  rw [ofBits, List.foldl_append]
  rfl

theorem ofBits_bits : ∀ width n : Nat, ofBits (bits width n) = n % 2 ^ width
  | 0, n => by simp [bits, ofBits, Nat.mod_one]
  | width + 1, n => by
    rw [bits, ofBits_append_singleton, ofBits_bits width, Nat.pow_succ, Nat.mul_comm (2 ^ width) 2, Nat.mod_mul]
    have hbit : (decide (n % 2 = 1)).toNat = n % 2 := by
      rcases Nat.mod_two_eq_zero_or_one n with h | h <;> rw [h] <;> rfl
    rw [hbit, Nat.add_comm]

theorem bits_ofBits : ∀ bs : List Bool, bits bs.length (ofBits bs) = bs := by
  intro bs
  induction bs using List.reverseRecOn with
  | nil => rfl
  | append_singleton bs b ih =>
    rw [List.length_append, List.length_singleton, bits, ofBits_append_singleton]
    have hdiv : (2 * ofBits bs + b.toNat) / 2 = ofBits bs := by cases b <;> simp; omega
    have hmod : decide ((2 * ofBits bs + b.toNat) % 2 = 1) = b := by cases b <;> simp [Nat.add_mod]
    rw [hdiv, hmod, ih]

/-! ## Groups -/

theorem length_of_mem_groups {width : Nat} {bs g : List Bool} (h : g ∈ groups width bs) : g.length = width := by
  fun_induction groups width bs with
  | case1 => cases h
  | case2 bs hne ih =>
    rcases List.mem_cons.1 h with rfl | h
    · rw [List.rightpad, List.length_append, List.length_replicate, List.length_take]
      omega
    · exact ih h

/-- The groups put back together are the bits, with fewer zeros behind them than a group has. -/
theorem flatten_groups {width : Nat} (hwidth : width ≠ 0) (bs : List Bool) :
    ∃ pad, pad < width ∧ (groups width bs).flatten = bs ++ List.replicate pad false := by
  fun_induction groups width bs with
  | case1 bs h =>
    obtain rfl := h.resolve_right hwidth
    exact ⟨0, Nat.pos_of_ne_zero hwidth, rfl⟩
  | case2 bs h ih =>
    obtain ⟨hbs, -⟩ := not_or.1 h
    obtain ⟨pad, hpad, hflat⟩ := ih
    rw [List.flatten_cons, hflat]
    by_cases hlast : bs.length ≤ width
    · -- the last group
      rw [List.drop_eq_nil_of_le hlast] at hflat
      have hgroups : groups width [] = [] := by rw [groups]; exact dif_pos (.inl rfl)
      rw [hgroups] at hflat
      have hzero : pad = 0 := by
        have := congrArg List.length hflat
        simpa using this.symm
      have hpos := List.length_pos_iff.2 hbs
      refine ⟨width - bs.length, by omega, ?_⟩
      rw [hzero, List.drop_eq_nil_of_le hlast, List.take_of_length_le hlast, List.rightpad]
      simp
    · refine ⟨pad, hpad, ?_⟩
      have hfull : (bs.take width).length = width := by rw [List.length_take]; omega
      rw [List.rightpad, hfull, Nat.sub_self, List.replicate_zero, List.append_nil, ← List.append_assoc,
        List.take_append_drop]

/-- Groups of one width behind one another are cut apart again. -/
theorem groups_flatten {width : Nat} (hwidth : width ≠ 0) : ∀ {gs : List (List Bool)}, (∀ g ∈ gs, g.length = width) →
    groups width gs.flatten = gs
  | [], _ => by rw [List.flatten_nil, groups]; exact dif_pos (.inl rfl)
  | g :: gs, h => by
    obtain ⟨hg, hgs⟩ := List.forall_mem_cons.1 h
    have hne : ¬ ((g :: gs).flatten = [] ∨ width = 0) := by
      rintro (hnil | hzero)
      · rw [List.flatten_cons, List.append_eq_nil_iff] at hnil
        rw [hnil.1] at hg
        exact hwidth hg.symm
      · exact hwidth hzero
    rw [groups, dif_neg hne, List.flatten_cons, List.take_left' hg, List.drop_left' hg, groups_flatten hwidth hgs,
      List.rightpad, hg, Nat.sub_self, List.replicate_zero, List.append_nil]

/-! ## Symbols -/

/-- The symbol a number below thirty-two is written as. -/
def symbol (n : Nat) : Char := if n < 26 then Char.ofNat (65 + n) else Char.ofNat (24 + n)

/-- The number a byte stands for, if it is the byte of a symbol. -/
def value (b : UInt8) : Option Nat :=
  if 65 ≤ b ∧ b ≤ 90 then some (b.toNat - 65) else if 50 ≤ b ∧ b ≤ 55 then some (b.toNat - 24) else none

theorem symbol_spec : ∀ n < 32, ((symbol n).isUpper ∨ (symbol n).isDigit) ∧
    (String.utf8EncodeChar (symbol n)).map value = [some n] := by decide

/-! ## Texts -/

/-- The bits of a byte string. -/
def bitsOf (blob : Blob) : List Bool := (blob.map fun b => bits 8 b.toNat).flatten

def encode (blob : Blob) : List Char := (groups 5 (bitsOf blob)).map fun g => symbol (ofBits g)

def decode (text : Blob) : Option Blob := do
  let values ← text.mapM value
  let bs := (values.map (bits 5)).flatten
  let rest := bs.drop (8 * (bs.length / 8))
  if rest.length < 5 ∧ rest = List.replicate rest.length false then
    pure ((groups 8 (bs.take (8 * (bs.length / 8)))).map fun g => UInt8.ofNat (ofBits g))
  else none

theorem length_bitsOf (blob : Blob) : (bitsOf blob).length = 8 * blob.length := by
  rw [bitsOf, List.length_flatten, List.map_map]
  have hlengths : (List.length ∘ fun b : UInt8 => bits 8 b.toNat) = fun _ => 8 := by
    funext b
    exact length_bits 8 _
  rw [hlengths, List.map_const', List.sum_replicate, smul_eq_mul, Nat.mul_comm]

theorem ofBits_lt (bs : List Bool) : ofBits bs < 2 ^ bs.length := by
  rw [← bits_ofBits bs, ofBits_bits, length_bits]
  exact Nat.mod_lt _ (Nat.two_pow_pos _)

/-- Everything a text is made of is a symbol. -/
theorem encode_symbols {blob : Blob} {c : Char} (h : c ∈ encode blob) : c.isUpper ∨ c.isDigit := by
  obtain ⟨g, hg, rfl⟩ := List.mem_map.1 h
  have hlt := ofBits_lt g
  rw [length_of_mem_groups hg] at hlt
  exact (symbol_spec _ hlt).1

theorem mapM_value : ∀ {gs : List (List Bool)}, (∀ g ∈ gs, g.length = 5) →
    ((gs.map fun g => symbol (ofBits g)).flatMap String.utf8EncodeChar).mapM value = some (gs.map ofBits)
  | [], _ => rfl
  | g :: gs, h => by
    obtain ⟨hg, hgs⟩ := List.forall_mem_cons.1 h
    have hlt := ofBits_lt g
    rw [hg] at hlt
    obtain ⟨b, hb, hbv⟩ := List.map_eq_singleton_iff.1 (symbol_spec _ hlt).2
    rw [List.map_cons, List.flatMap_cons, hb, List.singleton_append, List.mapM_cons, hbv, mapM_value hgs]
    rfl

/-- The groups of a byte string's bits, as bytes again. -/
theorem groups_bitsOf (blob : Blob) : (groups 8 (bitsOf blob)).map (fun g => UInt8.ofNat (ofBits g)) = blob := by
  rw [bitsOf, groups_flatten (by decide) (by simp), List.map_map]
  conv_rhs => rw [← List.map_id blob]
  refine List.map_congr_left fun b _ => ?_
  show UInt8.ofNat (ofBits (bits 8 b.toNat)) = b
  rw [ofBits_bits, Nat.mod_eq_of_lt b.toNat_lt, UInt8.ofNat_toNat]

/-- What was written reads back. -/
theorem decode_encode (blob : Blob) : decode ((encode blob).flatMap String.utf8EncodeChar) = some blob := by
  obtain ⟨pad, hpad, hflat⟩ := flatten_groups (show (5 : Nat) ≠ 0 by decide) (bitsOf blob)
  have hbits : (((groups 5 (bitsOf blob)).map ofBits).map (bits 5)).flatten = bitsOf blob ++ List.replicate pad false := by
    rw [← hflat, List.map_map]
    congr 1
    conv_rhs => rw [← List.map_id (groups 5 (bitsOf blob))]
    refine List.map_congr_left fun g hg => ?_
    show bits 5 (ofBits g) = g
    rw [← length_of_mem_groups hg, bits_ofBits]
  have hwhole : 8 * ((bitsOf blob ++ List.replicate pad false).length / 8) = (bitsOf blob).length := by
    rw [List.length_append, List.length_replicate, length_bitsOf]
    omega
  rw [decode, encode, mapM_value fun g hg => length_of_mem_groups hg]
  simp only [Option.bind_eq_bind, Option.bind_some, hbits, hwhole, List.drop_left, List.take_left, List.length_replicate]
  rw [if_pos ⟨hpad, trivial⟩, groups_bitsOf]
  rfl

end Base32
