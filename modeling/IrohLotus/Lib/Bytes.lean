/-
Fixed-width numbers as big-endian bytes: they read back, and they compare byte by byte as the
numbers do. Several of one width stand one after another and are cut apart again.
-/
import Mathlib

namespace Bytes

/-- A byte string. -/
abbrev Blob := List UInt8

/-- The last `width` bytes of `n`, most significant first. -/
def ofNumber : Nat → Nat → Blob
  | 0, _ => []
  | width + 1, n => UInt8.ofNat (n / 256 ^ width) :: ofNumber width n

/-- The number a byte string spells. -/
def toNumber (blob : Blob) : Nat := blob.foldl (fun n b => 256 * n + b.toNat) 0

/-- The pieces of `width` bytes a byte string is cut into, and what is left over. -/
def chunks (width : Nat) (blob : Blob) : List Blob × Blob :=
  ((List.range (blob.length / width)).map fun i => (blob.drop (width * i)).take width,
    blob.drop (width * (blob.length / width)))

@[simp] theorem length_ofNumber : ∀ width n : Nat, (ofNumber width n).length = width
  | 0, _ => rfl
  | width + 1, n => by rw [ofNumber, List.length_cons, length_ofNumber width n]

theorem mod_pow_succ (n width : Nat) :
    n % 256 ^ (width + 1) = n / 256 ^ width % 256 * 256 ^ width + n % 256 ^ width := by
  rw [Nat.pow_succ, Nat.mod_mul]
  ring

theorem foldl_ofNumber : ∀ width n acc : Nat,
    (ofNumber width n).foldl (fun n b => 256 * n + b.toNat) acc = acc * 256 ^ width + n % 256 ^ width
  | 0, n, acc => by simp [ofNumber, Nat.mod_one]
  | width + 1, n, acc => by
    rw [ofNumber, List.foldl_cons, foldl_ofNumber width n, mod_pow_succ, UInt8.toNat_ofNat']
    ring

theorem toNumber_ofNumber (width n : Nat) : toNumber (ofNumber width n) = n % 256 ^ width := by
  unfold toNumber
  rw [foldl_ofNumber, Nat.zero_mul, Nat.zero_add]

theorem foldl_eq_add (blob : Blob) (acc : Nat) :
    blob.foldl (fun n b => 256 * n + b.toNat) acc = acc * 256 ^ blob.length + toNumber blob := by
  unfold toNumber
  induction blob generalizing acc with
  | nil => simp
  | cons b blob ih =>
    rw [List.foldl_cons, List.foldl_cons, ih, ih (256 * 0 + b.toNat), List.length_cons, Nat.pow_succ]
    ring

theorem toNumber_cons (b : UInt8) (blob : Blob) : toNumber (b :: blob) = b.toNat * 256 ^ blob.length + toNumber blob := by
  show blob.foldl _ (256 * 0 + b.toNat) = _
  rw [foldl_eq_add, Nat.mul_zero, Nat.zero_add]

theorem toNumber_lt (blob : Blob) : toNumber blob < 256 ^ blob.length := by
  induction blob with
  | nil => simp [toNumber]
  | cons b blob ih =>
    have hb : b.toNat + 1 ≤ 256 := b.toNat_lt
    have hmul := Nat.mul_le_mul_right (256 ^ blob.length) hb
    rw [toNumber_cons, List.length_cons, Nat.pow_succ]
    rw [Nat.add_mul] at hmul
    omega

/-- Digits above the width are not written. -/
theorem ofNumber_mul_add : ∀ width q r : Nat, ofNumber width (q * 256 ^ width + r) = ofNumber width r
  | 0, _, _ => rfl
  | width + 1, q, r => by
    have hpos : 0 < 256 ^ width := Nat.pow_pos (by decide)
    have hq : q * 256 ^ (width + 1) + r = q * 256 * 256 ^ width + r := by rw [Nat.pow_succ]; ring
    have hdiv : (q * 256 * 256 ^ width + r) / 256 ^ width = q * 256 + r / 256 ^ width := by
      rw [Nat.add_comm, Nat.add_mul_div_right _ _ hpos, Nat.add_comm]
    rw [ofNumber, ofNumber, hq, ofNumber_mul_add width, hdiv]
    congr 1
    apply UInt8.toNat_inj.1
    rw [UInt8.toNat_ofNat', UInt8.toNat_ofNat']
    omega

/-- Bytes are the digits of the number they spell. -/
theorem ofNumber_toNumber (blob : Blob) : ofNumber blob.length (toNumber blob) = blob := by
  induction blob with
  | nil => rfl
  | cons b blob ih =>
    have hpos : 0 < 256 ^ blob.length := Nat.pow_pos (by decide)
    have hdiv : (b.toNat * 256 ^ blob.length + toNumber blob) / 256 ^ blob.length = b.toNat := by
      rw [Nat.add_comm, Nat.add_mul_div_right _ _ hpos, Nat.div_eq_of_lt (toNumber_lt blob), Nat.zero_add]
    rw [toNumber_cons, List.length_cons, ofNumber, ofNumber_mul_add, ih, hdiv]
    congr 1
    exact UInt8.ofNat_toNat

/-- Bits of a whole number of bytes read back. -/
theorem ofNat_toNumber_ofNumber (width : Nat) (b : BitVec (8 * width)) :
    BitVec.ofNat (8 * width) (toNumber (ofNumber width b.toNat)) = b := by
  have hpow : 2 ^ (8 * width) = 256 ^ width := Nat.pow_mul 2 8 width
  have hlt : b.toNat < 256 ^ width := hpow ▸ b.isLt
  rw [toNumber_ofNumber, Nat.mod_eq_of_lt hlt, BitVec.ofNat_toNat, BitVec.setWidth_eq]

/-- Two-digit numbers compare by their high digits, then by their low ones. -/
theorem compare_mul_add {m q q' r r' : Nat} (hr : r < m) (hr' : r' < m) :
    compare (q * m + r) (q' * m + r') = (compare q q').then (compare r r') := by
  rcases Nat.lt_trichotomy q q' with h | rfl | h
  · have hlt : q * m + r < q' * m + r' := by
      have := Nat.mul_le_mul_right m h
      rw [Nat.succ_mul] at this
      omega
    rw [Nat.compare_eq_lt.2 hlt, Nat.compare_eq_lt.2 h]
    rfl
  · rw [Nat.compare_eq_eq.2 (rfl : q = q), Ordering.eq_then]
    rcases Nat.lt_trichotomy r r' with h | rfl | h
    · rw [Nat.compare_eq_lt.2 h, Nat.compare_eq_lt.2 (by omega)]
    · rw [Nat.compare_eq_eq.2 rfl, Nat.compare_eq_eq.2 rfl]
    · rw [Nat.compare_eq_gt.2 h, Nat.compare_eq_gt.2 (by omega)]
  · have hlt : q' * m + r' < q * m + r := by
      have := Nat.mul_le_mul_right m h
      rw [Nat.succ_mul] at this
      omega
    rw [Nat.compare_eq_gt.2 hlt, Nat.compare_eq_gt.2 h]
    rfl

theorem compare_ofNumber_mod : ∀ width a b : Nat,
    compare (ofNumber width a) (ofNumber width b) = compare (a % 256 ^ width) (b % 256 ^ width)
  | 0, a, b => by simp [ofNumber, Nat.mod_one]
  | width + 1, a, b => by
    have hpos : 0 < 256 ^ width := Nat.pow_pos (by decide)
    rw [ofNumber, ofNumber, List.compare_cons_cons, compare_ofNumber_mod width a b, mod_pow_succ a, mod_pow_succ b,
      compare_mul_add (Nat.mod_lt _ hpos) (Nat.mod_lt _ hpos)]
    congr 1
    show compareOfLessAndEq _ _ = compareOfLessAndEq _ _
    simp only [compareOfLessAndEq, UInt8.lt_iff_toNat_lt, ← UInt8.toNat_inj, UInt8.toNat_ofNat']

theorem compare_ofNumber {width a b : Nat} (ha : a < 256 ^ width) (hb : b < 256 ^ width) :
    compare (ofNumber width a) (ofNumber width b) = compare a b := by
  rw [compare_ofNumber_mod, Nat.mod_eq_of_lt ha, Nat.mod_eq_of_lt hb]

/-- Strings of one width put one after another are cut apart again. -/
theorem chunks_flatMap {α : Type} {width : Nat} (hw : 0 < width) {f : α → Blob} (hf : ∀ a, (f a).length = width)
    (l : List α) : chunks width (l.flatMap f) = (l.map f, []) := by
  have hlen : ∀ l : List α, (l.flatMap f).length = width * l.length := by
    intro l
    induction l with
    | nil => rfl
    | cons a l ih => rw [List.flatMap_cons, List.length_append, hf, ih, List.length_cons]; ring
  have hdrop : ∀ (l : List α) (i : Nat), (l.flatMap f).drop (width * i) = (l.drop i).flatMap f := by
    intro l i
    induction l generalizing i with
    | nil => simp
    | cons a l ih =>
      cases i with
      | zero => rfl
      | succ i =>
        have hi : width * (i + 1) = width + width * i := by ring
        rw [List.flatMap_cons, hi, ← List.drop_drop, List.drop_left' (hf a), ih, List.drop_succ_cons]
  unfold chunks
  rw [hlen, Nat.mul_div_cancel_left _ hw, hdrop, List.drop_length, List.flatMap_nil]
  congr 1
  refine List.ext_getElem (by simp) fun i hi hi' => ?_
  have hil : i < l.length := by simpa using hi'
  rw [List.getElem_map, List.getElem_range, List.getElem_map, hdrop, List.drop_eq_getElem_cons hil, List.flatMap_cons,
    List.take_left' (hf _)]

end Bytes
