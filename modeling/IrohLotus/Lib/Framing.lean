/-
Frames on a byte stream: each body behind its length, a big-endian number of a fixed width. What the
bytes that have arrived begin with is a whole frame, the front part of one, or a length over the limit;
the first and the last stay what they are whatever arrives later.
-/
import IrohLotus.Lib.Bytes

namespace Framing

open Bytes

/-- A body behind its length, a number of `width` bytes. -/
def frame (width : Nat) (body : Blob) : Blob := ofNumber width body.length ++ body

/-- What the bytes that have arrived begin with. -/
inductive Front where
  | short
  | oversized (len : Nat)
  | whole (body rest : Blob)
deriving DecidableEq

/-- Judges the length once all of it is there, and the body once all of that is. -/
def front (width limit : Nat) (bytes : Blob) : Front :=
  if bytes.length < width then .short
  else if limit < toNumber (bytes.take width) then .oversized (toNumber (bytes.take width))
  else if bytes.length < width + toNumber (bytes.take width) then .short
  else .whole ((bytes.drop width).take (toNumber (bytes.take width))) (bytes.drop (width + toNumber (bytes.take width)))

variable {width limit len : Nat} {bytes body rest : Blob}

theorem length_frame (width : Nat) (body : Blob) : (frame width body).length = width + body.length := by
  rw [frame, List.length_append, length_ofNumber]

theorem toNumber_take_frame (h : body.length < 256 ^ width) (rest : Blob) :
    toNumber ((frame width body ++ rest).take width) = body.length := by
  rw [frame, List.append_assoc, List.take_left' (length_ofNumber _ _), toNumber_ofNumber, Nat.mod_eq_of_lt h]

/-- A whole frame within the limit is read off with what follows it. -/
theorem front_frame (hlimit : body.length ≤ limit) (hwidth : limit < 256 ^ width) (rest : Blob) :
    front width limit (frame width body ++ rest) = .whole body rest := by
  have hlen : (frame width body ++ rest).length = width + body.length + rest.length := by
    rw [List.length_append, length_frame]
  unfold front
  rw [toNumber_take_frame (by omega), hlen, if_neg (by omega), if_neg (by omega), if_neg (by omega)]
  congr 1
  · rw [frame, List.append_assoc, List.drop_left' (length_ofNumber _ _), List.take_left]
  · rw [List.drop_left' (length_frame width body)]

/-- What a whole frame at the front says of the bytes. -/
theorem of_front_whole (h : front width limit bytes = .whole body rest) :
    bytes = bytes.take width ++ (body ++ rest) ∧ width ≤ bytes.length ∧ body.length = toNumber (bytes.take width) ∧
      body.length ≤ limit := by
  unfold front at h
  generalize hlen : toNumber (bytes.take width) = len at h
  split at h
  · cases h
  split at h
  · cases h
  split at h
  · cases h
  rename_i hwidth hlimit hbytes
  cases h
  have hbody : ((bytes.drop width).take len).length = len := by
    rw [List.length_take, List.length_drop]
    omega
  refine ⟨?_, by omega, hbody, by omega⟩
  rw [← List.drop_drop, List.take_append_drop, List.take_append_drop]

/-- The bytes behind a whole frame are fewer. -/
theorem length_lt_of_front (hwidth : 0 < width) (h : front width limit bytes = .whole body rest) :
    rest.length < bytes.length := by
  obtain ⟨hbytes, hle, -, -⟩ := of_front_whole h
  have hlen := congrArg List.length hbytes
  simp only [List.length_append, List.length_take] at hlen
  omega

theorem front_of_lt (h : bytes.length < width) : front width limit bytes = .short := by
  unfold front
  rw [if_pos h]

/-- A length over the limit is judged before any of the body. -/
theorem front_of_over {head : Blob} (hlen : head.length = width) (hover : limit < toNumber head) (rest : Blob) :
    front width limit (head ++ rest) = .oversized (toNumber head) := by
  unfold front
  rw [List.take_left' hlen, List.length_append, if_neg (by omega), if_pos hover]

/-- Part of a frame is not taken for a whole one. -/
theorem front_of_part {seen missing : Blob} (hmissing : missing ≠ []) (h : seen ++ missing = frame width body)
    (hlimit : body.length ≤ limit) (hwidth : limit < 256 ^ width) : front width limit seen = .short := by
  have hlen : seen.length + missing.length = width + body.length := by
    rw [← List.length_append, h, length_frame]
  have hpos : 0 < missing.length := List.length_pos_iff.2 hmissing
  unfold front
  by_cases hshort : seen.length < width
  · rw [if_pos hshort]
  have htake : seen.take width = (frame width body ++ []).take width := by
    rw [List.append_nil, ← h, List.take_append_of_le_length (by omega)]
  rw [if_neg hshort, htake, toNumber_take_frame (by omega), if_neg (by omega), if_pos (by omega)]

end Framing
