/-
Deterministic CBOR (RFC 8949, section 4.2.1): the shortest head for every length and number, the
entries of a map in the byte order of their encoded keys. What is written reads back, up to that
order. A length the format cannot hold takes a head the format reserves, so that the writer is total.
-/
import IrohLotus.Lib.Serde

namespace Cbor

open Bytes Serde

/-! ## Writing -/

/-- The first bytes of an item: its major type and a number, in the fewest bytes. -/
def head (major n : Nat) : Blob :=
  if n < 24 then [UInt8.ofNat (32 * major + n)]
  else if n < 2 ^ 8 then UInt8.ofNat (32 * major + 24) :: ofNumber 1 n
  else if n < 2 ^ 16 then UInt8.ofNat (32 * major + 25) :: ofNumber 2 n
  else if n < 2 ^ 32 then UInt8.ofNat (32 * major + 26) :: ofNumber 4 n
  else if n < 2 ^ 64 then UInt8.ofNat (32 * major + 27) :: ofNumber 8 n
  else UInt8.ofNat (32 * major + 28) :: (List.replicate n 0 ++ [1])

/-- The bytes of a text. -/
def utf8 (s : String) : Blob := s.toByteArray.data.toList

mutual

def write : Tree → Blob
  | .null => head 7 22
  | .bool flag => head 7 (if flag then 21 else 20)
  | .int n => if 0 ≤ n then head 0 n.toNat else head 1 (-1 - n).toNat
  | .text s => head 3 (utf8 s).length ++ utf8 s
  | .bytes blob => head 2 blob.length ++ blob
  | .seq items => head 4 items.length ++ writeItems items
  | .map entries => head 5 entries.length ++
    ((writeEntries entries).insertionSort fun a b => compare a.2.1 b.2.1 ≠ .gt).flatMap fun e => e.2.1 ++ e.2.2

def writeItems : List Tree → Blob
  | [] => []
  | item :: rest => write item ++ writeItems rest

/-- Each entry with the bytes of its key and of its value. -/
def writeEntries : List (Tree × Tree) → List ((Tree × Tree) × Blob × Blob)
  | [] => []
  | (key, value) :: rest => ((key, value), write key, write value) :: writeEntries rest

end

/-! ## Reading -/

/-- The major type and the number of a head, and what follows it. -/
def readHead : Blob → Option (Nat × Nat × Blob)
  | [] => none
  | b :: rest =>
    let major := b.toNat / 32
    let info := b.toNat % 32
    if info < 24 then some (major, info, rest)
    else if info = 28 then some (major, (rest.takeWhile (· = 0)).length, (rest.dropWhile (· = 0)).drop 1)
    else
      let width := 2 ^ (info - 24)
      if info < 28 ∧ width ≤ rest.length then some (major, toNumber (rest.take width), rest.drop width) else none

/-- `n` items, one after another. -/
def readItems (read : Blob → Option (Tree × Blob)) : Nat → Blob → Option (List Tree × Blob)
  | 0, bytes => some ([], bytes)
  | n + 1, bytes => do
    let (item, bytes) ← read bytes
    let (rest, bytes) ← readItems read n bytes
    pure (item :: rest, bytes)

/-- `n` entries, one after another. -/
def readEntries (read : Blob → Option (Tree × Blob)) : Nat → Blob → Option (List (Tree × Tree) × Blob)
  | 0, bytes => some ([], bytes)
  | n + 1, bytes => do
    let (key, bytes) ← read bytes
    let (value, bytes) ← read bytes
    let (rest, bytes) ← readEntries read n bytes
    pure ((key, value) :: rest, bytes)

/-- An item after its head, its parts read by `read`, and what follows it. -/
def readBody (read : Blob → Option (Tree × Blob)) (major n : Nat) (rest : Blob) : Option (Tree × Blob) :=
  match major with
  | 0 => some (.int n, rest)
  | 1 => some (.int (-1 - n), rest)
  | 2 => if n ≤ rest.length then some (.bytes (rest.take n), rest.drop n) else none
  | 3 =>
    if n ≤ rest.length then do
      let s ← String.fromUTF8? ⟨(rest.take n).toArray⟩
      pure (.text s, rest.drop n)
    else none
  | 4 => (readItems read n rest).map fun r => (.seq r.1, r.2)
  | 5 => (readEntries read n rest).map fun r => (.map r.1, r.2)
  | 7 =>
    if n = 20 then some (.bool false, rest)
    else if n = 21 then some (.bool true, rest)
    else if n = 22 then some (.null, rest)
    else none
  | _ => none

/-- One item, nested at most `depth` deep, and what follows it. -/
def read : Nat → Blob → Option (Tree × Blob)
  | 0, _ => none
  | depth + 1, bytes => do
    let (major, n, rest) ← readHead bytes
    readBody (read depth) major n rest

/-- A whole item: nothing may follow it. -/
def readAll (bytes : Blob) : Option Tree :=
  match read bytes.length bytes with
  | some (t, []) => some t
  | _ => none

/-! ## Heads -/

theorem readHead_cons {major info : Nat} (hmajor : major < 8) (hinfo : info < 32) (rest : Blob) :
    readHead (UInt8.ofNat (32 * major + info) :: rest) =
      if info < 24 then some (major, info, rest)
      else if info = 28 then some (major, (rest.takeWhile (· = 0)).length, (rest.dropWhile (· = 0)).drop 1)
      else if info < 28 ∧ 2 ^ (info - 24) ≤ rest.length then
        some (major, toNumber (rest.take (2 ^ (info - 24))), rest.drop (2 ^ (info - 24)))
      else none := by
  have hbyte : (UInt8.ofNat (32 * major + info)).toNat = 32 * major + info := by
    rw [UInt8.toNat_ofNat']
    omega
  have hdiv : (32 * major + info) / 32 = major := by omega
  have hmod : (32 * major + info) % 32 = info := by omega
  simp only [readHead, hbyte, hdiv, hmod]

/-- A number of a fixed width reads back. -/
theorem readHead_width {major info n : Nat} (hmajor : major < 8) (hinfo : 24 ≤ info) (hinfo' : info < 28)
    (hn : n < 256 ^ 2 ^ (info - 24)) (rest : Blob) :
    readHead (UInt8.ofNat (32 * major + info) :: (ofNumber (2 ^ (info - 24)) n ++ rest)) = some (major, n, rest) := by
  have hlen : (ofNumber (2 ^ (info - 24)) n).length = 2 ^ (info - 24) := length_ofNumber _ n
  rw [readHead_cons hmajor (by omega), if_neg (by omega), if_neg (by omega), if_pos ⟨hinfo', by simp⟩,
    List.take_left' hlen, List.drop_left' hlen, toNumber_ofNumber, Nat.mod_eq_of_lt hn]

theorem readHead_head {major n : Nat} (hmajor : major < 8) (rest : Blob) :
    readHead (head major n ++ rest) = some (major, n, rest) := by
  unfold head
  split
  · rename_i h
    rw [List.singleton_append, readHead_cons hmajor (by omega), if_pos h]
  split
  · exact readHead_width hmajor (by decide) (by decide) (by simpa using ‹n < 2 ^ 8›) rest
  split
  · exact readHead_width hmajor (by decide) (by decide) (by simpa using ‹n < 2 ^ 16›) rest
  split
  · exact readHead_width hmajor (by decide) (by decide) (by simpa using ‹n < 2 ^ 32›) rest
  split
  · exact readHead_width hmajor (by decide) (by decide) (by simpa using ‹n < 2 ^ 64›) rest
  · have htake : (List.replicate n (0 : UInt8) ++ ([1] ++ rest)).takeWhile (· = 0) = List.replicate n 0 := by
      rw [List.takeWhile_append_of_pos (by simp)]
      simp
    have hdrop : (List.replicate n (0 : UInt8) ++ ([1] ++ rest)).dropWhile (· = 0) = [1] ++ rest := by
      rw [List.dropWhile_append_of_pos (by simp)]
      simp
    rw [List.cons_append, List.append_assoc, readHead_cons hmajor (by decide), if_neg (by decide), if_pos rfl, htake, hdrop]
    simp

theorem head_ne_nil (major n : Nat) : head major n ≠ [] := by
  unfold head
  repeat' split
  all_goals exact List.cons_ne_nil _ _

/-! ## Lengths -/

theorem length_head_of_lt {major n : Nat} (hn : n < 24) : (head major n).length = 1 := by
  unfold head
  rw [if_pos hn]
  rfl

/-- Three bytes are enough for a number of sixteen bits. -/
theorem length_head_le {major n : Nat} (hn : n < 2 ^ 16) : (head major n).length ≤ 3 := by
  unfold head
  split
  · rw [List.length_singleton]
    omega
  split
  · rw [List.length_cons, length_ofNumber]
    omega
  · rw [List.length_cons, length_ofNumber]

theorem length_writeItems (items : List Tree) : (writeItems items).length = (items.map fun item => (write item).length).sum := by
  induction items with
  | nil => rw [writeItems, List.map_nil, List.sum_nil, List.length_nil]
  | cons item rest ih => rw [writeItems, List.length_append, ih, List.map_cons, List.sum_cons]

theorem length_write_seq (items : List Tree) :
    (write (.seq items)).length = (head 4 items.length).length + (items.map fun item => (write item).length).sum := by
  rw [write, List.length_append, length_writeItems]

theorem length_write_bytes (blob : Blob) : (write (.bytes blob)).length = (head 2 blob.length).length + blob.length := by
  rw [write, List.length_append]

theorem writeEntries_eq_map (entries : List (Tree × Tree)) :
    writeEntries entries = entries.map fun e => (e, write e.1, write e.2) := by
  induction entries with
  | nil => rw [writeEntries, List.map_nil]
  | cons entry rest ih =>
    obtain ⟨key, value⟩ := entry
    rw [writeEntries, List.map_cons, ih]

/-- The order of the entries does not matter to the length of a map. -/
theorem length_write_map (entries : List (Tree × Tree)) :
    (write (.map entries)).length =
      (head 5 entries.length).length + (entries.map fun e => (write e.1).length + (write e.2).length).sum := by
  have hperm := List.perm_insertionSort (fun a b => compare a.2.1 b.2.1 ≠ .gt) (writeEntries entries)
  have hsum := (hperm.map fun e : (Tree × Tree) × Blob × Blob => (e.2.1 ++ e.2.2).length).sum_eq
  rw [write, List.length_append, List.length_flatMap, hsum, writeEntries_eq_map, List.map_map]
  congr 2
  refine List.map_congr_left fun e _ => ?_
  rw [Function.comp_apply, List.length_append]

/-! ## What was written reads back -/

/-- However much follows it, what is written of `t` reads as `t` up to the order of entries. -/
def Rereads (t : Tree) : Prop :=
  ∃ t', Reordered t t' ∧ ∀ depth rest, (write t).length ≤ depth → read depth (write t ++ rest) = some (t', rest)

/-- An item is read off its head and its body. -/
theorem rereads_of_body {t t' : Tree} (major : Nat) {n : Nat} {body : Blob} (hmajor : major < 8) (hw : write t = head major n ++ body)
    (ht : Reordered t t')
    (hbody : ∀ depth rest, body.length ≤ depth → readBody (read depth) major n (body ++ rest) = some (t', rest)) :
    Rereads t := by
  refine ⟨t', ht, fun depth rest hdepth => ?_⟩
  have hpos : 0 < (head major n).length := List.length_pos_iff.2 (head_ne_nil major n)
  rw [hw, List.length_append] at hdepth
  obtain ⟨depth, rfl⟩ : ∃ d, depth = d + 1 := ⟨depth - 1, by omega⟩
  rw [hw, List.append_assoc, read, readHead_head hmajor]
  exact hbody depth rest (by omega)

/-- The entries of a map, read one after another. -/
theorem readEntries_of_rereads : ∀ {l : List ((Tree × Tree) × Blob × Blob)},
    (∀ e ∈ l, Rereads e.1.1 ∧ Rereads e.1.2 ∧ e.2 = (write e.1.1, write e.1.2)) →
    ∃ rs, ReorderedEntries (l.map Prod.fst) rs ∧ ∀ depth rest, (l.flatMap fun e => e.2.1 ++ e.2.2).length ≤ depth →
      readEntries (read depth) l.length ((l.flatMap fun e => e.2.1 ++ e.2.2) ++ rest) = some (rs, rest)
  | [], _ => ⟨[], .nil, fun _ _ _ => rfl⟩
  | ((k, v), kb, vb) :: l, h => by
    obtain ⟨⟨k', hk, hkread⟩, ⟨v', hv, hvread⟩, heq⟩ := h _ List.mem_cons_self
    obtain ⟨rs, hrs, hread⟩ := readEntries_of_rereads fun e he => h e (List.mem_cons_of_mem _ he)
    have hkb : kb = write k := congrArg Prod.fst heq
    have hvb : vb = write v := congrArg Prod.snd heq
    subst hkb hvb
    refine ⟨(k', v') :: rs, .cons hk hv hrs, fun depth rest hdepth => ?_⟩
    simp only [List.flatMap_cons, List.length_append] at hdepth hkread hvread
    simp only [List.flatMap_cons, List.length_cons, readEntries, List.append_assoc]
    rw [hkread depth _ (by omega)]
    simp only [Option.bind_eq_bind, Option.bind_some]
    rw [hvread depth _ (by omega)]
    simp only [Option.bind_some]
    rw [hread depth rest (by omega)]
    rfl

theorem map_fst_writeEntries (entries : List (Tree × Tree)) : (writeEntries entries).map Prod.fst = entries := by
  rw [writeEntries_eq_map, List.map_map]
  exact List.map_id entries

theorem ReorderedEntries.forall₂ : ∀ {ps qs : List (Tree × Tree)}, ReorderedEntries ps qs →
    List.Forall₂ (fun p q => Reordered p.1 q.1 ∧ Reordered p.2 q.2) ps qs
  | _, _, .nil => .nil
  | _, _, .cons hk hv hrest => .cons ⟨hk, hv⟩ (ReorderedEntries.forall₂ hrest)

theorem reorderedEntries_of_forall₂ : ∀ {ps qs : List (Tree × Tree)},
    List.Forall₂ (fun p q => Reordered p.1 q.1 ∧ Reordered p.2 q.2) ps qs → ReorderedEntries ps qs
  | _, _, .nil => .nil
  | _, _, .cons h hrest => .cons h.1 h.2 (reorderedEntries_of_forall₂ hrest)

theorem fromUTF8_utf8 (s : String) : String.fromUTF8? ⟨(utf8 s).toArray⟩ = some s := by
  have hbytes : (⟨(utf8 s).toArray⟩ : ByteArray) = s.toByteArray := by
    unfold utf8
    rw [Array.toArray_toList]
  unfold String.fromUTF8?
  rw [hbytes, dif_pos s.isValidUTF8]
  rfl

mutual

theorem rereads : ∀ t : Tree, Rereads t
  | .null => rereads_of_body 7 (by decide) (by rw [write, List.append_nil]) .null fun _ _ _ => rfl
  | .bool true => rereads_of_body 7 (by decide) (by rw [write, List.append_nil]) (.bool true) fun _ _ _ => rfl
  | .bool false => rereads_of_body 7 (by decide) (by rw [write, List.append_nil]) (.bool false) fun _ _ _ => rfl
  | .int n => by
    by_cases hn : 0 ≤ n
    · refine rereads_of_body 0 (by decide) (by rw [write, if_pos hn, List.append_nil]) (.int n) fun _ rest _ => ?_
      rw [List.nil_append, readBody, Int.toNat_of_nonneg hn]
    · refine rereads_of_body 1 (by decide) (by rw [write, if_neg hn, List.append_nil]) (.int n) fun _ rest _ => ?_
      have hneg : (-1 - (((-1 - n).toNat : Nat) : Int)) = n := by omega
      rw [List.nil_append, readBody, hneg]
  | .text s => by
    refine rereads_of_body 3 (by decide) (by rw [write]) (.text s) fun _ rest _ => ?_
    rw [readBody, if_pos (by simp), List.take_left' rfl, List.drop_left' rfl, fromUTF8_utf8]
    rfl
  | .bytes blob => by
    refine rereads_of_body 2 (by decide) (by rw [write]) (.bytes blob) fun _ rest _ => ?_
    rw [readBody, if_pos (by simp), List.take_left' rfl, List.drop_left' rfl]
  | .seq items => by
    obtain ⟨ys, hys, hread⟩ := rereadsItems items
    refine rereads_of_body 4 (by decide) (by rw [write]) (.seq hys) fun depth rest hdepth => ?_
    rw [readBody, hread depth rest hdepth]
    rfl
  | .map entries => by
    have hperm := List.perm_insertionSort (fun a b => compare a.2.1 b.2.1 ≠ .gt) (writeEntries entries)
    have hentries := rereadsEntries entries
    generalize hl : (writeEntries entries).insertionSort (fun a b => compare a.2.1 b.2.1 ≠ .gt) = l at hperm
    obtain ⟨rs, hrs, hread⟩ := readEntries_of_rereads (l := l) fun e he => hentries e (hperm.mem_iff.1 he)
    have hperm' : entries.Perm (l.map Prod.fst) := by
      have := (hperm.map Prod.fst).symm
      rwa [map_fst_writeEntries] at this
    have hlen : l.length = entries.length := by
      rw [hperm'.length_eq, List.length_map]
    -- what the sorted entries became, put back in the order of `entries`
    obtain ⟨qs, hqs, hqs'⟩ := List.perm_comp_forall₂ hperm' (ReorderedEntries.forall₂ hrs)
    refine rereads_of_body 5 (by decide) (by rw [write, hl]) (.map (reorderedEntries_of_forall₂ hqs) hqs') fun depth rest hdepth => ?_
    rw [readBody, ← hlen, hread depth rest hdepth]
    rfl

theorem rereadsItems : ∀ items : List Tree, ∃ ys, ReorderedItems items ys ∧ ∀ depth rest, (writeItems items).length ≤ depth →
    readItems (read depth) items.length (writeItems items ++ rest) = some (ys, rest)
  | [] => ⟨[], .nil, fun _ _ _ => by rw [writeItems]; rfl⟩
  | item :: items => by
    obtain ⟨y, hy, hread⟩ := rereads item
    obtain ⟨ys, hys, hreads⟩ := rereadsItems items
    refine ⟨y :: ys, .cons hy hys, fun depth rest hdepth => ?_⟩
    rw [writeItems, List.length_append] at hdepth
    rw [writeItems, List.length_cons, readItems, List.append_assoc, hread depth _ (by omega)]
    simp only [Option.bind_eq_bind, Option.bind_some]
    rw [hreads depth rest (by omega)]
    rfl

theorem rereadsEntries : ∀ entries : List (Tree × Tree), ∀ e ∈ writeEntries entries,
    Rereads e.1.1 ∧ Rereads e.1.2 ∧ e.2 = (write e.1.1, write e.1.2)
  | [], e, he => by rw [writeEntries] at he; cases he
  | (key, value) :: rest, e, he => by
    rw [writeEntries] at he
    rcases List.mem_cons.1 he with rfl | he
    · exact ⟨rereads key, rereads value, rfl⟩
    · exact rereadsEntries rest e he

end

theorem readAll_write (t : Tree) : ∃ t', readAll (write t) = some t' ∧ Reordered t t' := by
  obtain ⟨t', ht', hread⟩ := rereads t
  have hall := hread (write t).length [] le_rfl
  rw [List.append_nil] at hall
  refine ⟨t', ?_, ht'⟩
  unfold readAll
  rw [hall]

end Cbor
