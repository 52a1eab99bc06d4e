/-
The text of an invite (`lotusd::invite`): a prefix over the invite's canonical CBOR in lower-case
base32, read back whatever whitespace is around it, and how long it is still good for by a clock.

The endpoint's own encoding and base32 are not in the repository and are parameters.
-/
import IrohLotus.Lib.Base32
import IrohLotus.Lib.Outcome
import IrohLotus.Lib.Text
import IrohLotus.Lotusd.Invites
import IrohLotus.Wire.RoundTrip

namespace IrohLotus.InviteText

open Bytes Serde Outcome Text IrohLotus.Wire
open IrohLotus.Lotusd (Token)

/-! ## What is outside the repository -/

/-- iroh's endpoint address, as its serde implementation writes and reads it. -/
class EndpointSerde where
  EndpointAddr : Type
  serialize : EndpointAddr → Tree
  deserialize : Tree → Option EndpointAddr
  faithful : ∀ addr, Reads (serialize addr) deserialize addr

/-- `data_encoding::BASE32_NOPAD`: bytes as a text, and the bytes of a text read back. -/
class Base32NoPad where
  encode : Blob → List Char
  decode : Blob → Option Blob
  symbols : ∀ blob, ∀ c ∈ encode blob, c.isUpper ∨ c.isDigit
  faithful : ∀ blob, decode ((encode blob).flatMap String.utf8EncodeChar) = some blob

/-! ## Invites -/

/-- What every invite text starts with. -/
def PREFIX : List Char := ['l', 'o', 't', 'u', 's', '1']

/-- The invite format spoken by this build. -/
def VERSION : UInt32 := 1

/-- A token travels as a byte string. -/
def serializeToken (token : Token) : Tree := .bytes (ofNumber 32 token.bytes.toNat)

def deserializeToken : Tree → Option Token
  | .bytes blob => if blob.length = 32 then some ⟨BitVec.ofNat 256 (toNumber blob)⟩ else none
  | _ => none

/-- Why a text is not an invite. -/
inductive DecodeError where
  | prefixMissing
  | base32
  | wire (e : WireError)
  | version (version : UInt32)
deriving DecidableEq

/-- `char::is_whitespace`. -/
def isWhitespace (c : Char) : Bool :=
  (9 ≤ c.toNat && c.toNat ≤ 13) || [0x20, 0x85, 0xa0, 0x1680, 0x2028, 0x2029, 0x202f, 0x205f, 0x3000].contains c.toNat ||
    (0x2000 ≤ c.toNat && c.toNat ≤ 0x200a)

/-- A reading of the system clock: nanoseconds since the unix epoch, below zero before it. -/
abbrev SystemTime := Int

/-- `SystemTime::duration_since(UNIX_EPOCH)` in whole milliseconds, none for a clock before the epoch. -/
def sinceEpoch (now : SystemTime) : Option Nat := if now < 0 then none else some (now.toNat / 1000000)

/-- `i64::try_from(..).unwrap_or(i64::MAX)`. -/
def saturate (millis : Nat) : Int64 := if millis < 2 ^ 63 then Int64.ofNat millis else Int64.maxValue

/-! ## Letters and the clock -/

theorem reads_token (token : Token) : Reads (serializeToken token) deserializeToken token := by
  intro t ht
  cases ht
  have hlen : (ofNumber 32 token.bytes.toNat).length = 32 := length_ofNumber 32 _
  show (if (ofNumber 32 token.bytes.toNat).length = 32 then some (Token.mk (BitVec.ofNat 256 (toNumber _))) else none) = _
  rw [if_pos hlen]
  exact congrArg (fun b => some (Token.mk b)) (ofNat_toNumber_ofNumber 32 token.bytes)

/-- What upper case or digits become in lower case is no whitespace, and upper case gives them back. -/
theorem symbol_folds {c : Char} (h : c.isUpper ∨ c.isDigit) :
    c.toLower.toUpper = c ∧ isWhitespace c.toLower = false := by
  have hfolds : ∀ n < 128, (Char.ofNat n).isUpper ∨ (Char.ofNat n).isDigit →
      (Char.ofNat n).toLower.toUpper = Char.ofNat n ∧ isWhitespace (Char.ofNat n).toLower = false := by decide
  have hlt : c.toNat < 128 := by
    rcases h with h | h
    · simp only [Char.isUpper, decide_eq_true_eq] at h
      exact lt_of_le_of_lt (UInt32.le_iff_toNat_le.1 h.2) (by decide)
    · simp only [Char.isDigit, Bool.and_eq_true, decide_eq_true_eq] at h
      exact lt_of_le_of_lt (UInt32.le_iff_toNat_le.1 h.2) (by decide)
  have hc := hfolds c.toNat hlt
  rw [Char.ofNat_toNat] at hc
  exact hc h

/-- Milliseconds since the epoch by a clock; none by one that stands before it. -/
def millis (now : SystemTime) : Int := max 0 now / 1000000

theorem millis_nonneg (now : SystemTime) : 0 ≤ millis now := by
  exact Int.ediv_nonneg (le_max_left _ _) (by decide)

/-- The reading the code subtracts: the clock's milliseconds, or the last `i64` beyond it. -/
theorem toInt_saturated (now : SystemTime) :
    ((sinceEpoch now).elim 0 saturate).toInt = min (millis now) (2 ^ 63 - 1) := by
  unfold sinceEpoch millis
  by_cases hnow : now < 0
  · have hmax : max 0 now = 0 := max_eq_left (le_of_lt hnow)
    rw [if_pos hnow, hmax]
    rfl
  · have hdiv : ((now.toNat / 1000000 : Nat) : Int) = max 0 now / 1000000 := by
      rw [max_eq_right (not_lt.1 hnow), Int.natCast_ediv, Int.toNat_of_nonneg (not_lt.1 hnow)]
      rfl
    rw [if_neg hnow, Option.elim_some, ← hdiv]
    unfold saturate
    by_cases hfits : now.toNat / 1000000 < 2 ^ 63
    · rw [if_pos hfits, Int64.toInt_ofNat_of_lt hfits]
      omega
    · rw [if_neg hfits]
      show (2 ^ 63 - 1 : Int) = _
      omega

/-- A difference below the least `i64` wraps to a positive number. -/
theorem toInt_sub {a b : Int64} (hb : 0 ≤ b.toInt) :
    (a - b).toInt = if -2 ^ 63 ≤ a.toInt - b.toInt then a.toInt - b.toInt else a.toInt - b.toInt + 2 ^ 64 := by
  have ha := a.le_toInt
  have ha' := a.toInt_lt
  have hb' := b.toInt_lt
  rw [Int64.toInt_sub]
  split
  · exact Int.bmod_eq_of_le (by omega) (by omega)
  · rw [← Int.add_bmod_right]
    exact Int.bmod_eq_of_le (by omega) (by omega)

/-! ## The invite -/

section

variable [EndpointSerde]

/-- Everything a blank node needs to join. -/
structure Invite where
  version : UInt32
  sponsor : KeyId
  endpoint : EndpointSerde.EndpointAddr
  root : EnvelopeDigest
  token : Token
  expiresAtMillis : Int64

namespace Invite

def serialize (invite : Invite) : Tree :=
  record false [(⟨1, "version"⟩, .int invite.version.toNat), (⟨2, "sponsor"⟩, invite.sponsor.serialize false),
    (⟨3, "endpoint"⟩, EndpointSerde.serialize invite.endpoint), (⟨4, "root"⟩, invite.root.serialize false),
    (⟨5, "token"⟩, serializeToken invite.token), (⟨6, "expires_at_millis"⟩, .int invite.expiresAtMillis.toInt)]

def deserialize (t : Tree) : Option Invite := do
  let version ← (t.field false ⟨1, "version"⟩).bind readU32
  let sponsor ← (t.field false ⟨2, "sponsor"⟩).bind (KeyId.deserialize false)
  let endpoint ← (t.field false ⟨3, "endpoint"⟩).bind EndpointSerde.deserialize
  let root ← (t.field false ⟨4, "root"⟩).bind (EnvelopeDigest.deserialize false)
  let token ← (t.field false ⟨5, "token"⟩).bind deserializeToken
  let expiresAtMillis ← (t.field false ⟨6, "expires_at_millis"⟩).bind readI64
  pure { version, sponsor, endpoint, root, token, expiresAtMillis }

/-- How long until the invite expires by this clock, in milliseconds. The subtraction overflows with a
panic where the build checks for overflow, and wraps where it does not. -/
def expiresIn (overflowChecks : Bool) (invite : Invite) (now : SystemTime) : Res Empty Nat :=
  let now := (sinceEpoch now).elim 0 saturate
  let left := invite.expiresAtMillis.toInt - now.toInt
  if overflowChecks ∧ (left < -2 ^ 63 ∨ 2 ^ 63 ≤ left) then .error (.panic "attempt to subtract with overflow")
  else .ok (invite.expiresAtMillis - now).toInt.toNat

section

variable [Cbor2] [Base32NoPad]

/-- The invite as one word. -/
def encode (invite : Invite) : Except WireError (List Char) := do
  let body ← Cbor2.toCanonicalVec invite.serialize
  pure (PREFIX ++ (Base32NoPad.encode body).map Char.toLower)

/-- Reads back what `encode` wrote. Whitespace around the word is forgiven; nothing inside it is. -/
def decode (text : List Char) : Except DecodeError Invite := do
  let body ← (stripMark PREFIX (trimMatches isWhitespace text)).elim (.error .prefixMissing) .ok
  let bytes ← (Base32NoPad.decode ((body.map Char.toUpper).flatMap String.utf8EncodeChar)).elim (.error .base32) .ok
  let t ← (Cbor2.fromSlice bytes).mapError .wire
  let invite ← (deserialize t).elim (.error (.wire .decode)) .ok
  if invite.version ≠ VERSION then .error (.version invite.version) else .ok invite

end

/-! ## The word reads back -/

theorem reads_invite (invite : Invite) : Reads invite.serialize deserialize invite := by
  intro t ht
  have hversion := ht.readField ⟨1, "version"⟩ rfl rfl (reads_u32 invite.version)
  have hsponsor := ht.readField ⟨2, "sponsor"⟩ rfl rfl (reads_keyId invite.sponsor)
  have hendpoint := ht.readField ⟨3, "endpoint"⟩ rfl rfl (EndpointSerde.faithful invite.endpoint)
  have hroot := ht.readField ⟨4, "root"⟩ rfl rfl (reads_envelopeDigest invite.root)
  have htoken := ht.readField ⟨5, "token"⟩ rfl rfl (reads_token invite.token)
  have hexpires := ht.readField ⟨6, "expires_at_millis"⟩ rfl rfl (reads_i64 invite.expiresAtMillis)
  unfold deserialize
  simp only [hversion, hsponsor, hendpoint, hroot, htoken, hexpires, Option.bind_eq_bind, Option.bind_some]
  rfl

section

variable [Cbor2] [Base32NoPad]

/-- An invite has a word, and the word reads back with any whitespace around it. -/
theorem decode_encode {invite : Invite} (hversion : invite.version = VERSION) :
    ∃ text, invite.encode = .ok text ∧ ∀ before after : List Char, (∀ c ∈ before, isWhitespace c) →
      (∀ c ∈ after, isWhitespace c) → decode (before ++ (text ++ after)) = .ok invite := by
  obtain ⟨body, t, hwrite, hread, ht⟩ := Cbor2.faithful invite.serialize
  refine ⟨PREFIX ++ (Base32NoPad.encode body).map Char.toLower, ?_, fun before after hbefore hafter => ?_⟩
  · rw [encode, hwrite]
    rfl
  · have hword : ∀ c ∈ PREFIX ++ (Base32NoPad.encode body).map Char.toLower, isWhitespace c = false := by
      intro c hc
      rcases List.mem_append.1 hc with hc | hc
      · have hprefix : ∀ c ∈ PREFIX, isWhitespace c = false := by simp [PREFIX, isWhitespace]
        exact hprefix c hc
      · obtain ⟨d, hd, rfl⟩ := List.mem_map.1 hc
        exact (symbol_folds (Base32NoPad.symbols body d hd)).2
    have hupper : ((Base32NoPad.encode body).map Char.toLower).map Char.toUpper = Base32NoPad.encode body := by
      rw [List.map_map]
      conv_rhs => rw [← List.map_id (Base32NoPad.encode body)]
      exact List.map_congr_left fun c hc => (symbol_folds (Base32NoPad.symbols body c hc)).1
    have hinvite : deserialize t = some invite := reads_invite invite t ht
    rw [decode, trimMatches_append hbefore hword hafter (by simp [PREFIX]), stripMark_append]
    show (do
      let bytes ← (Base32NoPad.decode ((((Base32NoPad.encode body).map Char.toLower).map Char.toUpper).flatMap
        String.utf8EncodeChar)).elim (.error .base32) .ok
      let t ← (Cbor2.fromSlice bytes).mapError .wire
      let invite ← (deserialize t).elim (.error (.wire .decode)) .ok
      if invite.version ≠ VERSION then .error (.version invite.version) else .ok invite : Except DecodeError Invite) = _
    rw [hupper, Base32NoPad.faithful]
    show (do
      let t ← (Cbor2.fromSlice body).mapError .wire
      let invite ← (deserialize t).elim (.error (.wire .decode)) .ok
      if invite.version ≠ VERSION then .error (.version invite.version) else .ok invite : Except DecodeError Invite) = _
    rw [hread]
    show (do
      let invite ← (deserialize t).elim (.error (.wire .decode)) .ok
      if invite.version ≠ VERSION then .error (.version invite.version) else .ok invite : Except DecodeError Invite) = _
    rw [hinvite]
    show (if invite.version ≠ VERSION then (.error (.version invite.version) : Except DecodeError Invite) else .ok invite) = _
    rw [if_neg (not_not_intro hversion)]

end

/-- What is left is exact when the difference fits an `i64`, and only then. -/
theorem expiresIn_eq_iff (overflowChecks : Bool) (invite : Invite) (now : SystemTime) :
    invite.expiresIn overflowChecks now = .ok (max 0 (invite.expiresAtMillis.toInt - millis now)).toNat ↔
      -2 ^ 63 ≤ invite.expiresAtMillis.toInt - min (millis now) (2 ^ 63 - 1) := by
  have hclock := toInt_saturated now
  have hpos := millis_nonneg now
  have hexp := invite.expiresAtMillis.le_toInt
  have hexp' := invite.expiresAtMillis.toInt_lt
  have hsub := @toInt_sub invite.expiresAtMillis ((sinceEpoch now).elim 0 saturate) (by omega)
  unfold expiresIn
  dsimp only
  rw [hsub, hclock]
  constructor
  · intro h
    by_contra hover
    split at h
    · cases h
    · have hleft := Except.ok.inj h
      omega
  · intro hfits
    rw [if_neg (by omega), if_pos hfits]
    congr 1
    omega

/-- The words of the format this build speaks read back, and what is left of an invite by a clock is the
milliseconds to go, or none, exactly when they are not below the least `i64`. -/
theorem invite_exact_iff [Cbor2] [Base32NoPad] :
    (∀ invite : Invite, invite.version = VERSION → ∃ text, invite.encode = .ok text ∧ ∀ before after : List Char,
      (∀ c ∈ before, isWhitespace c) → (∀ c ∈ after, isWhitespace c) → decode (before ++ (text ++ after)) = .ok invite) ∧
    ∀ (overflowChecks : Bool) (text : List Char) (invite : Invite) (now : SystemTime), decode text = .ok invite →
      (invite.expiresIn overflowChecks now = .ok (max 0 (invite.expiresAtMillis.toInt - millis now)).toNat ↔
        -2 ^ 63 ≤ invite.expiresAtMillis.toInt - min (millis now) (2 ^ 63 - 1)) :=
  ⟨fun _ hversion => decode_encode hversion, fun overflowChecks _ invite now _ => expiresIn_eq_iff overflowChecks invite now⟩

end Invite

end

/-! ## The samples -/

namespace Sample

open IrohLotus.Wire.Sample Invite

scoped instance base32 : Base32NoPad where
  encode := Base32.encode
  decode := Base32.decode
  symbols _ _ h := Base32.encode_symbols h
  faithful := Base32.decode_encode

/-- An endpoint without addresses: the bytes of its id, and an empty list. -/
def serializeEndpoint (id : BitVec 256) : Tree :=
  .map [(.text "id", .seq ((ofNumber 32 id.toNat).map fun b => .int b.toNat)), (.text "addrs", .seq [])]

def deserializeEndpoint (t : Tree) : Option (BitVec 256) := do
  let bytes ← (t.field true ⟨0, "id"⟩).bind (Tree.readSeq (Tree.readInt 0 256))
  pure (BitVec.ofNat 256 (toNumber (bytes.map fun n => UInt8.ofNat n.toNat)))

theorem reads_endpoint (id : BitVec 256) : Reads (serializeEndpoint id) deserializeEndpoint id := by
  intro t ht
  have hbytes : Reads (.seq ((ofNumber 32 id.toNat).map fun b => .int b.toNat)) (Tree.readSeq (Tree.readInt 0 256))
      ((ofNumber 32 id.toNat).map fun b => (b.toNat : Int)) :=
    reads_seq fun b _ => reads_int ⟨by omega, by exact_mod_cast b.toNat_lt⟩
  obtain ⟨t', hfield, ht'⟩ := ht.field (show (serializeEndpoint id).field true ⟨0, "id"⟩ = some _ from rfl)
  unfold deserializeEndpoint
  rw [hfield, Option.bind_some, hbytes t' ht']
  have hback : ((ofNumber 32 id.toNat).map fun b => (b.toNat : Int)).map (fun n => UInt8.ofNat n.toNat) = ofNumber 32 id.toNat := by
    rw [List.map_map]
    conv_rhs => rw [← List.map_id (ofNumber 32 id.toNat)]
    exact List.map_congr_left fun b _ => UInt8.ofNat_toNat
  show some (BitVec.ofNat 256 (toNumber _)) = _
  rw [hback]
  exact congrArg some (ofNat_toNumber_ofNumber 32 id)

scoped instance endpointSerde : EndpointSerde where
  EndpointAddr := BitVec 256
  serialize := serializeEndpoint
  deserialize := deserializeEndpoint
  faithful := reads_endpoint

/-- An invite of the format this build speaks that expires at an instant. -/
def invite (expiresAtMillis : Int64) : Invite := ⟨VERSION, ⟨7⟩, (9 : BitVec 256), ⟨3⟩, ⟨5⟩, expiresAtMillis⟩

/-- A minute before an invite expires there is a minute left; the word is read from a line of its own. -/
theorem invite_exact_minute : ∃ text, (invite 1700000000000).encode = .ok text ∧
    decode ([' ', ' '] ++ (text ++ ['\n'])) = .ok (invite 1700000000000) ∧
    (invite 1700000000000).expiresIn true (1699999940000 * 1000000) = .ok 60000 := by
  obtain ⟨text, htext, hreads⟩ := invite_exact_iff.1 (invite 1700000000000) rfl
  have hdecode := hreads [' ', ' '] ['\n'] (by simp [isWhitespace]) (by simp [isWhitespace])
  exact ⟨text, htext, hdecode,
    (invite_exact_iff.2 true _ (invite 1700000000000) (1699999940000 * 1000000) hdecode).2 (by decide)⟩

/-- The word of an invite that expires at the least `i64` is read, and a millisecond past the epoch the
subtraction overflows: a panic, or a wait of nearly three hundred million years, where the wait is over. -/
theorem expiresIn_overflows : ∃ text, (invite Int64.minValue).encode = .ok text ∧ decode text = .ok (invite Int64.minValue) ∧
    (invite Int64.minValue).expiresIn true 1000000 = .error (.panic "attempt to subtract with overflow") ∧
    (invite Int64.minValue).expiresIn false 1000000 = .ok (2 ^ 63 - 1) ∧
    max 0 ((invite Int64.minValue).expiresAtMillis.toInt - millis 1000000) = 0 := by
  obtain ⟨text, htext, hreads⟩ := @decode_encode _ _ _ (invite Int64.minValue) rfl
  have hdecode := hreads [] [] (fun c hc => by cases hc) (fun c hc => by cases hc)
  rw [List.nil_append, List.append_nil] at hdecode
  exact ⟨text, htext, hdecode, by decide, by decide, by decide⟩

end Sample

end IrohLotus.InviteText
