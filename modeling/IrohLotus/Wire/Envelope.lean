/-
Envelopes, their digests and their verification status (`wire::envelope`), over the third-party
code the crate calls: blake3 of the canonical CBOR encoding, ed25519 verification, and iroh's
address parsers. None of that code is in the repository, so it is the parameter `Externals`.
-/
import IrohLotus.Wire.Msg

namespace IrohLotus.Wire

open Std

/-- An error produced while moving a value on or off the wire. -/
inductive WireError where
  | encode
  | decode
deriving DecidableEq

/-- A timestamp over an envelope; it has no fields yet. -/
structure SignedTimestamp where
deriving DecidableEq

/-- What a digest is taken over: an envelope's encoded fields (`SignedPortion` in the source, which
shares `Envelope`'s own CBOR keys). The verification status is not among them. -/
structure SignedPortion where
  payload : Msg
  signatures : ExtTreeMap KeyId Signature
  timestamps : List SignedTimestamp
deriving DecidableEq

/-- The code outside the repository: blake3 over canonical CBOR (of an envelope and of a public
key), ZIP 215 signature verification, hex key ids, and iroh's address types with their parsers. -/
class Externals where
  hash : SignedPortion → Except WireError (BitVec 256)
  keyHash : PublicKey → BitVec 256
  verify : Ed25519PublicKey → Ed25519Signature → EnvelopeSignatureDigest → Bool
  keyIdToHex : KeyId → String
  keyIdFromHex : String → Except String KeyId
  EndpointId : Type
  RelayUrl : Type
  SocketAddr : Type
  CustomAddr : Type
  endpointIdFromZ32 : String → Option EndpointId
  parseRelay : String → Option RelayUrl
  parseIp : String → Option SocketAddr
  parseCustom : String → Option CustomAddr

/-- The cached state of signature verification for an envelope. -/
inductive VerificationStatus where
  | unchecked
  | failed (failingKeyIds : List KeyId)
  | allMatched (totalWeight : UInt32)
deriving DecidableEq

/-- The verified signature weight; zero until verification has succeeded. -/
def VerificationStatus.signatureWeight : VerificationStatus → UInt32
  | .unchecked | .failed _ => 0
  | .allMatched totalWeight => totalWeight

/-- Container type for a message in the ledger: what it encodes to, and the status beside it. -/
structure Envelope extends SignedPortion where
  verificationStatus : VerificationStatus
deriving DecidableEq

namespace Envelope

/-- A new envelope carrying `payload`, with nothing attested over it yet. -/
def new (payload : Msg) : Envelope :=
  { payload, signatures := ∅, timestamps := [], verificationStatus := .unchecked }

/-- The digest of the previous envelope. -/
def prev (envelope : Envelope) : Option EnvelopeDigest := envelope.payload.prevDigest

def setVerificationStatus (envelope : Envelope) (status : VerificationStatus) : Envelope :=
  { envelope with verificationStatus := status }

/-- How many distinct keys have verifiably signed this envelope, saturating at `u32::MAX`. -/
def verifiedSigners (envelope : Envelope) : UInt32 :=
  match envelope.verificationStatus with
  | .allMatched _ => if envelope.signatures.size < 2 ^ 32 then envelope.signatures.size.toUInt32 else 2 ^ 32 - 1
  | .unchecked | .failed _ => 0

@[simp] theorem setVerificationStatus_toSignedPortion (envelope : Envelope) (status : VerificationStatus) :
    (envelope.setVerificationStatus status).toSignedPortion = envelope.toSignedPortion := rfl

@[simp] theorem setVerificationStatus_prev (envelope : Envelope) (status : VerificationStatus) :
    (envelope.setVerificationStatus status).prev = envelope.prev := rfl

@[simp] theorem setVerificationStatus_verificationStatus (envelope : Envelope) (status : VerificationStatus) :
    (envelope.setVerificationStatus status).verificationStatus = status := rfl

@[simp] theorem setVerificationStatus_self (envelope : Envelope) :
    envelope.setVerificationStatus envelope.verificationStatus = envelope := rfl

/-- Two envelopes of one content are equal up to their status. -/
theorem eq_setVerificationStatus {a b : Envelope} (h : a.toSignedPortion = b.toSignedPortion) :
    a = b.setVerificationStatus a.verificationStatus := by
  cases a; cases b; simp only at h; subst h; rfl

end Envelope

section Digests

variable [Externals]

/-- The id a key is referred to by (`PublicKey::id`). -/
def PublicKey.id (key : PublicKey) : KeyId := ⟨Externals.keyHash key⟩

def Key.id (key : Key) : KeyId := key.publicKey.id

/-- Whether `signature` over `digest` verifies against the key's material (`Key::verify`). -/
def Key.verify (key : Key) (signature : Signature) (digest : EnvelopeSignatureDigest) : Bool :=
  match key.publicKey, signature with
  | .ed25519 key, .ed25519 signature => Externals.verify key signature digest

/-- The digest of what an envelope encodes to. -/
def SignedPortion.digest (portion : SignedPortion) : Except WireError EnvelopeDigest :=
  (Externals.hash portion).map EnvelopeDigest.mk

/-- The digest of an envelope (`Envelope::digest`); its status is not part of it. -/
def Envelope.digest (envelope : Envelope) : Except WireError EnvelopeDigest :=
  envelope.toSignedPortion.digest

/-- The digest an envelope's signatures are taken over: its digest with no signatures attached. -/
def Envelope.signatureDigest (envelope : Envelope) : Except WireError EnvelopeSignatureDigest :=
  (Externals.hash { envelope.toSignedPortion with signatures := ∅ }).map EnvelopeSignatureDigest.mk

/-- How long canonical CBOR is, beside what it hashes to. -/
class Encoding where
  length : SignedPortion → Nat

/-- The length of an envelope's encoding (`wire::encode`). The digest is taken over these bytes, so an
envelope encodes exactly when it has one. -/
def Envelope.encodedLen [Encoding] (envelope : Envelope) : Except WireError Nat :=
  (Externals.hash envelope.toSignedPortion).map fun _ => Encoding.length envelope.toSignedPortion

@[simp] theorem Envelope.digest_setVerificationStatus (envelope : Envelope) (status : VerificationStatus) :
    (envelope.setVerificationStatus status).digest = envelope.digest := rfl

end Digests

end IrohLotus.Wire
