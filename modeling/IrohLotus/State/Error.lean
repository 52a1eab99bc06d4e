/-
The errors of the `state` crate. The storage backend's own error carries nothing the crate reads.
-/
import IrohLotus.Wire.Envelope

namespace IrohLotus.State

open IrohLotus.Wire

/-- Why a trusted key set could not be read. -/
inductive TrustedKeysError where
  | notAMap
  | notAKey (id : String)
  | idMismatch (id : String) (derived : KeyId)
deriving DecidableEq

/-- Why a reserved namespace refused the value a write would leave it holding. -/
inductive ValueError where
  | minKeepMinutes
  | minEnvelopeWeight
  | minEnvelopeSignatures
  | trustedKeys (reason : TrustedKeysError)
  | clusterNodes (reason : String)
deriving DecidableEq

/-- An error produced while applying an envelope to a ledger. -/
inductive ApplyError where
  | wire (e : WireError)
  | unexpectedInit
  | chainMismatch (expected found : EnvelopeDigest)
  | unknownNamespace (key : NamespaceKey)
  | unknownPath (key : NamespaceKey) (path : SubkeyPath)
  | pathTypeMismatch (key : NamespaceKey) (path : SubkeyPath)
  | amendTypeMismatch (key : NamespaceKey) (path : Option SubkeyPath)
  | overflow (key : NamespaceKey) (path : Option SubkeyPath)
  | invalidBounds (key : NamespaceKey) (path : Option SubkeyPath)
  | invalidValue (key : NamespaceKey) (reason : ValueError)
  | insufficientWeight (required found : UInt32)
  | insufficientSignatures (required found : UInt32)
  | invalidSignatures (failingKeyIds : List KeyId)
  | storage
deriving DecidableEq

/-- An error produced while working with a ledger or a chain. -/
inductive Error where
  | wire (e : WireError)
  | notInit
  | emptyChain
  | unknownHead (head : EnvelopeDigest)
  | unknownParent (prev : EnvelopeDigest)
  | diverged (source target : EnvelopeDigest)
  | apply (e : ApplyError)
  | storage
deriving DecidableEq

end IrohLotus.State
