/-
How an iroh address is read out of the ledger and written into it (`wire::msg::addr`).
-/
import IrohLotus.Wire.Envelope

namespace IrohLotus.Wire

variable [Externals]

/-- An iroh transport address of a kind this build has a variant for. -/
inductive TransportAddr where
  | relay (url : Externals.RelayUrl)
  | ip (socket : Externals.SocketAddr)
  | custom (addr : Externals.CustomAddr)

instance [DecidableEq Externals.RelayUrl] [DecidableEq Externals.SocketAddr] [DecidableEq Externals.CustomAddr] :
    DecidableEq TransportAddr
  | .relay a, .relay b => decidable_of_iff (a = b) (by simp)
  | .ip a, .ip b => decidable_of_iff (a = b) (by simp)
  | .custom a, .custom b => decidable_of_iff (a = b) (by simp)
  | .relay _, .ip _ | .relay _, .custom _ | .ip _, .relay _ | .ip _, .custom _ | .custom _, .relay _ | .custom _, .ip _ =>
    isFalse nofun

/-- An iroh endpoint address, as the arguments `EndpointAddr::from_parts` is given. -/
structure EndpointAddr where
  fromParts ::
  id : Externals.EndpointId
  addrs : List TransportAddr

/-- Equality of endpoint addresses: their transports are kept as a set. -/
def EndpointAddr.Same (a b : EndpointAddr) : Prop := a.id = b.id ∧ (∀ x ∈ a.addrs, x ∈ b.addrs) ∧ ∀ x ∈ b.addrs, x ∈ a.addrs

instance [DecidableEq Externals.EndpointId] [DecidableEq TransportAddr] (a b : EndpointAddr) : Decidable (a.Same b) :=
  inferInstanceAs (Decidable (_ ∧ _ ∧ _))

/-- Why a value could not be read as an iroh address. -/
inductive AddrError where
  | notAMap (what : String)
  | missingField (field : String)
  | addrsNotAnArray
  | badEndpointId (text : String)
  | badAddr (kind text : String)
  | unknownAddrType (kind : String)
deriving DecidableEq

/-- `AddrError`'s display text. -/
def AddrError.text : AddrError → String
  | .notAMap what => "a " ++ what ++ " is a map"
  | .missingField field => "no `" ++ field ++ "` string"
  | .addrsNotAnArray => "`addrs` is an array"
  | .badEndpointId text => text ++ " is not an endpoint id"
  | .badAddr kind text => text ++ " is not a " ++ kind ++ " address"
  | .unknownAddrType kind => "no transport is called " ++ kind

/-- A required string field of a map. -/
def stringField (fields : Entries Value) (field : String) : Except AddrError String :=
  match fields.get field with
  | some (.string text) => pure text
  | _ => throw (.missingField field)

/-- `TransportAddr::try_from(&Value)`. -/
def TransportAddr.tryFrom : Value → Except AddrError TransportAddr
  | .map fields => do
    let kind ← stringField fields "type"
    let addr ← stringField fields "addr"
    let parsed {α : Type} (result : Option α) (make : α → TransportAddr) : Except AddrError TransportAddr :=
      match result with
      | some a => pure (make a)
      | none => throw (.badAddr kind addr)
    if kind = "relay" then parsed (Externals.parseRelay addr) .relay
    else if kind = "ip" then parsed (Externals.parseIp addr) .ip
    else if kind = "custom" then parsed (Externals.parseCustom addr) .custom
    else throw (.unknownAddrType kind)
  | _ => throw (.notAMap "transport address")

/-- Whether a transport is kept: one of a type this build has no variant for is skipped. -/
def knownTransport : Except AddrError TransportAddr → Bool
  | .error (.unknownAddrType _) => false
  | _ => true

/-- `EndpointAddr::try_from(&Value)`. -/
def EndpointAddr.tryFrom : Value → Except AddrError EndpointAddr
  | .map fields => do
    let text ← stringField fields "endpoint_id"
    let id ← match Externals.endpointIdFromZ32 text with
      | some id => pure id
      | none => throw (.badEndpointId text)
    let addrs ← match Entries.get fields "addrs" with
      | some (.array addrs) => pure addrs
      | some _ => throw .addrsNotAnArray
      | none => throw (.missingField "addrs")
    let addrs ← ((addrs.map TransportAddr.tryFrom).filter knownTransport).mapM fun addr => addr
    pure (.fromParts id addrs)
  | _ => throw (.notAMap "endpoint address")

/-- The texts iroh prints its address types as. -/
class AddrText where
  endpointIdToZ32 : Externals.EndpointId → String
  printRelay : Externals.RelayUrl → String
  printIp : Externals.SocketAddr → String
  printCustom : Externals.CustomAddr → String

variable [AddrText]

/-- `Value::try_from(&TransportAddr)`: each kind this build has a variant for has an encoding. -/
def TransportAddr.toValue (addr : TransportAddr) : Value :=
  let (kind, text) : String × String := match addr with
    | .relay url => ("relay", AddrText.printRelay url)
    | .ip socket => ("ip", AddrText.printIp socket)
    | .custom name => ("custom", AddrText.printCustom name)
  .map (Entries.insert (Entries.insert [] "type" (.string kind)) "addr" (.string text))

/-- `Value::try_from(&EndpointAddr)`. -/
def EndpointAddr.toValue (addr : EndpointAddr) : Value :=
  .map (Entries.insert
    (Entries.insert [] "endpoint_id" (.string (AddrText.endpointIdToZ32 addr.id)))
    "addrs" (.array (addr.addrs.map TransportAddr.toValue)))

end IrohLotus.Wire
