/-!
What happens on a connection: its lifecycle and its traffic.
-/
namespace VesselRelay

/-- Why a connection was closed. -/
inductive CloseCode where
  | normal
  | goingAway
  | protocolError
  | duplicateConnect
  | timeout
  | internalError
  /-- A code without a meaning here. -/
  | other (code : Int)
  deriving DecidableEq, Repr

namespace CloseCode

def ofInt : Int → CloseCode
  | 0 => normal
  | 1 => goingAway
  | 2 => protocolError
  | 3 => duplicateConnect
  | 4 => timeout
  | 5 => internalError
  | code => other code

def name : CloseCode → String
  | normal => "normal"
  | goingAway => "going_away"
  | protocolError => "protocol_error"
  | duplicateConnect => "duplicate_connect"
  | timeout => "timeout"
  | internalError => "internal_error"
  | other _ => "unknown"

end CloseCode

inductive ConnectionEvent where
  | connecting (uri : String)
  | connected (uri : String) (resumed : Bool)
  | disconnected (code : CloseCode)
  | binaryReceived (message : List UInt8)
  | binarySent (message : List UInt8)
  | textReceived (message : String)
  | textSent (message : String)
  deriving DecidableEq, Repr

namespace ConnectionEvent

def name : ConnectionEvent → String
  | connecting _ => "connecting"
  | connected _ _ => "connected"
  | disconnected _ => "disconnected"
  | binaryReceived _ => "binary_message_received"
  | binarySent _ => "binary_message_sent"
  | textReceived _ => "text_message_received"
  | textSent _ => "text_message_sent"

/-- The state that an event announces; most announce none. -/
def announces? : ConnectionEvent → Option Bool
  | connected _ _ => some true
  | disconnected _ => some false
  | _ => none

end ConnectionEvent
end VesselRelay
