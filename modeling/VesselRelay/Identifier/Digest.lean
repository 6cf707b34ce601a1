import VesselRelay.Identifier.Basic

/-!
A short digest of an identifier, by which the registry spreads targets over its shards: exclusive or
with each byte, then a multiplication by a prime, in 64 bits.
-/
namespace VesselRelay.Identifier

def digestStart : UInt64 := 1469598103934665603

def digestPrime : UInt64 := 1099511628211

def digest (id : Identifier) : UInt64 :=
  id.bytes.foldl (fun h b => (h ^^^ b.toUInt64) * digestPrime) digestStart

end VesselRelay.Identifier
