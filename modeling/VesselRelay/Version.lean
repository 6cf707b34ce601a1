/-!
The version of the relay.
-/
namespace VesselRelay

def version : String := "0.3.0"

end VesselRelay
