/-!
Powers of whole numbers are those of the core library wherever they are written, also where a
library of algebra brings its own.
-/
namespace VesselRelay

@[default_instance 10100]
instance (priority := high) wholePower {α : Type} [NatPow α] : Pow α Nat := instPowNat

end VesselRelay
