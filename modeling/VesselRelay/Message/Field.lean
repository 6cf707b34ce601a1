/-!
A field of a message goes by a number and by a name. A text rendition keys on the name and mentions
the number only when it complains.
-/
namespace VesselRelay

structure Field where
  tag : Int
  name : String
  deriving DecidableEq, Repr

end VesselRelay
