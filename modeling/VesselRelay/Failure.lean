import VesselRelay.Decimal.Layout
import VesselRelay.Message.Field

/-!
Everything that can go wrong, by cause, and the one wording of each cause. A failure is an argument
that was refused, an encoding that could not be read, or a service that is not to be had.
-/
namespace VesselRelay

/-- Why an argument was refused. -/
inductive ArgumentFault where
  | latitude (given : Float)
  | longitude (given : Float)
  | boxCorner
  | boxInverted (minLatitude maxLatitude minLongitude maxLongitude : Float)
  | circleRadius (given : Float)
  | rectangleCorners (north west south east : Float)
  | polygonSize (count : Nat)
  | noExtent
  | nothingToSample
  | noInterior
  | beforeFix (time fix : Int64)
  | fixesReversed (earlier later : Int64)
  | beforeEarlier (time earlier : Int64)
  | afterLater (time later : Int64)
  | identifierLength (digits : Nat)
  | identifierDigit (given : String)
  | drawWidth (bits : Int)
  | drawBound (bound : Int)
  | drawRange (least bound : Int)
  | realBound (bound : Float)
  | realRange (least bound : Float)
  | identifierBound
  | identifierRange
  | noShards
  | emptyEndpoint
  | nullAmongListeners
  | nullListener
  deriving DecidableEq, Repr

/-- Why an encoding could not be read. -/
inductive DecodeFault where
  | malformed
  | notObject (field : Field)
  | missing (field : Field)
  | notInteger (field : Field)
  | notNumber (field : Field)
  | notMessage (field : Field)
  | notList (field : Field)
  | tooWide (field : Field) (value : Int)
  | positionRange (latitude longitude : Float)
  | circleRadius (given : Float)
  | coordinateSystem (code : Int)
  | rectangleInverted
  | polygonSize (count : Nat)
  | unknownShape
  deriving DecidableEq, Repr

inductive Failure where
  | argument (fault : ArgumentFault)
  | decode (fault : DecodeFault)
  /-- A number in JSON text is beyond every double. -/
  | numberRange
  /-- A generator keeps its key for life. -/
  | reseed
  | entropy
  | journalClosed
  | journalDirectory (directory : String)
  /-- A failure that somebody else's code reported in its own words. -/
  | reported (wording : String)
  /-- No draw is ever accepted: the whole period of the generator has been rejected. -/
  | endless
  deriving DecidableEq, Repr

open Decimal (text)

def ArgumentFault.wording : ArgumentFault → String
  | latitude x => "Latitude must be within [-90, 90], got " ++ text x
  | longitude x => "Longitude must be within [-180, 180], got " ++ text x
  | boxCorner => "BoundingBox corners must be valid coordinates"
  | boxInverted a b c d =>
    "BoundingBox is inverted: lat [" ++ text a ++ ", " ++ text b ++ "] lon [" ++ text c
      ++ ", " ++ text d ++ "]"
  | circleRadius r => "Circle radius must be positive, got " ++ text r
  | rectangleCorners n w s e =>
    "Rectangle corners must be north-west (" ++ text n ++ ", " ++ text w
      ++ ") then south-east (" ++ text s ++ ", " ++ text e ++ ")"
  | polygonSize n => "Polygon requires at least 3 points, got " ++ toString n
  | noExtent => "An empty area union has no bounding box"
  | nothingToSample => "Cannot sample a position from an empty area union"
  | noInterior => "Polygon encloses no area to sample from"
  | beforeFix t f => "Extrapolation time " ++ toString t ++ " precedes the fix at " ++ toString f
  | fixesReversed a b =>
    "Earlier fix at " ++ toString a ++ " is later than the second fix at " ++ toString b
  | beforeEarlier t a =>
    "Interpolation time " ++ toString t ++ " precedes the earlier fix at " ++ toString a
  | afterLater t b =>
    "Interpolation time " ++ toString t ++ " follows the later fix at " ++ toString b
  | identifierLength n => "Id160 requires 40 hex digits, got " ++ toString n
  | identifierDigit s => "Id160 contains a non-hex character: " ++ s
  | drawWidth n => "bits must be within [1, 32], got " ++ toString n
  | drawBound b => "bound must be positive, got " ++ toString b
  | drawRange l b => "least (" ++ toString l ++ ") must be less than bound (" ++ toString b ++ ")"
  | realBound b => "bound must be positive, got " ++ text b
  | realRange l b => "least (" ++ text l ++ ") must be less than bound (" ++ text b ++ ")"
  | identifierBound => "Id160 bound must be positive"
  | identifierRange => "Id160 least must be less than bound"
  | noShards => "TargetRegistry requires at least one shard"
  | emptyEndpoint => "Endpoint name cannot be empty"
  | nullAmongListeners => "ConnectionEventDispatcher listeners cannot be null"
  | nullListener => "Cannot add a null connection listener"

/-- A field as complaints name it. -/
def Field.label (f : Field) : String := f.name ++ " (" ++ toString f.tag ++ ")"

def DecodeFault.wording : DecodeFault → String
  | malformed => "Malformed JSON"
  | notObject f => "Expected an object while reading field " ++ f.label
  | missing f => "Missing field " ++ f.label
  | notInteger f => "Field " ++ f.label ++ " is not an integer"
  | notNumber f => "Field " ++ f.label ++ " is not a number"
  | notMessage f => "Field " ++ f.label ++ " is not a message"
  | notList f => "Field " ++ f.label ++ " is not a list"
  | tooWide f v => "Field " ++ f.label ++ " does not fit in 32 bits: " ++ toString v
  | positionRange a b => "Encoded position out of range: (" ++ text a ++ ", " ++ text b ++ ")"
  | circleRadius r => "Encoded circle radius must be positive, got " ++ text r
  | coordinateSystem c => "Unknown coordinate system " ++ toString c
  | rectangleInverted => "Encoded rectangle corners are inverted"
  | polygonSize n => "Encoded polygon has " ++ toString n ++ " points; at least 3 required"
  | unknownShape =>
    "Unrecognized area discriminant; expected circle(1), box(2), polygon(3) or areas(4)"

def Failure.wording : Failure → String
  | argument f => f.wording
  | decode f => f.wording
  | numberRange => ""
  | reseed => "SecureRandom cannot be reseeded after construction"
  | entropy => "Secure entropy source failed: unknown OpenSSL error"
  | journalClosed => "Logger not initialized"
  | journalDirectory d => "Unable to create log directory at " ++ d
  | reported w => w
  | endless => "no draw is accepted"

/-- Text up to its first NUL, which ends a message wherever one is passed on. -/
def beforeNul (s : String) : String :=
  String.ofList (s.toList.takeWhile (· ≠ '\x00'))

/-- What a reader of the failure is shown. -/
def Failure.message (f : Failure) : String := beforeNul f.wording

end VesselRelay
