import VesselRelay.Binary64.Hypotenuse
import VesselRelay.Binary64.Order
import VesselRelay.Binary64.Parts
import VesselRelay.Binary64.Remainder
import VesselRelay.Connection.Dispatch
import VesselRelay.Connection.Event
import VesselRelay.Connection.Link
import VesselRelay.Decimal.Layout
import VesselRelay.Decimal.Numeral
import VesselRelay.Decimal.Shortest
import VesselRelay.Failure
import VesselRelay.Fleet
import VesselRelay.Geo.Area
import VesselRelay.Geo.Box
import VesselRelay.Geo.Circle
import VesselRelay.Geo.Distance
import VesselRelay.Geo.Fix
import VesselRelay.Geo.LocalFrame
import VesselRelay.Geo.Polygon
import VesselRelay.Geo.Position
import VesselRelay.Geo.Rectangle
import VesselRelay.Geo.Ring
import VesselRelay.Geo.Sampling
import VesselRelay.Geo.Shape
import VesselRelay.Geo.Wire
import VesselRelay.Identifier.Arithmetic
import VesselRelay.Identifier.Basic
import VesselRelay.Identifier.Digest
import VesselRelay.Identifier.Text
import VesselRelay.Journal
import VesselRelay.Json.Basic
import VesselRelay.Json.Parser
import VesselRelay.Json.Printer
import VesselRelay.Locator
import VesselRelay.Message.Basic
import VesselRelay.Message.Field
import VesselRelay.Message.Reading
import VesselRelay.Proofs.Comparison
import VesselRelay.Proofs.Grammar
import VesselRelay.Proofs.Identifier.Value
import VesselRelay.Proofs.Locating
import VesselRelay.Proofs.Random.Range
import VesselRelay.Proofs.Reading
import VesselRelay.Proofs.Registry.Bookkeeping
import VesselRelay.Proofs.Registry.Census
import VesselRelay.Proofs.Registry.Directory
import VesselRelay.Proofs.Registry.Placement
import VesselRelay.Proofs.Registry.Refinement
import VesselRelay.Proofs.RoundTrip
import VesselRelay.Proofs.WordSized
import VesselRelay.Random.Aes
import VesselRelay.Random.Block
import VesselRelay.Random.Bounded
import VesselRelay.Random.Generator
import VesselRelay.Random.Identifier
import VesselRelay.Random.Real
import VesselRelay.Random.Source
import VesselRelay.Random.Text
import VesselRelay.Registry.Basic
import VesselRelay.Registry.Scan
import VesselRelay.Registry.Target
import VesselRelay.Relay
import VesselRelay.Settings.Load
import VesselRelay.Settings.Numeral
import VesselRelay.Text.Hex
import VesselRelay.Trigonometry
import VesselRelay.Version
import VesselRelay.Proofs.Random.Signed
import VesselRelay.Proofs.Random.Exact
import VesselRelay.Proofs.Random.BoundedDraws
import VesselRelay.Proofs.Connection.Watch
import VesselRelay.Proofs.Random.Law
import VesselRelay.Proofs.Connection.Course
import VesselRelay.Proofs.Connection.Dispatching
import VesselRelay.Proofs.Connection.Sessions
import VesselRelay.Proofs.Binary64.Sign
import VesselRelay.Proofs.Geo.Meeting
import VesselRelay.Proofs.Geo.Exchange
import VesselRelay.Proofs.Random.KeyStream
import VesselRelay.Proofs.Random.Asking
import VesselRelay.Proofs.Random.Drawing
import VesselRelay.Proofs.Connection.Attendance
import VesselRelay.Proofs.Connection.Standing
import VesselRelay.Proofs.Binary64.Value
import VesselRelay.Proofs.Geo.Grouping
import VesselRelay.Proofs.Geo.Restored
import VesselRelay.Proofs.Decoding
import VesselRelay.Proofs.Registry.Sweeping
import VesselRelay.Proofs.Registry.Scanning
import VesselRelay.Proofs.Binary64.Number
import VesselRelay.Proofs.Binary64.Arithmetic
import VesselRelay.Proofs.Geo.Extent
import VesselRelay.Proofs.Geo.Crossing
import VesselRelay.Proofs.Geo.Containment
import VesselRelay.Proofs.Geo.Plane
import VesselRelay.Proofs.Geo.Grid
import VesselRelay.Proofs.Geo.Plotted
import VesselRelay.Proofs.Geo.Enclosure
import VesselRelay.Proofs.Geo.Sharing
import VesselRelay.Proofs.Binary64.Root
import VesselRelay.Proofs.Binary64.Undefined
import VesselRelay.Proofs.Binary64.Fraction
import VesselRelay.Proofs.Random.Unit
import VesselRelay.Proofs.Geo.Sampled
import VesselRelay.Proofs.Binary64.Monotone
import VesselRelay.Proofs.Binary64.Error
import VesselRelay.Proofs.Geo.Haversine
import VesselRelay.Proofs.Geo.Antipode
import VesselRelay.Proofs.Unbounded
import VesselRelay.Proofs.Fleet.Voyage
import VesselRelay.Proofs.Binary64.Turn
import VesselRelay.Proofs.Fleet.Outset
import VesselRelay.Proofs.Settings.Loaded
import VesselRelay.Proofs.Settings.Runnable
import VesselRelay.Proofs.Geo.Landing
import VesselRelay.Proofs.Identifier.Residue
import VesselRelay.Proofs.Random.Refusal
import VesselRelay.Proofs.WholeNumbers
import VesselRelay.Proofs.Message.InPlace
import VesselRelay.Proofs.Message.LastWrite
import VesselRelay.Proofs.Fleet.Untimely
import VesselRelay.Proofs.Binary64.Relative
import VesselRelay.Proofs.Geo.Interpolated
import VesselRelay.Proofs.Geo.Hollow
import VesselRelay.Proofs.Identifier.Spelling
import VesselRelay.Proofs.Random.Evenness
import VesselRelay.Proofs.Random.EvenIdentifiers
import VesselRelay.Proofs.Settings.Understood
import VesselRelay.Proofs.Geo.Circuit
import VesselRelay.Proofs.Geo.Corners
import VesselRelay.Proofs.Geo.Lattice
import VesselRelay.Proofs.Connection.Roster
import VesselRelay.Proofs.Random.Filling
import VesselRelay.Proofs.Journaling
import VesselRelay.Proofs.Random.Keying
import VesselRelay.Proofs.Binary64.Sum
import VesselRelay.Proofs.Random.HalfOpen
import VesselRelay.Proofs.Random.Canonical
import VesselRelay.Proofs.Connection.Reporting
import VesselRelay.Proofs.Geo.Bounding
