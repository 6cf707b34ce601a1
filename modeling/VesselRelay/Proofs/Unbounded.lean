import VesselRelay.Proofs.Geo.Antipode
import VesselRelay.Proofs.Locating

/-!
Searches without a radius and without a limit. Without a sender nobody is left out. With one, a
target is left out exactly where the haversine of its distance comes out above one, since a distance
that is not a number is within no reach; that happens next to the antipode of the sender alone.
-/
namespace VesselRelay
open Binary64 (undefined number? number?_nothing number?_one)

section
variable [lib : Trigonometry] {r : Registry} {requester id : Identifier} {request : LocateRequest}

/-- Whether a radius and a limit are absent, or not positive. -/
structure LocateRequest.Unbounded (request : LocateRequest) : Prop where
  anywhere : ∀ radius, request.radius = some radius → ¬ 0 < radius
  unlimited : ∀ limit, request.limit = some limit → ¬ 0 < limit

omit lib in
theorem LocateRequest.Unbounded.kept (unbounded : request.Unbounded) (count : ℕ) :
    request.kept count = count := by
  unfold LocateRequest.kept
  split
  · rename_i limit given
    exact if_neg (unbounded.unlimited limit given)
  · rfl

/-- Everything is within the reach of an unbounded search but what is at no distance. -/
theorem LocateRequest.Unbounded.within_iff (unbounded : request.Unbounded) (known : lib.Bounded)
    (p q : Position) : p.geodesicDistance q ≤ request.reach ↔ p.haversine q ≤ 1.0 := by
  constructor
  · intro near
    by_contra beyond
    rw [Position.geodesicDistance_of_one_lt known beyond] at near
    exact Binary64.not_undefined_le near
  · intro within
    exact (LocateRequest.greatestFinite_reach unbounded.anywhere).2 _
      (Position.isFinite_geodesicDistance known within)

end

end VesselRelay
