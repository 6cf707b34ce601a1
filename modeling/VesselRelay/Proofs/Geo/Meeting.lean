import VesselRelay.Geo.Area

/-!
Which areas meet is a matter of their shapes: two areas intersect when some shape of the one meets
some shape of the other. Every test of two shapes reads the same from both sides, except the one of
two circles, which measures by the model of the first; so areas of which one holds no circle
intersect each other or do not.
-/
namespace VesselRelay

/-! ### Segments and rings -/

namespace Ring

theorem segmentsMeet_comm (p q : Edge) : segmentsMeet p q = segmentsMeet q p := by
  simp only [segmentsMeet]
  ac_rfl

theorem meets_comm (a b : List Position) : meets a b = meets b a := by
  have crossing : ((edges a).any fun e => (edges b).any (segmentsMeet e)) =
      (edges b).any fun e => (edges a).any (segmentsMeet e) := by
    apply Bool.eq_iff_iff.mpr
    simp only [List.any_eq_true]
    constructor
    · rintro ⟨e, inA, f, inB, meet⟩
      exact ⟨f, inB, e, inA, segmentsMeet_comm e f ▸ meet⟩
    · rintro ⟨f, inB, e, inA, meet⟩
      exact ⟨e, inA, f, inB, segmentsMeet_comm f e ▸ meet⟩
  rw [meets, meets, crossing, Bool.or_right_comm]

end Ring

theorem Box.intersects_comm (a b : Box) : a.intersects b = b.intersects a := by
  simp only [Box.intersects]
  ac_rfl

/-! ### Shapes -/

namespace Shape

def isCircle : Shape → Bool
  | circle _ => true
  | rectangle _ | polygon _ => false

variable [Trigonometry]

/-- Only two circles may tell one side from the other. -/
theorem touches_comm {s t : Shape} (apart : s.isCircle = false ∨ t.isCircle = false) :
    s.touches t = t.touches s := by
  cases s with
  | circle a =>
    cases t with
    | circle b => simp [isCircle] at apart
    | rectangle b => rfl
    | polygon b => rfl
  | rectangle a =>
    cases t with
    | circle b => rfl
    | rectangle b => exact a.box.intersects_comm b.box
    | polygon b => exact Ring.meets_comm a.corners b.points
  | polygon a =>
    cases t with
    | circle b => rfl
    | rectangle b => exact Ring.meets_comm a.points b.corners
    | polygon b => exact Ring.meets_comm a.points b.points

theorem intersects_comm {s t : Shape} (apart : s.isCircle = false ∨ t.isCircle = false) :
    s.intersects t = t.intersects s := by
  rw [intersects, intersects, s.box.intersects_comm, touches_comm apart]

end Shape

/-! ### Areas -/

namespace Area

/-- No circle at any depth. -/
def CircleFree (a : Area) : Prop := ∀ s ∈ a.leaves, s.isCircle = false

instance (a : Area) : Decidable a.CircleFree :=
  inferInstanceAs (Decidable (∀ s ∈ a.leaves, s.isCircle = false))

variable [Trigonometry]

mutual

theorem metBy_eq (s : Shape) (a : Area) : a.metBy s = a.leaves.any s.intersects := by
  cases a with
  | shape t => simp [metBy, leaves]
  | union members => exact anyMetBy_eq s members

theorem anyMetBy_eq (s : Shape) (members : List Area) :
    anyMetBy s members = (leavesOf members).any s.intersects := by
  cases members with
  | nil => rfl
  | cons a rest => rw [anyMetBy, leavesOf, List.any_append, metBy_eq s a, anyMetBy_eq s rest]

end

mutual

/-- The order in which unions are opened makes no difference. -/
theorem intersects_eq (a b : Area) :
    a.intersects b = a.leaves.any fun s => b.leaves.any s.intersects := by
  cases a with
  | shape s => simp [intersects, leaves, metBy_eq]
  | union members => exact anyIntersects_eq members b

theorem anyIntersects_eq (members : List Area) (b : Area) :
    anyIntersects members b = (leavesOf members).any fun s => b.leaves.any s.intersects := by
  cases members with
  | nil => rfl
  | cons a rest =>
    rw [anyIntersects, leavesOf, List.any_append, intersects_eq a b, anyIntersects_eq rest b]

end

/-- Two areas intersect when a shape of the one meets a shape of the other. -/
theorem intersects_iff (a b : Area) :
    a.intersects b ↔ ∃ s ∈ a.leaves, ∃ t ∈ b.leaves, s.intersects t := by
  simp only [intersects_eq, List.any_eq_true]

theorem intersects_comm_of_circleFree {a b : Area} (free : a.CircleFree ∨ b.CircleFree) :
    a.intersects b = b.intersects a := by
  have apart {s t : Shape} (inA : s ∈ a.leaves) (inB : t ∈ b.leaves) :
      s.isCircle = false ∨ t.isCircle = false :=
    free.imp (fun none => none s inA) (fun none => none t inB)
  apply Bool.eq_iff_iff.mpr
  rw [intersects_iff, intersects_iff]
  constructor
  · rintro ⟨s, inA, t, inB, meet⟩
    exact ⟨t, inB, s, inA, Shape.intersects_comm (apart inA inB) ▸ meet⟩
  · rintro ⟨t, inB, s, inA, meet⟩
    exact ⟨s, inA, t, inB, Shape.intersects_comm (apart inA inB) ▸ meet⟩

omit [Trigonometry] in
/-- A nested union around the origin and a circle at it, which is all that is measured here. -/
theorem intersects_comm_at_origin :
    let level : Trigonometry := ⟨fun x => x, fun _ => 1, fun x => x, fun y _ => y, fun _ => 0⟩
    let origin : Position := ⟨0.0, 0.0, by decide +kernel, by decide +kernel⟩
    let northWest : Position := ⟨1, -1, by decide +kernel, by decide +kernel⟩
    let southEast : Position := ⟨-1, 1, by decide +kernel, by decide +kernel⟩
    let far : Position := ⟨60, 60, by decide +kernel, by decide +kernel⟩
    let a : Area := .union [.union [], .union [.shape (.polygon ⟨[far, far, far], by decide⟩)],
      .shape (.rectangle ⟨northWest, southEast, by decide +kernel, by decide +kernel⟩)]
    let circle : Circle := ⟨origin, 500, .geodesic, by decide +kernel⟩
    let b : Area := .union [.shape (.circle circle), .union []]
    a.CircleFree ∧ ¬ b.CircleFree ∧ a.intersects b = true ∧ b.intersects a = true := by
  intro level origin northWest southEast far a circle b
  have free : a.CircleFree := by decide +kernel
  have meet : a.intersects b = true := by decide +kernel
  exact ⟨free, by decide +kernel, meet, intersects_comm_of_circleFree (.inl free) ▸ meet⟩

end Area
end VesselRelay
