import VesselRelay.Proofs.Geo.Extent

/-!
Boxes are the closed boxes of the plane, and they are put together as such. Two of them meet exactly
where some position lies in both, though they share no more than a corner, and a merge is the least
box around two. That it is so makes merging independent of order and grouping. Which of two equal
limits is kept goes by their order, so that the two zeros may be told apart in merges of the same
boxes; those merges are equal nevertheless.
-/
namespace VesselRelay

namespace Binary64

variable {a b c : Float}

/-- Of three doubles the first of the least is kept, however they are grouped. -/
theorem least_assoc (ha : a ≤ a) (hb : b ≤ b) (hc : c ≤ c) :
    least (least a b) c = least a (least b c) := by
  by_cases ba : b < a
  · by_cases cb : c < b
    · have ca : c < a := lt_of_lt_of_le cb (le_of_lt ba)
      simp [least, ba, cb, ca]
    · simp [least, ba, cb]
  · by_cases cb : c < b
    · simp [least, ba, cb]
    · have ac : a ≤ c := le_trans (le_of_not_lt ha hb ba) (le_of_not_lt hb hc cb)
      simp [least, ba, cb, not_lt_of_le ac]

theorem greatest_assoc (ha : a ≤ a) (hb : b ≤ b) (hc : c ≤ c) :
    greatest (greatest a b) c = greatest a (greatest b c) := by
  by_cases ab : a < b
  · by_cases bc : b < c
    · have ac : a < c := lt_of_lt_of_le ab (le_of_lt bc)
      simp [greatest, ab, bc, ac]
    · simp [greatest, ab, bc]
  · by_cases bc : b < c
    · simp [greatest, ab, bc]
    · have ca : c ≤ a := le_trans (le_of_not_lt hc hb bc) (le_of_not_lt hb ha ab)
      simp [greatest, ab, bc, not_lt_of_le ca]

theorem least_self (a : Float) : least a a = a := ite_self a

theorem greatest_self (a : Float) : greatest a a = a := ite_self a

end Binary64

namespace Box
open Binary64 (least greatest)

variable {a b c : Box}

/-! ### Meeting -/

/-- The south-western corner of what two boxes share, if they share anything. -/
def meetingPoint (a b : Box) : Position where
  latitude := greatest a.south b.south
  longitude := greatest a.west b.west
  validLatitude := valid_greatest a.validSouth b.validSouth
  validLongitude := valid_greatest a.validWest b.validWest

theorem intersects_iff : a.intersects b ↔
    a.south ≤ b.north ∧ b.south ≤ a.north ∧ a.west ≤ b.east ∧ b.west ≤ a.east := by
  simp only [intersects, Bool.and_eq_true, decide_eq_true_eq, and_assoc]

theorem intersects_of_contains {p : Position} (inA : a.contains p) (inB : b.contains p) :
    a.intersects b := by
  obtain ⟨southA, northA, westA, eastA⟩ := contains_iff.mp inA
  obtain ⟨southB, northB, westB, eastB⟩ := contains_iff.mp inB
  exact intersects_iff.mpr ⟨Binary64.le_trans southA northB, Binary64.le_trans southB northA,
    Binary64.le_trans westA eastB, Binary64.le_trans westB eastA⟩

theorem contains_meetingPoint (meet : a.intersects b) :
    a.contains (meetingPoint a b) ∧ b.contains (meetingPoint a b) := by
  obtain ⟨southA, southB, westA, westB⟩ := intersects_iff.mp meet
  have selfA := Within.refl a
  have selfB := Within.refl b
  constructor
  · refine contains_iff.mpr ⟨?_, ?_, ?_, ?_⟩
    · exact Binary64.left_le_greatest selfA.south
    · exact Binary64.greatest_le a.upright southB
    · exact Binary64.left_le_greatest selfA.west
    · exact Binary64.greatest_le a.eastward westB
  · refine contains_iff.mpr ⟨?_, ?_, ?_, ?_⟩
    · exact Binary64.right_le_greatest selfA.south selfB.south
    · exact Binary64.greatest_le southA b.upright
    · exact Binary64.right_le_greatest selfA.west selfB.west
    · exact Binary64.greatest_le westA b.eastward

theorem intersects_iff_exists : a.intersects b ↔ ∃ p, a.contains p ∧ b.contains p := by
  constructor
  · intro meet
    exact ⟨meetingPoint a b, contains_meetingPoint meet⟩
  · rintro ⟨p, inA, inB⟩
    exact intersects_of_contains inA inB

/-! ### Merging -/

/-- The limits of a box are refused nowhere, so those of a merge are not. -/
theorem make_self (box : Box) : make box.south box.north box.west box.east = .ok box := by
  have latitudes := And.intro box.validSouth box.validNorth
  have longitudes := And.intro box.validWest box.validEast
  have order := And.intro box.upright box.eastward
  rw [make, dif_pos ⟨latitudes, longitudes⟩, dif_pos order]

theorem merge_within_iff : (a.merge b).Within c ↔ a.Within c ∧ b.Within c := by
  constructor
  · intro within
    exact ⟨(within_merge_left a b).trans within, (within_merge_right a b).trans within⟩
  · rintro ⟨inC, inC'⟩
    exact merge_within inC inC'

theorem merge_comm (a b : Box) : a.merge b == b.merge a := by
  apply Within.antisymm
  · exact merge_within (within_merge_right b a) (within_merge_left b a)
  · exact merge_within (within_merge_right a b) (within_merge_left a b)

theorem merge_assoc (a b c : Box) : (a.merge b).merge c = a.merge (b.merge c) := by
  have selfA := Within.refl a
  have selfB := Within.refl b
  have selfC := Within.refl c
  ext
  · exact Binary64.least_assoc selfA.south selfB.south selfC.south
  · exact Binary64.greatest_assoc selfA.north selfB.north selfC.north
  · exact Binary64.least_assoc selfA.west selfB.west selfC.west
  · exact Binary64.greatest_assoc selfA.east selfB.east selfC.east

theorem merge_self (a : Box) : a.merge a = a := by
  ext
  · exact Binary64.least_self a.south
  · exact Binary64.greatest_self a.north
  · exact Binary64.least_self a.west
  · exact Binary64.greatest_self a.east

/-- How boxes meet and merge, in the order in which one lies in another. -/
structure Lattice (a b c : Box) : Prop where
  /-- One box lies in another where all its positions do. -/
  within : a.Within b ↔ ∀ p, a.contains p → b.contains p
  /-- Boxes meet where some position lies in both. -/
  meets : a.intersects b ↔ ∃ p, a.contains p ∧ b.contains p
  /-- The limits that a merge takes are those of a box, -/
  merges : make (least a.south b.south) (greatest a.north b.north) (least a.west b.west)
    (greatest a.east b.east) = .ok (a.merge b)
  /-- which holds the positions of both -/
  covers : ∀ p, a.contains p ∨ b.contains p → (a.merge b).contains p
  /-- and lies in every box that holds these. -/
  narrowest : (∀ p, a.contains p ∨ b.contains p → c.contains p) →
    ∀ p, (a.merge b).contains p → c.contains p
  comm : a.merge b == b.merge a
  assoc : (a.merge b).merge c = a.merge (b.merge c)
  idem : a.merge a = a

theorem lattice (a b c : Box) : Lattice a b c where
  within := within_iff
  meets := intersects_iff_exists
  merges := make_self (a.merge b)
  covers p held := by
    rcases held with inA | inB
    · exact within_iff.mp (within_merge_left a b) p inA
    · exact within_iff.mp (within_merge_right a b) p inB
  narrowest held := by
    have inC : a.Within c := within_iff.mpr fun p inA => held p (.inl inA)
    have inC' : b.Within c := within_iff.mpr fun p inB => held p (.inr inB)
    exact within_iff.mp (merge_within_iff.mpr ⟨inC, inC'⟩)
  comm := merge_comm a b
  assoc := merge_assoc a b c
  idem := merge_self a

end Box
end VesselRelay
