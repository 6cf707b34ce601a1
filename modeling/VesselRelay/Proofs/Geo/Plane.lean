import Mathlib
import VesselRelay.Proofs.Geo.Crossing

/-!
Rings in the real plane. Along a way that touches no edge of a ring the number of its edges that are
met to the east stays even or odd. Two rings that both hold a point so have edges that share one, or
one of them holds every corner of the other: go from the point to a corner until the first edge, and
then along the ring that the edge belongs to.
-/
namespace VesselRelay

/-- Twice the area of a triangle, above zero where it is gone round to the left. -/
def cross {R : Type} [Ring R] (a b c : R × R) : R :=
  (b.1 - a.1) * (c.2 - a.2) - (b.2 - a.2) * (c.1 - a.1)

/-- Whether an edge is met east of a point: the point is on the left of an edge that runs up, or on
the right of one that runs down. -/
def Met {R : Type} [Ring R] [LinearOrder R] (a b p : R × R) : Prop :=
  (a.2 ≤ p.2 ∧ p.2 < b.2 ∧ 0 < cross a b p) ∨ (b.2 ≤ p.2 ∧ p.2 < a.2 ∧ cross a b p < 0)

namespace Plane

variable {a b x y p : ℝ × ℝ} {h l m : ℝ}

/-! ### Segments -/

/-- Where the line through two points passes a latitude. -/
noncomputable def across (a b : ℝ × ℝ) (h : ℝ) : ℝ :=
  a.1 + (h - a.2) / (b.2 - a.2) * (b.1 - a.1)

theorem across_start (a b : ℝ × ℝ) : across a b a.2 = a.1 := by
  simp [across]

theorem across_finish (rise : a.2 < b.2) : across a b b.2 = b.1 := by
  have apart : b.2 - a.2 ≠ 0 := (sub_pos.mpr rise).ne'
  rw [across, div_self apart]
  ring

theorem cross_eq (rise : a.2 < b.2) : cross a b p = (b.2 - a.2) * (across a b p.2 - p.1) := by
  have apart : b.2 - a.2 ≠ 0 := (sub_pos.mpr rise).ne'
  unfold cross across
  field_simp
  ring

theorem cross_pos_iff (rise : a.2 < b.2) : 0 < cross a b p ↔ p.1 < across a b p.2 := by
  rw [cross_eq rise, mul_pos_iff_of_pos_left (sub_pos.mpr rise), sub_pos]

theorem cross_neg_iff (rise : a.2 < b.2) : cross a b p < 0 ↔ across a b p.2 < p.1 := by
  rw [← neg_pos, cross_eq rise, ← mul_neg, neg_sub, mul_pos_iff_of_pos_left (sub_pos.mpr rise),
    sub_pos]

theorem across_mem_segment (rise : a.2 < b.2) (low : a.2 ≤ h) (high : h ≤ b.2) :
    (across a b h, h) ∈ segment ℝ a b := by
  have apart : 0 < b.2 - a.2 := sub_pos.mpr rise
  rw [segment_eq_image_lineMap]
  refine ⟨(h - a.2) / (b.2 - a.2), ⟨div_nonneg (by linarith) apart.le, ?_⟩, ?_⟩
  · rw [div_le_one apart]
    linarith
  · ext
    · simp [AffineMap.lineMap_apply, across]
      ring
    · simp [AffineMap.lineMap_apply]
      field_simp
      ring

theorem level_mem_segment (level : a.2 = b.2) (between : h ∈ Set.uIcc a.1 b.1) :
    (h, a.2) ∈ segment ℝ a b := by
  obtain ⟨a₁, a₂⟩ := a
  obtain ⟨b₁, b₂⟩ := b
  obtain rfl : a₂ = b₂ := level
  rw [← Prod.image_mk_segment_left, segment_eq_uIcc]
  exact ⟨h, between, rfl⟩

theorem cross_eq_zero_of_mem_segment (on : p ∈ segment ℝ a b) : cross a b p = 0 := by
  rw [segment_eq_image_lineMap] at on
  obtain ⟨t, _, rfl⟩ := on
  simp [cross, AffineMap.lineMap_apply]
  ring

theorem mem_segment_iff : p ∈ segment ℝ a b ↔
    cross a b p = 0 ∧ p.1 ∈ Set.uIcc a.1 b.1 ∧ p.2 ∈ Set.uIcc a.2 b.2 := by
  constructor
  · intro on
    have ⟨east, north⟩ := Prod.segment_subset a b on
    rw [segment_eq_uIcc] at east north
    exact ⟨cross_eq_zero_of_mem_segment on, east, north⟩
  · rintro ⟨straight, east, north⟩
    wlog upward : a.2 ≤ b.2 generalizing a b
    · rw [segment_symm]
      refine this ?_ (Set.uIcc_comm a.1 b.1 ▸ east) (Set.uIcc_comm a.2 b.2 ▸ north)
        (not_le.mp upward).le
      unfold cross at *
      linarith
    rw [Set.uIcc_of_le upward] at north
    rcases upward.lt_or_eq with rise | level
    · rw [cross_eq rise, mul_eq_zero_iff_left (sub_pos.mpr rise).ne', sub_eq_zero] at straight
      have on := across_mem_segment rise north.1 north.2
      rwa [straight] at on
    · have on := level_mem_segment level east
      rwa [le_antisymm north.1 (level ▸ north.2)] at on

/-! ### Two segments -/

theorem exists_lineMap (apart : a ≠ b) (straight : cross a b p = 0) :
    ∃ t : ℝ, AffineMap.lineMap a b t = p := by
  unfold cross at straight
  simp only [AffineMap.lineMap_apply, Prod.ext_iff, vsub_eq_sub, vadd_eq_add, Prod.fst_add,
    Prod.snd_add, Prod.smul_fst, Prod.smul_snd, Prod.fst_sub, Prod.snd_sub, smul_eq_mul]
  by_cases level : b.2 - a.2 = 0
  · have run : b.1 - a.1 ≠ 0 := by
      intro same
      exact apart (Prod.ext (sub_eq_zero.mp same).symm (sub_eq_zero.mp level).symm)
    refine ⟨(p.1 - a.1) / (b.1 - a.1), by field_simp; ring, ?_⟩
    rw [level, zero_mul, sub_zero, mul_eq_zero_iff_left run] at straight
    rw [level]
    linarith
  · refine ⟨(p.2 - a.2) / (b.2 - a.2), ?_, by field_simp; ring⟩
    field_simp
    linarith

/-- Of two segments on one line that share a point, each holds an end of the other or lies in it. -/
theorem touched_of_straight (apart : a ≠ b) (straight : cross a b x = 0)
    (straight' : cross a b y = 0) (on : p ∈ segment ℝ a b) (on' : p ∈ segment ℝ x y) :
    x ∈ segment ℝ a b ∨ y ∈ segment ℝ a b ∨ a ∈ segment ℝ x y := by
  obtain ⟨s, rfl⟩ := exists_lineMap apart straight
  obtain ⟨t, rfl⟩ := exists_lineMap apart straight'
  have inside {u : ℝ} (low : 0 ≤ u) (high : u ≤ 1) :
      AffineMap.lineMap a b u ∈ segment ℝ a b :=
    lineMap_mem_segment ℝ a b ⟨low, high⟩
  rw [segment_eq_image_lineMap] at on
  obtain ⟨u, ⟨low, high⟩, rfl⟩ := on
  rw [← image_segment, (AffineMap.lineMap_injective ℝ apart).mem_set_image, segment_eq_uIcc,
    Set.mem_uIcc] at on'
  have reaches (between : 0 ∈ Set.uIcc s t) :
      a ∈ segment ℝ (AffineMap.lineMap a b s) (AffineMap.lineMap a b t) := by
    rw [← segment_eq_uIcc] at between
    have start := Set.mem_image_of_mem (AffineMap.lineMap a b) between
    rwa [image_segment, AffineMap.lineMap_apply_zero] at start
  rcases on' with ⟨below, above⟩ | ⟨below, above⟩
  · rcases le_total 0 s with ahead | behind
    · exact .inl (inside ahead (by linarith))
    · exact .inr (.inr (reaches (Set.mem_uIcc_of_le behind (by linarith))))
  · rcases le_total 0 t with ahead | behind
    · exact .inr (.inl (inside ahead (by linarith)))
    · exact .inr (.inr (reaches (Set.mem_uIcc_of_ge behind (by linarith))))

theorem cross_mem_uIcc (a b : ℝ × ℝ) (on : p ∈ segment ℝ x y) :
    cross a b p ∈ Set.uIcc (cross a b x) (cross a b y) := by
  rw [← segment_eq_uIcc, segment_eq_image_lineMap]
  rw [segment_eq_image_lineMap] at on
  obtain ⟨t, inside, rfl⟩ := on
  refine ⟨t, inside, ?_⟩
  simp [cross, AffineMap.lineMap_apply]
  ring

theorem touched_of_same_side
    (same : SignType.sign (cross a b x) = SignType.sign (cross a b y))
    (on : p ∈ segment ℝ a b) (on' : p ∈ segment ℝ x y) :
    x ∈ segment ℝ a b ∨ y ∈ segment ℝ a b ∨ a ∈ segment ℝ x y := by
  by_cases apart : a = b
  · subst apart
    rw [segment_same, Set.mem_singleton_iff] at on
    exact .inr (.inr (on ▸ on'))
  · have between := cross_mem_uIcc a b on'
    rw [cross_eq_zero_of_mem_segment on, Set.mem_uIcc] at between
    rcases lt_trichotomy (cross a b x) 0 with right | zero | left
    · have right' := sign_eq_neg_one_iff.mp (same.symm.trans (sign_neg right))
      rcases between with ⟨_, _⟩ | ⟨_, _⟩ <;> linarith
    · have zero' := sign_eq_zero_iff.mp (same.symm.trans (sign_eq_zero_iff.mpr zero))
      exact touched_of_straight apart zero zero' on on'
    · have left' := sign_eq_one_iff.mp (same.symm.trans (sign_pos left))
      rcases between with ⟨_, _⟩ | ⟨_, _⟩ <;> linarith

/-- Two segments that share a point cross, or an end of one lies on the other. -/
theorem crossed_or_touched (on : p ∈ segment ℝ a b) (on' : p ∈ segment ℝ x y) :
    (SignType.sign (cross a b x) ≠ SignType.sign (cross a b y) ∧
        SignType.sign (cross x y a) ≠ SignType.sign (cross x y b)) ∨
      x ∈ segment ℝ a b ∨ y ∈ segment ℝ a b ∨ a ∈ segment ℝ x y ∨ b ∈ segment ℝ x y := by
  by_cases same : SignType.sign (cross a b x) = SignType.sign (cross a b y)
  · have touched := touched_of_same_side same on on'
    tauto
  · by_cases same' : SignType.sign (cross x y a) = SignType.sign (cross x y b)
    · have touched := touched_of_same_side same' on' on
      tauto
    · exact .inl ⟨same, same'⟩

/-! ### One edge -/

/-- Two segments that share no point keep their sides between two latitudes that both pass. -/
theorem side_iff (apart : Disjoint (segment ℝ a b) (segment ℝ x y)) (rise : a.2 < b.2)
    (rise' : x.2 < y.2) (lm : l ≤ m) (low : a.2 ≤ l) (low' : x.2 ≤ l) (high : m ≤ b.2)
    (high' : m ≤ y.2) : across x y l < across a b l ↔ across x y m < across a b m := by
  have never (h : ℝ) (above : l ≤ h) (below : h ≤ m) : across a b h - across x y h ≠ 0 := by
    intro same
    have onFirst := across_mem_segment rise (low.trans above) (below.trans high)
    have onSecond := across_mem_segment rise' (low'.trans above) (below.trans high')
    rw [sub_eq_zero.mp same] at onFirst
    exact Set.disjoint_left.mp apart onFirst onSecond
  have continuous : ContinuousOn (fun h => across a b h - across x y h) (Set.Icc l m) := by
    unfold across
    fun_prop
  rw [← sub_pos, ← sub_pos (b := across x y m)]
  constructor
  · intro start
    by_contra finish
    obtain ⟨h, ⟨above, below⟩, zero⟩ :=
      intermediate_value_Icc' lm continuous ⟨not_lt.mp finish, start.le⟩
    exact never h above below zero
  · intro finish
    by_contra start
    obtain ⟨h, ⟨above, below⟩, zero⟩ :=
      intermediate_value_Icc lm continuous ⟨not_lt.mp start, finish.le⟩
    exact never h above below zero

/-- Whether a point lies east of a segment that runs up: the latitudes of the segment hold its upper
end and not its lower one. -/
def Beyond (x y p : ℝ × ℝ) : Prop := x.2 < p.2 ∧ p.2 ≤ y.2 ∧ cross x y p < 0

theorem met_swap : Met b a p ↔ Met a b p := by
  have turned : cross b a p = -cross a b p := by
    unfold cross
    ring
  unfold Met
  rw [turned, neg_pos, neg_lt_zero]
  exact or_comm

theorem met_iff_across (rise : a.2 < b.2) :
    Met a b p ↔ a.2 ≤ p.2 ∧ p.2 < b.2 ∧ p.1 < across a b p.2 := by
  rw [Met, cross_pos_iff rise]
  constructor
  · rintro (up | ⟨low, high, _⟩)
    · exact up
    · linarith
  · exact .inl

theorem not_met_of_level (level : a.2 = b.2) : ¬ Met a b p := by
  rintro (⟨low, high, _⟩ | ⟨low, high, _⟩) <;> linarith

theorem beyond_iff_across (rise : x.2 < y.2) :
    Beyond x y p ↔ x.2 < p.2 ∧ p.2 ≤ y.2 ∧ across x y p.2 < p.1 := by
  rw [Beyond, cross_neg_iff rise]

theorem not_beyond_of_level (level : x.2 = y.2) : ¬ Beyond x y p := by
  rintro ⟨low, high, _⟩
  linarith

/-- A segment along a parallel does not cross one that it does not touch. -/
theorem across_notMem (apart : Disjoint (segment ℝ a b) (segment ℝ x y)) (rise : a.2 < b.2)
    (level : x.2 = y.2) (low : a.2 ≤ x.2) (high : x.2 ≤ b.2) :
    across a b x.2 ∉ Set.uIcc x.1 y.1 := fun between =>
  Set.disjoint_left.mp apart (across_mem_segment rise low high) (level_mem_segment level between)

/-- On the way up a segment, an edge that does not touch it comes to be met or ceases to be exactly
where one of its ends is passed and the other is not. -/
theorem met_iff_of_rise (apart : Disjoint (segment ℝ a b) (segment ℝ x y)) (rise : a.2 < b.2)
    (rise' : x.2 < y.2) : (Met a b x ↔ Met a b y) ↔ (Beyond x y a ↔ Beyond x y b) := by
  rw [met_iff_across rise, met_iff_across rise, beyond_iff_across rise', beyond_iff_across rise']
  by_cases overlap : x.2 < b.2 ∧ a.2 ≤ y.2
  · have side := side_iff apart rise rise' (l := max a.2 x.2) (m := min b.2 y.2)
      (le_min (max_le rise.le overlap.1.le) (max_le overlap.2 rise'.le)) (le_max_left _ _)
      (le_max_right _ _) (min_le_left _ _) (min_le_right _ _)
    -- Below, either the segment or the edge begins last, and above, one of them ends first.
    rcases le_or_gt a.2 x.2 with lowX | lowA <;> rcases le_or_gt b.2 y.2 with highB | highY
    · rw [max_eq_right lowX, min_eq_left highB, across_start, across_finish rise] at side
      have := not_lt.mpr lowX
      have := not_lt.mpr highB
      tauto
    · rw [max_eq_right lowX, min_eq_right highY.le, across_start, across_finish rise'] at side
      have := not_lt.mpr lowX
      have := not_le.mpr highY
      tauto
    · rw [max_eq_left lowA.le, min_eq_left highB, across_start, across_finish rise] at side
      have := not_le.mpr lowA
      have := not_lt.mpr highB
      tauto
    · rw [max_eq_left lowA.le, min_eq_right highY.le, across_start, across_finish rise'] at side
      have := not_le.mpr lowA
      have := not_le.mpr highY
      tauto
  · have notStart : ¬ (a.2 ≤ x.2 ∧ x.2 < b.2 ∧ x.1 < across a b x.2) :=
      fun ⟨low, high, _⟩ => overlap ⟨high, low.trans rise'.le⟩
    have notFinish : ¬ (a.2 ≤ y.2 ∧ y.2 < b.2 ∧ y.1 < across a b y.2) :=
      fun ⟨low, high, _⟩ => overlap ⟨rise'.trans high, low⟩
    have notLower : ¬ (x.2 < a.2 ∧ a.2 ≤ y.2 ∧ across x y a.2 < a.1) :=
      fun ⟨low, high, _⟩ => overlap ⟨low.trans rise, high⟩
    have notUpper : ¬ (x.2 < b.2 ∧ b.2 ≤ y.2 ∧ across x y b.2 < b.1) :=
      fun ⟨low, high, _⟩ => overlap ⟨low, rise.le.trans high⟩
    simp only [notStart, notFinish, notLower, notUpper]

/-- Both ends of a segment along a parallel lie on one side of an edge. -/
theorem met_iff_of_level (apart : Disjoint (segment ℝ a b) (segment ℝ x y)) (rise : a.2 < b.2)
    (level : x.2 = y.2) : Met a b x ↔ Met a b y := by
  rw [met_iff_across rise, met_iff_across rise, ← level]
  refine and_congr_right fun low => and_congr_right fun high => ?_
  have outside := across_notMem apart rise level low high.le
  rw [Set.mem_uIcc] at outside
  push Not at outside
  exact ⟨fun first => outside.1 first.le, fun second => outside.2 second.le⟩

/-- Both ends of an edge along a parallel lie on one side of a segment. -/
theorem beyond_iff_of_level (apart : Disjoint (segment ℝ a b) (segment ℝ x y)) (level : a.2 = b.2)
    (rise : x.2 < y.2) : Beyond x y a ↔ Beyond x y b := by
  rw [beyond_iff_across rise, beyond_iff_across rise, ← level]
  refine and_congr_right fun low => and_congr_right fun high => ?_
  have outside := across_notMem apart.symm rise level low.le high
  rw [Set.mem_uIcc] at outside
  push Not at outside
  constructor
  · intro first
    by_contra second
    exact (outside.2 (not_lt.mp second)).not_gt first
  · intro second
    by_contra first
    exact (outside.1 (not_lt.mp first)).not_gt second

theorem met_iff (apart : Disjoint (segment ℝ a b) (segment ℝ x y)) (order : x.2 ≤ y.2) :
    (Met a b x ↔ Met a b y) ↔ (Beyond x y a ↔ Beyond x y b) := by
  wlog upward : a.2 ≤ b.2 generalizing a b
  · rw [← met_swap, ← met_swap (p := y), iff_comm (a := Beyond x y a)]
    exact this (segment_symm ℝ a b ▸ apart) (not_le.mp upward).le
  rcases upward.lt_or_eq with rise | level <;> rcases order.lt_or_eq with rise' | level'
  · exact met_iff_of_rise apart rise rise'
  · simp only [met_iff_of_level apart rise level', not_beyond_of_level level']
  · simp only [not_met_of_level level, beyond_iff_of_level apart level rise']
  · simp only [not_met_of_level level, not_beyond_of_level level']

/-! ### Rings -/

section
variable {point : Position → ℝ × ℝ} {ring other : List Position} {q r : ℝ × ℝ}

/-- The edges of a ring, its corners put into the plane. -/
def outline (point : Position → ℝ × ℝ) (ring : List Position) : Set (ℝ × ℝ) :=
  ⋃ e ∈ Ring.edges ring, segment ℝ (point e.1) (point e.2)

open Classical in
/-- Whether an odd number of edges is met on the way east. -/
noncomputable def oddEast (point : Position → ℝ × ℝ) (ring : List Position) (q : ℝ × ℝ) : Bool :=
  Ring.odd (fun e => decide (Met (point e.1) (point e.2) q)) (Ring.edges ring)

/-- Whether a ring holds a point of the plane. -/
def Holds (point : Position → ℝ × ℝ) (ring : List Position) (q : ℝ × ℝ) : Prop :=
  q ∈ outline point ring ∨ oddEast point ring q

theorem segment_subset_outline {e : Ring.Edge} (edge : e ∈ Ring.edges ring) :
    segment ℝ (point e.1) (point e.2) ⊆ outline point ring :=
  Set.subset_biUnion_of_mem (u := fun e : Ring.Edge => segment ℝ (point e.1) (point e.2)) edge

theorem corner_mem_outline {p : Position} (corner : p ∈ ring) : point p ∈ outline point ring := by
  obtain ⟨e, edge, rfl⟩ := Ring.exists_edge_to corner
  exact segment_subset_outline edge (right_mem_segment ℝ _ _)

theorem isClosed_outline (point : Position → ℝ × ℝ) (ring : List Position) :
    IsClosed (outline point ring) := by
  refine (List.finite_toSet (Ring.edges ring)).isClosed_biUnion fun e _ => ?_
  rw [segment_eq_image_lineMap]
  exact (isCompact_Icc.image (by fun_prop)).isClosed

/-- Along a way that touches no edge of a ring odd stays odd. -/
theorem oddEast_eq (apart : Disjoint (outline point ring) (segment ℝ x y)) :
    oddEast point ring x = oddEast point ring y := by
  classical
  wlog order : x.2 ≤ y.2 generalizing x y
  · exact (this (segment_symm ℝ x y ▸ apart) (not_le.mp order).le).symm
  rw [← bne_eq_false_iff_eq, oddEast, oddEast, ← Ring.odd_bne,
    ← Ring.odd_edges (fun p => decide (Beyond x y (point p))) ring]
  refine Ring.odd_congr fun e edge => ?_
  have passed := met_iff (apart.mono_left (segment_subset_outline edge)) order
  rw [Bool.eq_iff_iff, bne_iff_ne, bne_iff_ne, ne_eq, ne_eq, decide_eq_decide, decide_eq_decide,
    passed]

/-- Gone along itself, a ring stays inside or outside of a ring that it does not touch. -/
theorem oddEast_eq_corner (apart : Disjoint (outline point ring) (outline point other))
    (on : q ∈ outline point ring) {p : Position} (corner : p ∈ ring) :
    oddEast point other q = oddEast point other (point p) := by
  have along {e : Ring.Edge} (edge : e ∈ Ring.edges ring) {r : ℝ × ℝ}
      (here : r ∈ segment ℝ (point e.1) (point e.2)) :
      oddEast point other r = oddEast point other (point e.2) := by
    refine oddEast_eq (apart.symm.mono_right ?_)
    exact ((convex_segment _ _).segment_subset here (right_mem_segment ℝ _ _)).trans
      (segment_subset_outline edge)
  obtain ⟨e, edge, here⟩ := Set.mem_iUnion₂.mp on
  rw [along edge here]
  exact Ring.eq_of_mem_edges (f := fun p => oddEast point other (point p))
    (fun e edge => along edge (left_mem_segment ℝ _ _)) (Ring.ends_of_mem_edges edge).2 corner

/-- A way into a closed set has a first point in it. -/
theorem exists_first {s : Set (ℝ × ℝ)} (closed : IsClosed s) (reached : r ∈ s) :
    ∃ t ∈ s, ∀ u ∈ segment ℝ q t, u ∈ s → u = t := by
  have compact : IsCompact (segment ℝ q r ∩ s) := by
    rw [segment_eq_image_lineMap]
    exact (isCompact_Icc.image (by fun_prop)).inter_right closed
  obtain ⟨t, ⟨onWay, hit⟩, nearest⟩ := compact.exists_isMinOn
    ⟨r, right_mem_segment ℝ q r, reached⟩ (f := fun u => dist q u) (by fun_prop)
  refine ⟨t, hit, fun u before hit' => ?_⟩
  have onWay' := (convex_segment q r).segment_subset (left_mem_segment ℝ q r) onWay before
  have farther : dist q t ≤ dist q u := nearest ⟨onWay', hit'⟩
  have parts := dist_add_dist_of_mem_segment before
  exact dist_le_zero.mp (by linarith)

theorem holds_corner_of_first (apart : Disjoint (outline point ring) (outline point other))
    (on : r ∈ outline point ring)
    (first : ∀ u ∈ segment ℝ q r, u ∈ outline point ring ∪ outline point other → u = r)
    (holds : Holds point other q) {p : Position} (corner : p ∈ ring) :
    Holds point other (point p) := by
  have clear : Disjoint (outline point other) (segment ℝ q r) := by
    refine Set.disjoint_left.mpr fun u hit before => ?_
    rw [first u before (.inr hit)] at hit
    exact Set.disjoint_left.mp apart on hit
  rcases holds with edge | inside
  · exact absurd (left_mem_segment ℝ q r) (Set.disjoint_left.mp clear edge)
  · rw [oddEast_eq clear, oddEast_eq_corner apart on corner] at inside
    exact .inr inside

/-- Two rings that hold one point share a point of their edges, or one of them holds every corner of
the other. -/
theorem meet_of_holds (holds : Holds point ring q) (holds' : Holds point other q) {p : Position}
    (corner : p ∈ ring) : ¬ Disjoint (outline point ring) (outline point other) ∨
      (∀ p ∈ ring, Holds point other (point p)) ∨ ∀ p ∈ other, Holds point ring (point p) := by
  by_cases apart : Disjoint (outline point ring) (outline point other)
  · right
    obtain ⟨r, on | on, first⟩ := exists_first (q := q)
      ((isClosed_outline point ring).union (isClosed_outline point other))
      (.inl (corner_mem_outline corner))
    · exact .inl fun p corner => holds_corner_of_first apart on first holds' corner
    · rw [Set.union_comm] at first
      exact .inr fun p corner => holds_corner_of_first apart.symm on first holds corner
  · exact .inl apart

end

end Plane
end VesselRelay
