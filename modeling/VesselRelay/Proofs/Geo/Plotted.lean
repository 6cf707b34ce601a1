import VesselRelay.Proofs.Geo.Grid

/-!
Rings on the grid, plotted in the real plane. What is reckoned with doubles is what is so in the
plane: whether a position lies on an edge, whether an edge is met to the east, and whether a ring
holds a position. So two rings that hold one position meet.
-/
namespace VesselRelay
open Binary64 (number? Steps)

variable {a b c p q : Position} {u v w : ℤ × ℤ}

/-! ### Points -/

/-- The point of the plane at which a position lies, in degrees. -/
noncomputable def Position.point (p : Position) : ℝ × ℝ :=
  (((number? p.longitude).getD 0 : ℚ), ((number? p.latitude).getD 0 : ℚ))

theorem Position.At.point_eq (placed : p.At w) :
    p.point = ((w.1 : ℝ) * 2 ^ (-18 : ℤ), (w.2 : ℝ) * 2 ^ (-18 : ℤ)) := by
  have longitude : number? p.longitude = _ := placed.longitude
  have latitude : number? p.latitude = _ := placed.latitude
  rw [Position.point, longitude, latitude]
  simp

theorem cross_point (atA : a.At u) (atB : b.At v) (atC : c.At w) :
    cross a.point b.point c.point = (cross u v w : ℤ) * 2 ^ (-36 : ℤ) := by
  rw [atA.point_eq, atB.point_eq, atC.point_eq, square_step]
  unfold cross
  push_cast
  ring

theorem cross_point_pos_iff (atA : a.At u) (atB : b.At v) (atC : c.At w) :
    0 < cross a.point b.point c.point ↔ 0 < cross u v w := by
  rw [cross_point atA atB atC, mul_pos_iff_of_pos_right (by norm_num), Int.cast_pos]

theorem cross_point_neg_iff (atA : a.At u) (atB : b.At v) (atC : c.At w) :
    cross a.point b.point c.point < 0 ↔ cross u v w < 0 := by
  rw [cross_point atA atB atC, ← neg_pos, ← neg_mul, mul_pos_iff_of_pos_right (by norm_num),
    neg_pos, Int.cast_lt_zero]

theorem step_le_iff {m n : ℤ} :
    (m : ℝ) * 2 ^ (-18 : ℤ) ≤ n * 2 ^ (-18 : ℤ) ↔ m ≤ n := by
  rw [mul_le_mul_iff_left₀ (by norm_num), Int.cast_le]

theorem step_lt_iff {m n : ℤ} :
    (m : ℝ) * 2 ^ (-18 : ℤ) < n * 2 ^ (-18 : ℤ) ↔ m < n := by
  rw [mul_lt_mul_iff_left₀ (by norm_num), Int.cast_lt]

theorem met_point_iff (atA : a.At u) (atB : b.At v) (atP : p.At w) :
    Met a.point b.point p.point ↔ Met u v w := by
  rw [Met, cross_point_pos_iff atA atB atP, cross_point_neg_iff atA atB atP, atA.point_eq,
    atB.point_eq, atP.point_eq]
  simp only [step_le_iff, step_lt_iff]
  rfl

theorem step_mem_uIcc {i j k : ℤ} :
    (k : ℝ) * 2 ^ (-18 : ℤ) ∈ Set.uIcc ((i : ℝ) * 2 ^ (-18 : ℤ)) (j * 2 ^ (-18 : ℤ)) ↔
      min i j ≤ k ∧ k ≤ max i j := by
  simp only [Set.mem_uIcc, step_le_iff]
  omega

namespace Ring

variable {ring other : List Position}

/-! ### Edges -/

/-- The way that a path turns in the plane is the one that is reckoned. -/
theorem turn_eq_of_point (onA : a.onGrid) (onB : b.onGrid) (onC : c.onGrid) :
    turn a b c = if 0 < cross a.point b.point c.point then .left
      else if cross a.point b.point c.point < 0 then .right else .straight := by
  obtain ⟨u, atA⟩ := Position.exists_at onA
  obtain ⟨v, atB⟩ := Position.exists_at onB
  obtain ⟨w, atC⟩ := Position.exists_at onC
  simp only [turn_eq atA atB atC, cross_point_pos_iff atA atB atC,
    cross_point_neg_iff atA atB atC]

theorem sign_eq_of_turn_eq (onA : a.onGrid) (onB : b.onGrid) (onP : p.onGrid) (onQ : q.onGrid)
    (same : turn a b p = turn a b q) : SignType.sign (cross a.point b.point p.point) =
      SignType.sign (cross a.point b.point q.point) := by
  rw [turn_eq_of_point onA onB onP, turn_eq_of_point onA onB onQ] at same
  rw [sign_apply, sign_apply]
  split_ifs at same ⊢ <;> rfl

theorem touches_iff (onA : a.onGrid) (onB : b.onGrid) (onP : p.onGrid) :
    touches (a, b) p ↔ p.point ∈ segment ℝ a.point b.point := by
  obtain ⟨u, atA⟩ := Position.exists_at onA
  obtain ⟨v, atB⟩ := Position.exists_at onB
  obtain ⟨w, atP⟩ := Position.exists_at onP
  have straight : cross a.point b.point p.point = 0 ↔ cross u v w = 0 := by
    rw [cross_point atA atB atP, mul_eq_zero_iff_right (by norm_num), Int.cast_eq_zero]
  rw [Plane.mem_segment_iff, touches_iff_cross atA atB atP, straight, atA.point_eq, atB.point_eq,
    atP.point_eq, step_mem_uIcc, step_mem_uIcc]

theorem crossesEast_iff_met (onA : a.onGrid) (onB : b.onGrid) (onP : p.onGrid) :
    crossesEast (a, b) p ↔ Met a.point b.point p.point := by
  obtain ⟨u, atA⟩ := Position.exists_at onA
  obtain ⟨v, atB⟩ := Position.exists_at onB
  obtain ⟨w, atP⟩ := Position.exists_at onP
  rw [crossesEast_iff atA atB atP, met_point_iff atA atB atP]

theorem segmentsMeet_iff (e f : Edge) : segmentsMeet e f ↔
    (turn e.1 e.2 f.1 ≠ turn e.1 e.2 f.2 ∧ turn f.1 f.2 e.1 ≠ turn f.1 f.2 e.2) ∨
      touches e f.1 ∨ touches e f.2 ∨ touches f e.1 ∨ touches f e.2 := by
  simp only [segmentsMeet, touches, Bool.or_eq_true, Bool.and_eq_true, bne_iff_ne, or_assoc]

/-- Segments that share a point of the plane are found to meet. -/
theorem segmentsMeet_of_mem {r : ℝ × ℝ} (onA : a.onGrid) (onB : b.onGrid) (onP : p.onGrid)
    (onQ : q.onGrid) (first : r ∈ segment ℝ a.point b.point)
    (second : r ∈ segment ℝ p.point q.point) : segmentsMeet (a, b) (p, q) := by
  rw [segmentsMeet_iff, touches_iff onA onB onP, touches_iff onA onB onQ,
    touches_iff onP onQ onA, touches_iff onP onQ onB]
  refine (Plane.crossed_or_touched first second).imp_left (And.imp ?_ ?_)
  · exact mt (sign_eq_of_turn_eq onA onB onP onQ)
  · exact mt (sign_eq_of_turn_eq onP onQ onA onB)

/-! ### Rings -/

section
variable (corners : ∀ q ∈ ring, q.onGrid) (corners' : ∀ q ∈ other, q.onGrid)
include corners

/-- A ring holds a position where it does in the plane. -/
theorem contains_iff_holds (on : p.onGrid) :
    contains ring p ↔ Plane.Holds Position.point ring p.point := by
  classical
  rw [contains_iff, Plane.Holds, Plane.outline, Set.mem_iUnion₂, Plane.oddEast]
  simp only [exists_prop]
  have ends {e : Edge} (edge : e ∈ edges ring) : e.1.onGrid ∧ e.2.onGrid :=
    (ends_of_mem_edges edge).imp (corners _) (corners _)
  refine or_congr (exists_congr fun e => and_congr_right fun edge => ?_) ?_
  · exact touches_iff (ends edge).1 (ends edge).2 on
  · rw [odd_congr fun e edge => ?_]
    rw [Bool.eq_iff_iff, decide_eq_true_eq]
    exact crossesEast_iff_met (ends edge).1 (ends edge).2 on

/-- On the way from outside of a ring to a position in it an edge is met. -/
theorem exists_edge_met (onQ : q.onGrid) (onP : p.onGrid) (outside : ¬ contains ring q)
    (held : contains ring p) : ∃ e ∈ edges ring, segmentsMeet e (q, p) := by
  rw [contains_iff_holds corners onQ] at outside
  rw [contains_iff_holds corners onP] at held
  have met : ¬ Disjoint (Plane.outline Position.point ring) (segment ℝ q.point p.point) := by
    intro apart
    rcases held with edge | inside
    · exact Set.disjoint_left.mp apart edge (right_mem_segment ℝ _ _)
    · exact outside (.inr ((Plane.oddEast_eq apart).trans inside))
  obtain ⟨r, edge, between⟩ := Set.not_disjoint_iff.mp met
  obtain ⟨e, edge, here⟩ := Set.mem_iUnion₂.mp edge
  obtain ⟨start, finish⟩ := ends_of_mem_edges edge
  exact ⟨e, edge, segmentsMeet_of_mem (corners _ start) (corners _ finish) onQ onP here between⟩

include corners' in
/-- Two rings that hold one position meet. -/
theorem meets_of_contains (on : p.onGrid) (held : contains ring p) (held' : contains other p) :
    meets ring other := by
  obtain ⟨first, rest, rfl⟩ : ∃ first rest, ring = first :: rest :=
    List.exists_cons_of_ne_nil fun none => by subst none; cases held
  obtain ⟨first', rest', rfl⟩ : ∃ first rest, other = first :: rest :=
    List.exists_cons_of_ne_nil fun none => by subst none; cases held'
  rw [contains_iff_holds corners on] at held
  rw [contains_iff_holds corners' on] at held'
  rw [meets, Bool.or_eq_true, Bool.or_eq_true]
  obtain touch | inside | inside := Plane.meet_of_holds held held' List.mem_cons_self
  · obtain ⟨r, edge, edge'⟩ := Set.not_disjoint_iff.mp touch
    obtain ⟨e, edge, here⟩ := Set.mem_iUnion₂.mp edge
    obtain ⟨f, edge', here'⟩ := Set.mem_iUnion₂.mp edge'
    have ends := (ends_of_mem_edges edge).imp (corners _) (corners _)
    have ends' := (ends_of_mem_edges edge').imp (corners' _) (corners' _)
    refine .inl (.inl (List.any_eq_true.mpr ⟨e, edge, List.any_eq_true.mpr ⟨f, edge', ?_⟩⟩))
    exact segmentsMeet_of_mem ends.1 ends.2 ends'.1 ends'.2 here here'
  · have start := corners first List.mem_cons_self
    exact .inr ((contains_iff_holds corners' start).mpr (inside first List.mem_cons_self))
  · have start := corners' first' List.mem_cons_self
    exact .inl (.inr ((contains_iff_holds corners start).mpr (inside first' List.mem_cons_self)))

end

end Ring
end VesselRelay
