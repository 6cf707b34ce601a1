import Mathlib.Algebra.Ring.Parity
import Mathlib.Data.Fintype.Fin
import Mathlib.Data.List.Rotate
import VesselRelay.Proofs.Geo.Containment

/-!
A ring is a circuit without a beginning. Its edges go from each corner to the next one, from the
last to the first, and whether it holds a position hangs on these edges and not on their order:
whether one of them holds the position, and how many are met on the way east. The walk along them,
which may stop early, comes to the same at whichever corner it sets out.
-/
namespace VesselRelay
namespace Ring

variable {ring other : List Position} {es : List Edge} {h : Edge → Bool} {p : Position}

/-! ### Edges in any order -/

theorem odd_iff_countP : odd h es ↔ Odd (es.countP h) := by
  induction es with
  | nil => simp [odd]
  | cons e rest ih =>
    rw [odd, List.countP_cons, Bool.bne_eq_xor]
    cases holds : h e with
    | false => simpa using ih
    | true => simp [Nat.odd_add_one, ← ih]

/-- A ring that has the same edges in another order holds the same positions. -/
theorem contains_congr (same : (edges ring).Perm (edges other)) (p : Position) :
    contains ring p = contains other p := by
  rw [Bool.eq_iff_iff, contains_iff, contains_iff, odd_iff_countP, odd_iff_countP,
    same.countP_eq]
  simp only [same.mem_iff]

/-! ### From corner to corner -/

/-- The edge that goes from a corner to the next one, from the last to the first. -/
def side (ring : List Position) (i : Fin ring.length) : Edge :=
  (ring.get i, ring.get ⟨(i + 1) % ring.length, Nat.mod_lt _ i.pos⟩)

theorem edgesFrom_concat (previous : Position) (points : List Position) (last : Position) :
    edgesFrom previous (points ++ [last]) = (previous :: points).zip (points ++ [last]) := by
  induction points generalizing previous with
  | nil => rfl
  | cons p rest ih => rw [List.cons_append, edgesFrom, ih, List.zip_cons_cons]

theorem zip_rotate (points others : List Position) (k : ℕ) (even : points.length = others.length) :
    (points.zip others).rotate k = (points.rotate k).zip (others.rotate k) := by
  rw [List.zip_eq_zipWith, List.zip_eq_zipWith, List.zipWith_rotate_distrib _ _ _ _ even]

/-- Every corner is paired with the next one, the last corner coming first. -/
theorem edges_eq_rotate (ring : List Position) :
    edges ring = (ring.zip (ring.rotate 1)).rotate (ring.length - 1) := by
  rcases List.eq_nil_or_concat' ring with rfl | ⟨init, last, rfl⟩
  · rfl
  · have length : 1 + init.length = (init ++ [last]).length := by simp [Nat.add_comm]
    have back : (init ++ [last]).rotate init.length = last :: init :=
      List.rotate_append_length_eq init [last]
    have paired : edges (init ++ [last]) = (last :: init).zip (init ++ [last]) := by
      rw [edges, List.getLast?_concat]
      exact edgesFrom_concat last init last
    rw [paired, ← length, Nat.add_sub_cancel_left, zip_rotate _ _ _ (by simp), List.rotate_rotate,
      length, List.rotate_length, back]

theorem zip_eq_ofFn (ring : List Position) :
    ring.zip (ring.rotate 1) = List.ofFn (side ring) := by
  apply List.ext_getElem
  · simp
  · intro i _ _
    simp [side, List.getElem_rotate]

theorem edges_perm_sides (ring : List Position) : (edges ring).Perm (List.ofFn (side ring)) := by
  rw [edges_eq_rotate, zip_eq_ofFn]
  exact List.rotate_perm _ _

/-- A ring that is begun at another corner has the same edges. -/
theorem edges_rotate_perm (ring : List Position) (k : ℕ) :
    (edges (ring.rotate k)).Perm (edges ring) := by
  have turned : (ring.rotate k).zip ((ring.rotate k).rotate 1) =
      (ring.zip (ring.rotate 1)).rotate k := by
    rw [zip_rotate _ _ _ (by simp), List.rotate_rotate, List.rotate_rotate, Nat.add_comm]
  rw [edges_eq_rotate, edges_eq_rotate, turned]
  exact ((List.rotate_perm _ _).trans (List.rotate_perm _ _)).trans (List.rotate_perm _ _).symm

theorem countP_sides (h : Edge → Bool) (ring : List Position) :
    (List.ofFn (side ring)).countP h = (Finset.univ.filter fun i => h (side ring i)).card := by
  rw [List.ofFn_eq_map, List.countP_map, List.countP_eq_length_filter]
  simp [Finset.card, Fin.univ_def, Function.comp_def]

end Ring

namespace Polygon

/-- The edge of a polygon that goes on from a corner. -/
abbrev side (polygon : Polygon) : Fin polygon.points.length → Ring.Edge := Ring.side polygon.points

/-- How a polygon tells which positions it holds. -/
structure ByEdges (polygon : Polygon) : Prop where
  /-- A position is held on an edge, by its turn and by the box of the edge, or where the edges that
  pass its latitude farther east are odd in number. -/
  holds : ∀ p, polygon.contains p ↔
    (∃ i, Ring.turn (polygon.side i).1 (polygon.side i).2 p = .straight ∧
      Ring.withinBounds (polygon.side i).1 (polygon.side i).2 p) ∨
    Odd (Finset.univ.filter fun i => Ring.passes (polygon.side i) p ∧
      p.longitude < Ring.passage (polygon.side i) p).card
  /-- Begun at another corner, the polygon holds the same positions. -/
  turned : ∀ k, ∃ other, make (polygon.points.rotate k) = .ok other ∧
    ∀ p, other.contains p = polygon.contains p

theorem contains_byEdges (polygon : Polygon) : polygon.ByEdges where
  holds p := by
    rw [contains, Ring.contains_iff, Ring.odd_iff_countP]
    have same := Ring.edges_perm_sides polygon.points
    rw [same.countP_eq, Ring.countP_sides]
    simp only [same.mem_iff, List.mem_ofFn]
    simp [Ring.touches, Ring.crossesEast_eq]
  turned k := by
    have enough : 3 ≤ (polygon.points.rotate k).length := by
      rw [List.length_rotate]
      exact polygon.enough
    refine ⟨⟨polygon.points.rotate k, enough⟩, dif_pos enough, fun p => ?_⟩
    exact Ring.contains_congr (Ring.edges_rotate_perm polygon.points k) p

end Polygon
end VesselRelay
