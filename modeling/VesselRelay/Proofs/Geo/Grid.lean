import VesselRelay.Proofs.Binary64.Arithmetic
import VesselRelay.Proofs.Geo.Containment
import VesselRelay.Proofs.Geo.Plane

/-!
Positions on a grid of `2 ^ (-18)` degrees, which is less than half a metre. Differences of their
coordinates and products of two differences have 53 bits at most and are not rounded, so that turns
are told exactly, and a quotient is rounded too little to pass the next position: whether an edge is
met on the way east is told exactly too.
-/
namespace VesselRelay

namespace Binary64

variable {x y z : Float} {a b c : ℚ} {m n e f : ℤ}

/-! ### Between two doubles -/

theorem number?_least (left : number? x = some a) (right : number? y = some b) :
    number? (least x y) = some (min a b) := by
  unfold least
  split
  · rename_i less
    rw [right, min_eq_right ((lt_iff_of_number? right left).mp less).le]
  · rename_i notLess
    rw [left, min_eq_left (not_lt.mp (mt (lt_iff_of_number? right left).mpr notLess))]

theorem number?_greatest (left : number? x = some a) (right : number? y = some b) :
    number? (greatest x y) = some (max a b) := by
  unfold greatest
  split
  · rename_i less
    rw [right, max_eq_right ((lt_iff_of_number? left right).mp less).le]
  · rename_i notLess
    rw [left, max_eq_left (not_lt.mp (mt (lt_iff_of_number? left right).mpr notLess))]

theorem Beside.mem_uIcc (beside : Beside x a) (low : number? y = some b)
    (high : number? z = some c) (inside : a ∈ Set.uIcc b c) :
    ∃ d, number? x = some d ∧ d ∈ Set.uIcc b c := by
  obtain ⟨above, below⟩ := Set.mem_Icc.mp inside
  exact beside.between (number?_least low high) (number?_greatest low high) above below

/-! ### Steps -/

/-- Whether a double is a number of steps of a power of two. -/
def Steps (x : Float) (n e : ℤ) : Prop := number? x = some ((n : ℚ) * 2 ^ e)

/-- Steps that 53 bits can count are not rounded. -/
theorem Beside.steps (beside : Beside x ((n : ℚ) * 2 ^ e)) (short : n.natAbs < 2 ^ 53)
    (least : -1074 ≤ e) (greatest : e ≤ 971) : Steps x n e := by
  obtain ⟨y, exact⟩ := exists_number short least greatest
  exact beside.exact exact

theorem Steps.sub (left : Steps x m e) (right : Steps y n e) (short : (m - n).natAbs < 2 ^ 53)
    (least : -1074 ≤ e) (greatest : e ≤ 971) : Steps (x - y) (m - n) e := by
  refine Beside.steps ?_ short least greatest
  rw [Int.cast_sub, sub_mul]
  exact beside_sub left right

theorem Steps.mul (left : Steps x m e) (right : Steps y n f) (short : (m * n).natAbs < 2 ^ 53)
    (least : -1074 ≤ e + f) (greatest : e + f ≤ 971) : Steps (x * y) (m * n) (e + f) := by
  refine Beside.steps ?_ short least greatest
  rw [Int.cast_mul, zpow_add₀ (by norm_num), mul_mul_mul_comm]
  exact beside_mul left right

theorem Steps.lt_iff (left : Steps x m e) (right : Steps y n e) : x < y ↔ m < n := by
  rw [lt_iff_of_number? left right, mul_lt_mul_iff_left₀ (zpow_pos (by norm_num) e), Int.cast_lt]

theorem Steps.le_iff (left : Steps x m e) (right : Steps y n e) : x ≤ y ↔ m ≤ n := by
  rw [le_iff_of_number? left right, mul_le_mul_iff_left₀ (zpow_pos (by norm_num) e), Int.cast_le]

theorem Steps.least (left : Steps x m e) (right : Steps y n e) :
    Steps (least x y) (min m n) e := by
  rw [Steps, number?_least left right, Int.cast_min,
    min_mul_of_nonneg _ _ (zpow_nonneg (by norm_num) e)]

theorem Steps.greatest (left : Steps x m e) (right : Steps y n e) :
    Steps (greatest x y) (max m n) e := by
  rw [Steps, number?_greatest left right, Int.cast_max,
    max_mul_of_nonneg _ _ (zpow_nonneg (by norm_num) e)]

/-- Whether a double is a whole number of steps of `2 ^ (-18)`. -/
def onGrid (x : Float) : Bool :=
  (parts? x).any fun p => decide (2 ^ (-18 - p.exponent).toNat ∣ p.significand)

theorem exists_steps (on : onGrid x) : ∃ n, Steps x n (-18) := by
  obtain ⟨p, finite, divides⟩ := (Option.any_eq_true _ _).mp on
  obtain ⟨k, whole⟩ := of_decide_eq_true divides
  have magnitude : ∃ n : ℤ, p.value = n * 2 ^ (-18 : ℤ) := by
    refine ⟨k * 2 ^ (p.exponent + 18).toNat, ?_⟩
    have shift : (2 : ℚ) ^ (-18 - p.exponent).toNat * 2 ^ p.exponent =
        2 ^ (p.exponent + 18).toNat * 2 ^ (-18 : ℤ) := by
      rw [← zpow_natCast, ← zpow_natCast, ← zpow_add₀ (by norm_num), ← zpow_add₀ (by norm_num)]
      congr 1
      omega
    rw [Parts.value, whole]
    push_cast
    linear_combination (k : ℚ) * shift
  obtain ⟨n, same⟩ := magnitude
  cases sign : negative x with
  | true => exact ⟨-n, by rw [Steps, number?_of_parts? finite, sign, same]; simp⟩
  | false => exact ⟨n, by rw [Steps, number?_of_parts? finite, sign, same]; simp⟩

end Binary64

section
open Binary64 (number? number?_of_between)

theorem number?_quarterTurn : number? 90.0 = some 90 := by decide +kernel

theorem number?_halfTurn : number? 180.0 = some 180 := by decide +kernel

theorem ValidLatitude.exists_number {x : Float} (valid : ValidLatitude x) :
    ∃ a, number? x = some a ∧ -90 ≤ a ∧ a ≤ 90 := by
  exact number?_of_between (Binary64.number?_neg number?_quarterTurn) number?_quarterTurn
    valid.1 valid.2

theorem ValidLongitude.exists_number {x : Float} (valid : ValidLongitude x) :
    ∃ a, number? x = some a ∧ -180 ≤ a ∧ a ≤ 180 := by
  exact number?_of_between (Binary64.number?_neg number?_halfTurn) number?_halfTurn valid.1 valid.2

/-- The difference of two coordinates is finite. -/
theorem isSome_sub_of_small {least bound : Float} {l b : ℚ} (left : number? least = some l)
    (right : number? bound = some b) (low : -1000 ≤ b - l) (high : b - l ≤ 1000) :
    (number? (bound - least)).isSome := by
  have thousand : number? 1000.0 = some 1000 := by decide +kernel
  obtain ⟨c, exact, _⟩ := (Binary64.beside_sub right left).between
    (Binary64.number?_neg thousand) thousand low high
  exact Option.isSome_of_eq_some exact

theorem validLatitude_iff {x : Float} {a : ℚ} (exact : number? x = some a) :
    ValidLatitude x ↔ -90 ≤ a ∧ a ≤ 90 :=
  and_congr (Binary64.le_iff_of_number? (Binary64.number?_neg number?_quarterTurn) exact)
    (Binary64.le_iff_of_number? exact number?_quarterTurn)

theorem validLongitude_iff {x : Float} {a : ℚ} (exact : number? x = some a) :
    ValidLongitude x ↔ -180 ≤ a ∧ a ≤ 180 :=
  and_congr (Binary64.le_iff_of_number? (Binary64.number?_neg number?_halfTurn) exact)
    (Binary64.le_iff_of_number? exact number?_halfTurn)

end

namespace Position
open Binary64 (number? Steps)

/-- Whether both coordinates are whole numbers of steps. -/
def onGrid (p : Position) : Bool := Binary64.onGrid p.longitude && Binary64.onGrid p.latitude

theorem number?_latitude (p : Position) : ∃ a, number? p.latitude = some a ∧ -90 ≤ a ∧ a ≤ 90 :=
  p.validLatitude.exists_number

theorem number?_longitude (p : Position) :
    ∃ a, number? p.longitude = some a ∧ -180 ≤ a ∧ a ≤ 180 :=
  p.validLongitude.exists_number

/-- A position on the grid, in steps to the east and to the north. -/
structure At (p : Position) (v : ℤ × ℤ) : Prop where
  longitude : Steps p.longitude v.1 (-18)
  latitude : Steps p.latitude v.2 (-18)
  east : v.1.natAbs ≤ 180 * 2 ^ 18
  north : v.2.natAbs ≤ 90 * 2 ^ 18

theorem natAbs_steps_le {n : ℤ} {bound : ℕ} (low : -(bound : ℚ) ≤ n * 2 ^ (-18 : ℤ))
    (high : (n : ℚ) * 2 ^ (-18 : ℤ) ≤ bound) : n.natAbs ≤ bound * 2 ^ 18 := by
  have unit : (2 : ℚ) ^ (-18 : ℤ) * 2 ^ 18 = 1 := by norm_num
  have low' : -((bound * 2 ^ 18 : ℕ) : ℚ) ≤ n := by push_cast; nlinarith
  have high' : (n : ℚ) ≤ (bound * 2 ^ 18 : ℕ) := by push_cast; nlinarith
  have below : -((bound * 2 ^ 18 : ℕ) : ℤ) ≤ n := by exact_mod_cast low'
  have above : n ≤ ((bound * 2 ^ 18 : ℕ) : ℤ) := by exact_mod_cast high'
  omega

theorem exists_at {p : Position} (on : p.onGrid) : ∃ v, p.At v := by
  obtain ⟨onLongitude, onLatitude⟩ := Bool.and_eq_true_iff.mp on
  obtain ⟨m, longitude⟩ := Binary64.exists_steps onLongitude
  obtain ⟨n, latitude⟩ := Binary64.exists_steps onLatitude
  obtain ⟨a, exact, west, east⟩ := p.number?_longitude
  obtain ⟨b, exact', south, north⟩ := p.number?_latitude
  cases Option.some.inj (exact.symm.trans longitude)
  cases Option.some.inj (exact'.symm.trans latitude)
  exact ⟨(m, n), longitude, latitude,
    natAbs_steps_le (by exact_mod_cast west) (by exact_mod_cast east),
    natAbs_steps_le (by exact_mod_cast south) (by exact_mod_cast north)⟩

end Position

/-! ### Turns -/

/-- Products are counted in squares of steps. -/
theorem square_step {K : Type} [DivisionRing K] [CharZero K] :
    (2 : K) ^ (-36 : ℤ) = 2 ^ (-18 : ℤ) * 2 ^ (-18 : ℤ) := by
  rw [← zpow_add₀ two_ne_zero]
  norm_num

namespace Ring
open Binary64 (Steps)

variable {a b c p q : Position} {u v w z : ℤ × ℤ}

/-- A product of a difference of longitudes and one of latitudes is exact. -/
theorem steps_product {i j k l : ℤ} {x y s t : Float} (hx : Steps x i (-18)) (hy : Steps y j (-18))
    (hs : Steps s k (-18)) (ht : Steps t l (-18)) (east : i.natAbs ≤ 180 * 2 ^ 18)
    (east' : j.natAbs ≤ 180 * 2 ^ 18) (north : k.natAbs ≤ 90 * 2 ^ 18)
    (north' : l.natAbs ≤ 90 * 2 ^ 18) :
    Steps ((x - y) * (s - t)) ((i - j) * (k - l)) (-36) ∧
      ((i - j) * (k - l)).natAbs ≤ 64800 * 2 ^ 36 := by
  have size : ((i - j) * (k - l)).natAbs ≤ 64800 * 2 ^ 36 := by
    rw [Int.natAbs_mul]
    calc (i - j).natAbs * (k - l).natAbs ≤ (360 * 2 ^ 18) * (180 * 2 ^ 18) :=
          Nat.mul_le_mul (by omega) (by omega)
      _ = 64800 * 2 ^ 36 := by norm_num
  refine ⟨?_, size⟩
  exact (hx.sub hy (by omega) (by norm_num) (by norm_num)).mul
    (hs.sub ht (by omega) (by norm_num) (by norm_num)) (by omega) (by norm_num) (by norm_num)

theorem turn_eq (atA : a.At u) (atB : b.At v) (atC : c.At w) :
    turn a b c = if 0 < cross u v w then .left else if cross u v w < 0 then .right
      else .straight := by
  have origin : Steps 0.0 0 (-36) := by
    rw [Steps, Binary64.number?_nothing, Int.cast_zero, zero_mul]
  obtain ⟨ahead, size⟩ := steps_product atB.longitude atA.longitude atC.latitude atA.latitude
    atB.east atA.east atC.north atA.north
  obtain ⟨aside, size'⟩ := steps_product atC.longitude atA.longitude atB.latitude atA.latitude
    atC.east atA.east atB.north atA.north
  rw [Binary64.mul_comm, Int.mul_comm] at aside
  rw [Int.mul_comm] at size'
  have exact : Steps ((b.longitude - a.longitude) * (c.latitude - a.latitude)
      - (b.latitude - a.latitude) * (c.longitude - a.longitude)) (cross u v w) (-36) :=
    ahead.sub aside (by omega) (by norm_num) (by norm_num)
  simp only [turn, origin.lt_iff exact, exact.lt_iff origin]

/-- A position is in the box of a segment as its steps are. -/
theorem withinBounds_iff (atA : a.At u) (atB : b.At v) (atP : p.At w) :
    withinBounds a b p ↔ (min u.1 v.1 ≤ w.1 ∧ w.1 ≤ max u.1 v.1) ∧
      min u.2 v.2 ≤ w.2 ∧ w.2 ≤ max u.2 v.2 := by
  simp only [withinBounds, Bool.and_eq_true, decide_eq_true_eq, and_assoc,
    (atA.longitude.least atB.longitude).le_iff atP.longitude,
    atP.longitude.le_iff (atA.longitude.greatest atB.longitude),
    (atA.latitude.least atB.latitude).le_iff atP.latitude,
    atP.latitude.le_iff (atA.latitude.greatest atB.latitude)]

theorem touches_iff_cross (atA : a.At u) (atB : b.At v) (atP : p.At w) :
    touches (a, b) p ↔ cross u v w = 0 ∧ (min u.1 v.1 ≤ w.1 ∧ w.1 ≤ max u.1 v.1) ∧
      min u.2 v.2 ≤ w.2 ∧ w.2 ≤ max u.2 v.2 := by
  rw [touches, Bool.and_eq_true, beq_iff_eq, withinBounds_iff atA atB atP, turn_eq atA atB atP]
  refine and_congr_left fun _ => ?_
  rcases lt_trichotomy (cross u v w) 0 with right | zero | left
  · simp [right, right.not_gt, right.ne]
  · simp [zero]
  · simp [left, left.ne']

/-! ### Passages -/

theorem passes_iff : passes (a, b) p ↔
    (b.latitude ≤ p.latitude ∧ p.latitude < a.latitude) ∨
      (a.latitude ≤ p.latitude ∧ p.latitude < b.latitude) := by
  have self (q : Position) := Binary64.le_refl_of_le_right q.validLatitude.1
  have fromA := Binary64.not_lt_iff (self p) (self a)
  have fromB := Binary64.not_lt_iff (self p) (self b)
  simp only [passes, bne_iff_ne, ne_eq, decide_eq_decide, ← fromA, ← fromB]
  tauto

/-- The way in longitude from the second end of an edge to its passage, as it is reckoned. -/
def way (e : Edge) (p : Position) : Float :=
  (p.latitude - e.2.latitude) * (e.1.longitude - e.2.longitude) / (e.1.latitude - e.2.latitude)

/-- Rounded step by step, the way is never longer than the edge: every step is kept between nothing
and the whole, which is not rounded. -/
theorem way_mem (atA : a.At u) (atB : b.At v) (pass : passes (a, b) p) :
    ∃ x, Binary64.number? (way (a, b) p) = some x ∧
      x ∈ Set.uIcc 0 (((u.1 - v.1 : ℤ) : ℚ) * 2 ^ (-18 : ℤ)) := by
  obtain ⟨h, exact, _⟩ := p.number?_latitude
  have nothing := Binary64.number?_nothing
  have rise := atA.latitude.sub atB.latitude (by have := atA.north; have := atB.north; omega)
    (by norm_num) (by norm_num)
  have run := atA.longitude.sub atB.longitude (by have := atA.east; have := atB.east; omega)
    (by norm_num) (by norm_num)
  obtain ⟨whole, _⟩ := steps_product atA.longitude atB.longitude atA.latitude atB.latitude
    atA.east atB.east atA.north atB.north
  rw [Steps, Int.cast_mul, square_step, mul_mul_mul_comm] at whole
  have inside : h - v.2 * 2 ^ (-18 : ℤ) ∈ Set.uIcc 0 (((u.2 - v.2 : ℤ) : ℚ) * 2 ^ (-18 : ℤ)) ∧
      ((u.2 - v.2 : ℤ) : ℚ) * 2 ^ (-18 : ℤ) ≠ 0 := by
    rw [Int.cast_sub, sub_mul]
    rcases passes_iff.mp pass with ⟨low, high⟩ | ⟨low, high⟩
    · rw [Binary64.le_iff_of_number? atB.latitude exact] at low
      rw [Binary64.lt_iff_of_number? exact atA.latitude] at high
      exact ⟨Set.mem_uIcc_of_le (by linarith) (by linarith), by linarith⟩
    · rw [Binary64.le_iff_of_number? atA.latitude exact] at low
      rw [Binary64.lt_iff_of_number? exact atB.latitude] at high
      exact ⟨Set.mem_uIcc_of_ge (by linarith) (by linarith), by linarith⟩
  obtain ⟨part, partExact, partInside⟩ :=
    (Binary64.beside_sub exact atB.latitude).mem_uIcc nothing rise inside.1
  have partOfArea := Set.mem_image_of_mem (· * (((u.1 - v.1 : ℤ) : ℚ) * 2 ^ (-18 : ℤ))) partInside
  rw [Set.image_mul_const_uIcc, zero_mul, mul_comm (((u.2 - v.2 : ℤ) : ℚ) * _)] at partOfArea
  obtain ⟨area, areaExact, areaInside⟩ :=
    (Binary64.beside_mul partExact run).mem_uIcc nothing whole partOfArea
  have partOfWay := Set.mem_image_of_mem (· / (((u.2 - v.2 : ℤ) : ℚ) * 2 ^ (-18 : ℤ))) areaInside
  rw [Set.image_div_const_uIcc, zero_div, mul_div_cancel_right₀ _ inside.2] at partOfWay
  exact (Binary64.beside_div areaExact rise inside.2).mem_uIcc nothing run partOfWay

theorem passage_mem (atA : a.At u) (atB : b.At v) (pass : passes (a, b) p) :
    ∃ x, Binary64.number? (passage (a, b) p) = some x ∧
      x ∈ Set.uIcc ((v.1 : ℚ) * 2 ^ (-18 : ℤ)) (u.1 * 2 ^ (-18 : ℤ)) := by
  obtain ⟨x, exact, inside⟩ := way_mem atA atB pass
  have reached := Set.mem_image_of_mem ((v.1 : ℚ) * 2 ^ (-18 : ℤ) + ·) inside
  rw [Set.image_const_add_uIcc, add_zero, Int.cast_sub, sub_mul, add_sub_cancel] at reached
  exact (Binary64.beside_add atB.longitude exact).mem_uIcc atB.longitude atA.longitude reached

/-- An edge with both ends on the grid strays nowhere. -/
theorem not_strays (onA : a.onGrid) (onB : b.onGrid) (p : Position) : ¬ Strays (a, b) p := by
  rintro ⟨pass, beyond⟩
  obtain ⟨u, atA⟩ := Position.exists_at onA
  obtain ⟨v, atB⟩ := Position.exists_at onB
  obtain ⟨x, exact, inside⟩ := passage_mem atA atB pass
  rw [Set.uIcc_comm] at inside
  obtain ⟨low, high⟩ := Set.mem_Icc.mp inside
  refine beyond ⟨?_, ?_⟩
  · exact (Binary64.le_iff_of_number?
      (Binary64.number?_least atA.longitude atB.longitude) exact).mpr low
  · exact (Binary64.le_iff_of_number? exact
      (Binary64.number?_greatest atA.longitude atB.longitude)).mpr high

theorem passes_iff_steps (atA : a.At u) (atB : b.At v) (atP : p.At w) :
    passes (a, b) p ↔ (v.2 ≤ w.2 ∧ w.2 < u.2) ∨ (u.2 ≤ w.2 ∧ w.2 < v.2) := by
  rw [passes_iff, atB.latitude.le_iff atP.latitude, atP.latitude.lt_iff atA.latitude,
    atA.latitude.le_iff atP.latitude, atP.latitude.lt_iff atB.latitude]

/-- A quotient by the rise of an edge that is above a whole number is so by a 26th part of a step
and more. -/
theorem far_above {k rise m : ℤ} (nonzero : rise ≠ 0) (small : rise.natAbs ≤ 180 * 2 ^ 18)
    (above : (m : ℚ) < k / rise) : (m : ℚ) + 2 ^ (-26 : ℤ) ≤ k / rise := by
  rcases Int.lt_or_gt_of_ne nonzero with negative | positive
  · have below : (rise : ℚ) < 0 := by exact_mod_cast negative
    have bounded : -(2 : ℚ) ^ 26 ≤ rise := by
      exact_mod_cast (by omega : -(2 : ℤ) ^ 26 ≤ rise)
    rw [lt_div_iff_of_neg below] at above
    have next : (k : ℚ) + 1 ≤ m * rise := by exact_mod_cast (by exact_mod_cast above : k < m * rise)
    rw [le_div_iff_of_neg below]
    norm_num at bounded ⊢
    linarith
  · have upper : (0 : ℚ) < rise := by exact_mod_cast positive
    have bounded : (rise : ℚ) ≤ 2 ^ 26 := by exact_mod_cast (by omega : rise ≤ (2 : ℤ) ^ 26)
    rw [lt_div_iff₀ upper] at above
    have next : (m : ℚ) * rise + 1 ≤ k := by exact_mod_cast (by exact_mod_cast above : m * rise < k)
    rw [le_div_iff₀ upper]
    norm_num at bounded ⊢
    linarith

/-- From the grid the way is rounded too little to reach the next step, and so is the passage. -/
theorem east_iff (atA : a.At u) (atB : b.At v) (atP : p.At w) (pass : passes (a, b) p) :
    p.longitude < passage (a, b) p ↔
      ((w.1 - v.1 : ℤ) : ℚ) < ((u.1 - v.1) * (w.2 - v.2) : ℤ) / (u.2 - v.2 : ℤ) := by
  obtain ⟨x, exact, _⟩ := way_mem atA atB pass
  have nonzero : u.2 - v.2 ≠ 0 := by
    have := (passes_iff_steps atA atB atP).mp pass
    omega
  have small : (u.2 - v.2).natAbs ≤ 180 * 2 ^ 18 := by
    have := atA.north
    have := atB.north
    omega
  have rise := atA.latitude.sub atB.latitude (by omega) (by norm_num) (by norm_num)
  have aside := atP.longitude.sub atB.longitude
    (by have := atP.east; have := atB.east; omega) (by norm_num) (by norm_num)
  obtain ⟨area, _⟩ := steps_product atA.longitude atB.longitude atP.latitude atB.latitude
    atA.east atB.east atP.north atB.north
  have unit : (0 : ℚ) < 2 ^ (-18 : ℤ) := by norm_num
  have besideWay : Binary64.Beside (way (a, b) p)
      (((u.1 - v.1) * (w.2 - v.2) : ℤ) / (u.2 - v.2 : ℤ) * 2 ^ (-18 : ℤ)) := by
    rw [Binary64.mul_comm] at area
    have divided := Binary64.beside_div area rise
      (mul_ne_zero (Int.cast_ne_zero.mpr nonzero) unit.ne')
    rw [square_step, ← mul_assoc, mul_div_mul_right _ _ unit.ne', mul_div_right_comm] at divided
    exact divided
  have besidePassage := Binary64.beside_add atB.longitude exact
  have further := far_above (k := (u.1 - v.1) * (w.2 - v.2)) (m := w.1 - v.1) nonzero small
  generalize ((u.1 - v.1) * (w.2 - v.2) : ℤ) / ((u.2 - v.2 : ℤ) : ℚ) = ratio at *
  constructor
  · intro east
    by_contra short
    have reached := besideWay.above aside (mul_le_mul_of_nonneg_right (not_lt.mp short) unit.le)
    rw [Binary64.le_iff_of_number? exact aside, Int.cast_sub, sub_mul] at reached
    exact Binary64.not_lt_of_le (besidePassage.above atP.longitude (by linarith)) east
  · intro far
    replace further := further far
    obtain ⟨g, exactG⟩ := Binary64.exists_number (n := (w.1 - v.1) * 2 ^ 26 + 1) (e := -44)
      (by have := atP.east; have := atB.east; omega) (by norm_num) (by norm_num)
    obtain ⟨h, exactH⟩ := Binary64.exists_number (n := w.1 * 2 ^ 26 + 1) (e := -44)
      (by have := atP.east; omega) (by norm_num) (by norm_num)
    have reached := besideWay.below exactG (by push_cast at further ⊢; norm_num at *; linarith)
    rw [Binary64.le_iff_of_number? exactG exact] at reached
    have beyond := besidePassage.below exactH (by push_cast at reached ⊢; norm_num at *; linarith)
    have next := (Binary64.lt_iff_of_number? atP.longitude exactH).mpr (by
      push_cast
      norm_num
      linarith)
    exact Binary64.lt_of_lt_of_le next beyond

/-- Whether an edge is met on the way east is told exactly. -/
theorem crossesEast_iff (atA : a.At u) (atB : b.At v) (atP : p.At w) :
    crossesEast (a, b) p ↔ Met u v w := by
  have pass := passes_iff_steps atA atB atP
  have turned : cross u v w = (w.1 - v.1) * (u.2 - v.2) - (u.1 - v.1) * (w.2 - v.2) := by
    unfold cross
    ring
  rw [crossesEast_eq, Bool.and_eq_true, decide_eq_true_eq, Met, turned]
  constructor
  · rintro ⟨passing, east⟩
    rw [east_iff atA atB atP passing] at east
    rcases pass.mp passing with ⟨low, high⟩ | ⟨low, high⟩
    · have rise : (0 : ℚ) < (u.2 - v.2 : ℤ) := by exact_mod_cast (by omega : 0 < u.2 - v.2)
      rw [lt_div_iff₀ rise] at east
      exact .inr ⟨low, high, sub_neg.mpr (by exact_mod_cast east)⟩
    · have fall : ((u.2 - v.2 : ℤ) : ℚ) < 0 := by exact_mod_cast (by omega : u.2 - v.2 < 0)
      rw [lt_div_iff_of_neg fall] at east
      exact .inl ⟨low, high, sub_pos.mpr (by exact_mod_cast east)⟩
  · rintro (⟨low, high, left⟩ | ⟨low, high, right⟩)
    · have passing := pass.mpr (.inr ⟨low, high⟩)
      have fall : ((u.2 - v.2 : ℤ) : ℚ) < 0 := by exact_mod_cast (by omega : u.2 - v.2 < 0)
      refine ⟨passing, (east_iff atA atB atP passing).mpr ?_⟩
      rw [lt_div_iff_of_neg fall]
      exact_mod_cast sub_pos.mp left
    · have passing := pass.mpr (.inl ⟨low, high⟩)
      have rise : (0 : ℚ) < (u.2 - v.2 : ℤ) := by exact_mod_cast (by omega : 0 < u.2 - v.2)
      refine ⟨passing, (east_iff atA atB atP passing).mpr ?_⟩
      rw [lt_div_iff₀ rise]
      exact_mod_cast sub_neg.mp right

end Ring

end VesselRelay
