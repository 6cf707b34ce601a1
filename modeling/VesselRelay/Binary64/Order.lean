/-!
Comparison of doubles, and the least, greatest and clamped of them. Doubles that compare with
themselves are in one line, infinities and the two equal zeros included; not-a-number compares with
nothing. The selections are decided by `<` alone, so an operand that compares with nothing stays
where it stands first.
-/
namespace VesselRelay.Binary64

def least (a b : Float) : Float := if b < a then b else a

def greatest (a b : Float) : Float := if a < b then b else a

def clamp (x low high : Float) : Float :=
  if x < low then low else if high < x then high else x

open Float.Model (UnpackedFloat)

/-- The place of a double in line: its class first, then exponent and significand, turned round
below zero. -/
def rank : UnpackedFloat → Option (Int × Int × Int)
  | .notANumber => none
  | .infinity .negative => some (-2, 0, 0)
  | .finite .negative m e _ => some (-1, -e, -m)
  | .zero _ => some (0, 0, 0)
  | .finite .positive m e _ => some (1, e, m)
  | .infinity .positive => some (2, 0, 0)

/-- Places in line, compared by class, exponent and significand in turn. -/
def RankLt (a b : Int × Int × Int) : Prop :=
  a.1 < b.1 ∨ a.1 = b.1 ∧ (a.2.1 < b.2.1 ∨ a.2.1 = b.2.1 ∧ a.2.2 < b.2.2)

theorem then_eq_lt {e f : Int} {m n : Nat} :
    (compare e f).then (compare m n) = .lt ↔ e < f ∨ e = f ∧ m < n := by
  rw [Ordering.then_eq_lt, Int.compare_eq_lt, Int.compare_eq_eq, Nat.compare_eq_lt]

theorem then_eq_gt {e f : Int} {m n : Nat} :
    (compare e f).then (compare m n) = .gt ↔ f < e ∨ e = f ∧ n < m := by
  rw [Ordering.then_eq_gt, Int.compare_eq_gt, Int.compare_eq_eq, Nat.compare_eq_gt]

theorem compare_eq_lt (u v : UnpackedFloat) :
    u.compare v = some .lt ↔ ∃ a b, rank u = some a ∧ rank v = some b ∧ RankLt a b := by
  rcases u with (_ | _) | _ | _ | ⟨_ | _, m, e, _⟩ <;>
    rcases v with (_ | _) | _ | _ | ⟨_ | _, n, f, _⟩ <;>
    dsimp only [UnpackedFloat.compare, rank] <;>
    simp [RankLt, then_eq_lt, then_eq_gt] <;> decide

theorem then_isLE {e f : Int} {m n : Nat} :
    ((compare e f).then (compare m n)).isLE = true ↔ e ≤ f ∧ (f = e → m ≤ n) := by
  rw [Ordering.isLE_iff_ne_gt, then_eq_gt]
  omega

theorem then_isGE {e f : Int} {m n : Nat} :
    ((compare e f).then (compare m n)).isGE = true ↔ f ≤ e ∧ (f = e → n ≤ m) := by
  rw [Ordering.isGE_iff_ne_lt, then_eq_lt]
  omega

theorem compare_isLE (u v : UnpackedFloat) :
    (u.compare v).any (·.isLE) = true ↔
      ∃ a b, rank u = some a ∧ rank v = some b ∧ ¬ RankLt b a := by
  rcases u with (_ | _) | _ | _ | ⟨_ | _, m, e, _⟩ <;>
    rcases v with (_ | _) | _ | _ | ⟨_ | _, n, f, _⟩ <;>
    dsimp only [UnpackedFloat.compare, rank] <;>
    simp [RankLt, then_isLE, then_isGE] <;> decide

/-- The place of a double; not-a-number has none. -/
def place (x : Float) : Option (Int × Int × Int) := rank x.toModel.unpack

theorem lt_iff {x y : Float} : x < y ↔ ∃ a b, place x = some a ∧ place y = some b ∧ RankLt a b := by
  have model : x < y ↔ x.toModel.unpack.lt y.toModel.unpack = true := by
    change (decide (_ = true) = true) ↔ _
    rw [decide_eq_true_eq]
    rfl
  rw [model, UnpackedFloat.lt, beq_iff_eq, compare_eq_lt]
  rfl

theorem le_iff {x y : Float} :
    x ≤ y ↔ ∃ a b, place x = some a ∧ place y = some b ∧ ¬ RankLt b a := by
  have model : x ≤ y ↔ x.toModel.unpack.le y.toModel.unpack = true := by
    change (decide (_ = true) = true) ↔ _
    rw [decide_eq_true_eq]
    rfl
  rw [model, UnpackedFloat.le, compare_isLE]
  rfl

theorem le_trans {x y z : Float} (xy : x ≤ y) (yz : y ≤ z) : x ≤ z := by
  rw [le_iff] at *
  obtain ⟨a, b, ha, hb, ab⟩ := xy
  obtain ⟨b', c, hb', hc, bc⟩ := yz
  obtain rfl : b = b' := by simpa [hb] using hb'
  refine ⟨a, c, ha, hc, ?_⟩
  unfold RankLt at *
  omega

theorem lt_of_lt_of_le {x y z : Float} (xy : x < y) (yz : y ≤ z) : x < z := by
  rw [lt_iff] at *
  rw [le_iff] at yz
  obtain ⟨a, b, ha, hb, ab⟩ := xy
  obtain ⟨b', c, hb', hc, bc⟩ := yz
  obtain rfl : b = b' := by simpa [hb] using hb'
  refine ⟨a, c, ha, hc, ?_⟩
  unfold RankLt at *
  omega

theorem lt_of_le_of_lt {x y z : Float} (xy : x ≤ y) (yz : y < z) : x < z := by
  rw [lt_iff] at *
  rw [le_iff] at xy
  obtain ⟨a, b, ha, hb, ab⟩ := xy
  obtain ⟨b', c, hb', hc, bc⟩ := yz
  obtain rfl : b = b' := by simpa [hb] using hb'
  refine ⟨a, c, ha, hc, ?_⟩
  unfold RankLt at *
  omega

theorem le_of_lt {x y : Float} (xy : x < y) : x ≤ y := by
  rw [lt_iff] at xy
  rw [le_iff]
  obtain ⟨a, b, ha, hb, ab⟩ := xy
  refine ⟨a, b, ha, hb, ?_⟩
  unfold RankLt at *
  omega

/-- A double that compares with anything compares with itself. -/
theorem le_refl_of_le_left {x y : Float} (xy : x ≤ y) : x ≤ x := by
  rw [le_iff] at *
  obtain ⟨a, b, ha, _, _⟩ := xy
  refine ⟨a, a, ha, ha, ?_⟩
  unfold RankLt
  omega

theorem le_refl_of_le_right {x y : Float} (xy : x ≤ y) : y ≤ y := by
  rw [le_iff] at *
  obtain ⟨a, b, _, hb, _⟩ := xy
  refine ⟨b, b, hb, hb, ?_⟩
  unfold RankLt
  omega

theorem not_lt_of_le {x y : Float} (xy : x ≤ y) : ¬ y < x := by
  rw [le_iff] at xy
  rw [lt_iff]
  obtain ⟨a, b, ha, hb, ab⟩ := xy
  rintro ⟨b', a', hb', ha', ba⟩
  obtain rfl : a = a' := by simpa [ha] using ha'
  obtain rfl : b = b' := by simpa [hb] using hb'
  exact ab ba

/-- Of two doubles that compare with themselves, one that is not below the other is at or above
it. -/
theorem le_of_not_lt {x y : Float} (hx : x ≤ x) (hy : y ≤ y) (not : ¬ y < x) : x ≤ y := by
  rw [le_iff] at hx hy ⊢
  rw [lt_iff] at not
  obtain ⟨a, _, ha, _, _⟩ := hx
  obtain ⟨b, _, hb, _, _⟩ := hy
  exact ⟨a, b, ha, hb, fun ba => not ⟨b, a, hb, ha, ba⟩⟩

theorem least_eq (a b : Float) : least a b = a ∨ least a b = b := by
  unfold least; split <;> simp

theorem greatest_eq (a b : Float) : greatest a b = a ∨ greatest a b = b := by
  unfold greatest; split <;> simp

theorem clamp_eq (x low high : Float) :
    clamp x low high = x ∨ clamp x low high = low ∨ clamp x low high = high := by
  unfold clamp
  split
  · simp
  · split <;> simp

theorem least_le_left {a b : Float} (ha : a ≤ a) : least a b ≤ a := by
  unfold least
  split
  · exact le_of_lt (by assumption)
  · exact ha

theorem least_le_right {a b : Float} (ha : a ≤ a) (hb : b ≤ b) : least a b ≤ b := by
  unfold least
  split
  · exact hb
  · exact le_of_not_lt ha hb (by assumption)

theorem left_le_greatest {a b : Float} (ha : a ≤ a) : a ≤ greatest a b := by
  unfold greatest
  split
  · exact le_of_lt (by assumption)
  · exact ha

theorem right_le_greatest {a b : Float} (ha : a ≤ a) (hb : b ≤ b) : b ≤ greatest a b := by
  unfold greatest
  split
  · exact hb
  · exact le_of_not_lt hb ha (by assumption)

end VesselRelay.Binary64
