import VesselRelay.Proofs.Binary64.Sum
import VesselRelay.Proofs.Binary64.Undefined
import VesselRelay.Proofs.Random.Cipher
import VesselRelay.Proofs.Random.Unit

/-!
Whether the end of a range of doubles is drawn. What is drawn grows with the fraction that it is
drawn from, so that the greatest fraction, one step below one, decides: if it leads to less than the
end every fraction does, and under every key there is a counter after which it is the first. The
product of it and the length of a range is less than the length above the least normal double and
equal to it up to there; and the sum with the lower end may be rounded up to the upper one. About
zero it is not, if the length is a double, since below the end there is no less room than below the
length.
-/
namespace VesselRelay.Generator

open Binary64 (number? number?_nothing)

variable {g : Generator} {least bound w x : Float} {l b c r s : ℚ}

/-! ### The greatest fraction -/

/-- The greatest of the uniform doubles, one step below one. -/
def greatest : Float := (2 ^ 53 - 1 : UInt64).toFloat * step

theorem number?_greatest : number? greatest = some (1 - 2 ^ (-53 : ℤ)) := by
  decide +kernel

theorem double_of_deals {words : List UInt32}
    (deals : Deals (0xffffffff :: 0xffffffff :: words) g) : (double g).1 = greatest := by
  obtain ⟨high, low, -⟩ := deals
  change ((((word g).1 >>> UInt32.ofNat 6).toUInt64 <<< 27) +
    ((word (word g).2).1 >>> UInt32.ofNat 5).toUInt64).toFloat * step = greatest
  rw [high, low]
  rfl

theorem exists_greatest : ∃ g, (double g).1 = greatest :=
  ⟨_, double_of_deals (deals_unread id .zero none [0xffffffff, 0xffffffff])⟩

/-- Under every key the greatest fraction is the first after some counter. -/
theorem exists_counter_greatest (key : Block) :
    ∃ counter, (double (.start (Aes.encrypt key) counter)).1 = greatest := by
  obtain ⟨counter, deals⟩ :=
    Aes.exists_counter_deals key 0xffffffff 0xffffffff 0xffffffff 0xffffffff
  exact ⟨counter, double_of_deals deals⟩

theorem double_le_greatest (g : Generator) : (double g).1 ≤ greatest := by
  obtain ⟨n, short, exact⟩ := double_spec g
  rw [Binary64.le_iff_of_number? exact number?_greatest]
  have most : (n : ℚ) + 1 ≤ 2 ^ 53 := by exact_mod_cast short
  calc (n * 2 ^ (-53 : ℤ) : ℚ) ≤ (2 ^ 53 - 1) * 2 ^ (-53 : ℤ) := by
        gcongr
        linarith
    _ = 1 - 2 ^ (-53 : ℤ) := by norm_num

/-! ### Parts of a length -/

theorem part_le (length : number? w = some c) (nonneg : 0 ≤ c)
    (part : number? ((double g).1 * w) = some r) (most : number? (greatest * w) = some s) :
    r ≤ s := by
  obtain ⟨u, unit, start, -⟩ := double_range g
  have product := Binary64.beside_mul unit length
  rcases (mul_nonneg start nonneg).eq_or_lt with nothing | positive
  · rw [← nothing] at product
    obtain rfl : 0 = r := Option.some.inj ((product.exact number?_nothing).symm.trans part)
    have greater := Binary64.beside_mul number?_greatest length
    exact (Binary64.le_iff_of_number? number?_nothing most).mp
      (greater.below number?_nothing (mul_nonneg (by norm_num) nonneg))
  · have above : 0 < u := pos_of_mul_pos_left positive nonneg
    have above' : 0 < c := pos_of_mul_pos_right positive start
    exact (Binary64.le_iff_of_number? part most).mp
      (Binary64.mul_le_mul_right unit number?_greatest length above (double_le_greatest g) above')

/-- What is drawn from a range grows with the fraction that it is drawn from. -/
theorem drawn_le_greatest (left : number? least = some l) (right : number? bound = some b)
    (order : l < b) (bounded : (number? (bound - least)).isSome) (g : Generator) :
    (double g).1 * (bound - least) + least ≤ greatest * (bound - least) + least := by
  obtain ⟨c, length⟩ := Option.isSome_iff_exists.mp bounded
  have nonneg : 0 ≤ c := (Binary64.le_iff_of_number? number?_nothing length).mp
    ((Binary64.beside_sub right left).below number?_nothing (sub_nonneg.mpr order.le))
  obtain ⟨r, part, above, below⟩ := drawn_part_le (g := g) left right order bounded
  obtain ⟨h, most⟩ := exists_greatest
  obtain ⟨s, part', above', below'⟩ := drawn_part_le (g := h) left right order bounded
  rw [most] at part'
  have inside {r : ℚ} (above : 0 ≤ r) (below : r ≤ b - l) : |r + l| < Binary64.limit := by
    have low := abs_lt.mp (Binary64.abs_lt_limit left)
    have high := abs_lt.mp (Binary64.abs_lt_limit right)
    exact abs_lt.mpr ⟨by linarith, by linarith⟩
  exact Binary64.add_le_add_right part part' left (part_le length nonneg part part')
    (inside above below) (inside above' below')

/-- A range about zero whose length is a double is left open: below its end there is no less room
than below its length. -/
theorem drawn_lt_of_length (left : number? least = some l) (right : number? bound = some b)
    (start : l ≤ 0) (positive : 0 < b) (length : number? (bound - least) = some (b - l))
    (normal : 2 ^ (-1022 : ℤ) < b - l) (g : Generator) :
    (double g).1 * (bound - least) + least < bound := by
  obtain ⟨n, short, fraction⟩ := double_spec g
  obtain ⟨r, part, less⟩ := Binary64.mul_lt_of_fraction fraction short length normal
  have sum := Binary64.beside_add part left
  have under {y : Float} {d : ℚ} (exact : number? y = some d) (within : r + l ≤ d) (below : d < b) :
      (double g).1 * (bound - least) + least < bound :=
    Binary64.lt_of_le_of_lt (sum.above exact within)
      ((Binary64.lt_iff_of_number? exact right).mpr below)
  rcases lt_or_ge r b with inside | beyond
  · exact under part (by linarith) inside
  · obtain ⟨y, d, exact, below, room⟩ :=
      Binary64.exists_below right positive part length beyond less
    exact under exact (by linarith) below

/-! ### Ends of ranges -/

/-- What becomes of the end of a range from zero on. -/
structure EndBelow (bound : Float) (b : ℚ) : Prop where
  /-- No draw is refused, and none is outside the range or its end. -/
  drawn : ∀ g, ∃ x v, ((doubleBelow bound) g).1 = .ok x ∧ number? x = some v ∧ 0 ≤ v ∧ v ≤ b
  /-- Above the least normal double none comes to the end. -/
  less : 2 ^ (-1022 : ℤ) < b → ∀ g x, ((doubleBelow bound) g).1 = .ok x → x < bound
  /-- Up to there one does, under every key. -/
  reached : b ≤ 2 ^ (-1022 : ℤ) → ∀ key, ∃ counter,
    ((doubleBelow bound) (.start (Aes.encrypt key) counter)).1 = .ok bound

/-- What becomes of the end of a range from one double to another. -/
structure EndBetween (least bound : Float) (l b : ℚ) : Prop where
  /-- No draw is refused. -/
  drawn : ∀ g, ∃ x, ((doubleBetween least bound) g).1 = .ok x
  /-- Where the length is finite no draw is outside the range or its end. -/
  within : (number? (bound - least)).isSome → ∀ g x, ((doubleBetween least bound) g).1 = .ok x →
    ∃ v, number? x = some v ∧ l ≤ v ∧ v ≤ b
  /-- None comes to the end if the greatest fraction does not, -/
  less : (number? (bound - least)).isSome → greatest * (bound - least) + least < bound →
    ∀ g x, ((doubleBetween least bound) g).1 = .ok x → x < bound
  /-- and under every key there is one drawn from that. -/
  reached : ∀ key, ∃ counter, ((doubleBetween least bound) (.start (Aes.encrypt key) counter)).1 =
    .ok (greatest * (bound - least) + least)
  /-- It does not about zero, where the length is a double above the least normal one. -/
  about : l ≤ 0 → 0 < b → number? (bound - least) = some (b - l) → 2 ^ (-1022 : ℤ) < b - l →
    ∀ g x, ((doubleBetween least bound) g).1 = .ok x → x < bound
  /-- Where the length overflows nothing finite is drawn. -/
  endless : number? (bound - least) = none → ∀ g x, ((doubleBetween least bound) g).1 = .ok x →
    number? x = none

theorem endBelow (exact : number? bound = some b) (positive : 0 < b) : EndBelow bound b where
  drawn g := by
    have above := (Binary64.lt_iff_of_number? number?_nothing exact).mpr positive
    have drawn := (doubleBelow_fst_eq_ok (g := g)).mpr ⟨above, rfl⟩
    obtain ⟨v, value, start, finish⟩ := doubleBelow_range exact drawn
    exact ⟨_, v, drawn, value, start, finish⟩
  less normal g x drawn := by
    obtain ⟨-, rfl⟩ := doubleBelow_fst_eq_ok.mp drawn
    obtain ⟨n, short, fraction⟩ := double_spec g
    obtain ⟨r, part, less⟩ := Binary64.mul_lt_of_fraction fraction short exact normal
    exact (Binary64.lt_iff_of_number? part exact).mpr less
  reached small key := by
    obtain ⟨counter, first⟩ := exists_counter_greatest key
    have above := (Binary64.lt_iff_of_number? number?_nothing exact).mpr positive
    refine ⟨counter, doubleBelow_fst_eq_ok.mpr ⟨above, ?_⟩⟩
    rw [first]
    exact Binary64.mul_eq_self_of_le number?_greatest exact positive small

theorem endBetween (left : number? least = some l) (right : number? bound = some b)
    (order : l < b) : EndBetween least bound l b where
  drawn g := by
    have less := (Binary64.lt_iff_of_number? left right).mpr order
    exact ⟨_, doubleBetween_fst_eq_ok.mpr ⟨less, rfl⟩⟩
  within bounded g x drawn := doubleBetween_range left right bounded drawn
  less bounded below g x drawn := by
    obtain ⟨-, rfl⟩ := doubleBetween_fst_eq_ok.mp drawn
    exact Binary64.lt_of_le_of_lt (drawn_le_greatest left right order bounded g) below
  reached key := by
    obtain ⟨counter, first⟩ := exists_counter_greatest key
    have less := (Binary64.lt_iff_of_number? left right).mpr order
    refine ⟨counter, doubleBetween_fst_eq_ok.mpr ⟨less, ?_⟩⟩
    rw [first]
  about start positive length normal g x drawn := by
    obtain ⟨-, rfl⟩ := doubleBetween_fst_eq_ok.mp drawn
    exact drawn_lt_of_length left right start positive length normal g
  endless overflow g x drawn := by
    obtain ⟨-, rfl⟩ := doubleBetween_fst_eq_ok.mp drawn
    exact Binary64.number?_add_of_left (Binary64.number?_mul_of_right overflow)

theorem range_ends (left : number? least = some l) (right : number? bound = some b)
    (order : l < b) : EndBetween least bound l b ∧ (0 < b → EndBelow bound b) :=
  ⟨endBetween left right order, endBelow right⟩

/-- Of a range about zero and of one from zero on, the ends are left out. -/
theorem range_ends_about_zero :
    (∀ g x, ((doubleBetween (-2.0) 3.0) g).1 = .ok x → x < 3.0) ∧
      ∀ g x, ((doubleBelow 3.0) g).1 = .ok x → x < 3.0 := by
  have least : number? (-2.0) = some (-2) := by decide +kernel
  have bound : number? 3.0 = some 3 := by decide +kernel
  have length : number? (3.0 - -2.0) = some (3 - -2) := by decide +kernel
  obtain ⟨between, below⟩ := range_ends least bound (by norm_num)
  have normal : (2 : ℚ) ^ (-1022 : ℤ) < 1 := zpow_lt_one_of_neg₀ (by norm_num) (by norm_num)
  exact ⟨between.about (by norm_num) (by norm_num) length (normal.trans (by norm_num)),
    (below (by norm_num)).less (normal.trans (by norm_num))⟩

/-- Between two neighbours the upper one is drawn, here from the block of the key and the counter that
are zero, after its first word. -/
theorem end_drawn :
    let g : Generator := ⟨Aes.encrypt .zero, .zero, [0xef8a2c3b, 0x884cfa59, 0xca342b2e], none⟩
    (1.0 : Float) < 1.0000000000000002 ∧
      ((doubleBetween 1.0 1.0000000000000002) g).1 = .ok 1.0000000000000002 :=
  ⟨by decide +kernel, doubleBetween_fst_eq_ok.mpr ⟨by decide +kernel, by decide +kernel⟩⟩

end VesselRelay.Generator
