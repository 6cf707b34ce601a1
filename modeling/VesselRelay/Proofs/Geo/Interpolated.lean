import VesselRelay.Proofs.Binary64.Relative
import VesselRelay.Proofs.Geo.Grid
import VesselRelay.Proofs.Geo.Reckoning

/-!
Interpolation between two fixes. A coordinate that it comes up with is that of the straight way, up
to what rounding moves it: never before the one of the earlier fix, but possibly past the one of the
later fix. So just before a pole or the antimeridian the later fix itself may be refused. Where 64
bits do not hold the milliseconds from one fix to the other, only the start is sure.
-/
namespace VesselRelay.Fix
open Binary64 (number? grain tiny Sided)

variable {a b c d k n m q s : ℚ}

/-! ### Rounding on the way -/

/-- Degrees by which a coordinate may be off the straight way. -/
def slack : ℚ := 2 ^ (-39 : ℤ)

/-- Whether a number is on the way from one to another when a share of it is done. -/
structure Along (a b share c : ℚ) : Prop where
  close : |c - (a + (b - a) * share)| ≤ slack
  onward : a ≤ b → a ≤ c
  back : b ≤ a → c ≤ a

/-- Counts that are rounded, one of them in another. -/
theorem ratio_close {K N : ℚ} (start : 0 ≤ k) (order : k ≤ n) (positive : 0 < n)
    (left : |K - k| ≤ grain * k) (right : |N - n| ≤ grain * n) :
    0 < N ∧ |K / N - k / n| ≤ 3 * grain := by
  have grains := Binary64.grain_pos
  have fine : grain ≤ 1 / 3 := by norm_num [grain]
  have most : n * (1 - grain) ≤ N := by linarith [(abs_le.mp right).1]
  have above : 0 < N := (mul_pos positive (by linarith)).trans_le most
  refine ⟨above, ?_⟩
  have across : |K * n - N * k| ≤ 2 * grain * n * n := by
    have parted : K * n - N * k = (K - k) * n - (N - n) * k := by ring
    rw [parted]
    calc |(K - k) * n - (N - n) * k| ≤ |(K - k) * n| + |(N - n) * k| := abs_sub _ _
      _ = |K - k| * n + |N - n| * k := by
        rw [abs_mul, abs_mul, abs_of_pos positive, abs_of_nonneg start]
      _ ≤ grain * k * n + grain * n * k := by gcongr
      _ ≤ grain * n * n + grain * n * n := by gcongr
      _ = 2 * grain * n * n := by ring
  rw [div_sub_div _ _ above.ne' positive.ne', abs_div, abs_of_pos (mul_pos above positive),
    div_le_iff₀ (mul_pos above positive)]
  refine across.trans ?_
  have shrunk : 2 * n ≤ 3 * N := by nlinarith
  calc 2 * grain * n * n = grain * n * (2 * n) := by ring
    _ ≤ grain * n * (3 * N) := by gcongr
    _ = 3 * grain * (N * n) := by ring

/-- What the difference of two coordinates comes to when it is divided and multiplied back. -/
theorem part_close {K N r : ℚ} (short : |d| ≤ 360) (left : |s - d| ≤ 361 * grain) (start : 0 ≤ r)
    (whole : r ≤ 1) (count : 0 ≤ K) (fits : K ≤ 2 ^ 65) (ratio : |K / N - r| ≤ 3 * grain)
    (divided : |q - s / N| ≤ grain * |s / N| + tiny)
    (multiplied : |m - q * K| ≤ grain * |q * K| + tiny) : |m - d * r| ≤ 3000 * grain := by
  have positive := Binary64.grain_pos
  have fine : grain ≤ 1 / 2 ^ 50 := by norm_num [grain]
  have little := Binary64.tiny_le
  have size : |s| ≤ 361 := by linarith [abs_sub_abs_le_abs_sub s d]
  have part : |K / N| ≤ 2 := by
    linarith [abs_sub_abs_le_abs_sub (K / N) r, abs_of_nonneg start]
  have product : |s * (K / N)| ≤ 722 := by
    rw [abs_mul]
    exact (mul_le_mul size part (abs_nonneg _) (by norm_num)).trans_eq (by norm_num)
  have back : |q * K - s * (K / N)| ≤ 723 * grain := by
    have parted : q * K - s * (K / N) = (q - s / N) * K := by ring
    have whole : |s / N| * K = |s * (K / N)| := by
      rw [← abs_of_nonneg count, ← abs_mul, abs_of_nonneg count]
      congr 1
      ring
    have rest : tiny * K ≤ grain := by
      calc tiny * K ≤ grain * (1 / 2 ^ 100) * 2 ^ 65 := by gcongr
        _ ≤ grain := by linarith
    rw [parted, abs_mul, abs_of_nonneg count]
    calc |q - s / N| * K ≤ (grain * |s / N| + tiny) * K := by gcongr
      _ = grain * |s * (K / N)| + tiny * K := by rw [← whole]; ring
      _ ≤ grain * 722 + grain := by gcongr
      _ = 723 * grain := by ring
  have rounded : |m - q * K| ≤ 724 * grain := by
    have size : |q * K| ≤ 723 := by linarith [abs_sub_abs_le_abs_sub (q * K) (s * (K / N))]
    have scaled : grain * |q * K| ≤ grain * 723 := by gcongr
    linarith
  have line : |s * (K / N) - d * r| ≤ 1444 * grain := by
    have parted : s * (K / N) - d * r = s * (K / N - r) + (s - d) * r := by ring
    rw [parted]
    calc |s * (K / N - r) + (s - d) * r| ≤ |s * (K / N - r)| + |(s - d) * r| := abs_add_le _ _
      _ = |s| * |K / N - r| + |s - d| * r := by rw [abs_mul, abs_mul, abs_of_nonneg start]
      _ ≤ 361 * (3 * grain) + 361 * grain * 1 := by gcongr
      _ = 1444 * grain := by ring
  linarith [abs_sub_le m (q * K) (d * r), abs_sub_le (q * K) (s * (K / N)) (d * r)]

section
variable {x y : Float}

/-- The difference of two coordinates for each of some milliseconds, as it is rounded. -/
structure Rate (x y : Float) (d : ℚ) (count : ℤ) (s N q : ℚ) : Prop where
  span : number? (Binary64.ofInt count) = some N
  coarse : |N - count| ≤ grain * |(count : ℚ)|
  long : 1 / 2 ≤ |N|
  moved : |s - d| ≤ 361 * grain
  side : Sided d s
  quotient : number? ((y - x) / Binary64.ofInt count) = some q
  divided : |q - s / N| ≤ grain * |s / N| + tiny
  side' : Sided (s / N) q
  size : |q| ≤ 723

theorem exists_rate {n : ℤ} (left : number? x = some a) (right : number? y = some b)
    (short : |b - a| ≤ 360) (nonzero : n ≠ 0) (fits : |n| ≤ 2 ^ 64) :
    ∃ s N q, Rate x y (b - a) n s N q := by
  have grains := Binary64.grain_pos
  have fine : grain ≤ 1 / 2 ^ 50 := by norm_num [grain]
  have little := Binary64.tiny_le
  have one : (1 : ℚ) ≤ |(n : ℚ)| := by exact_mod_cast Int.one_le_abs nonzero
  obtain ⟨N, span, coarse⟩ := Binary64.exists_ofInt fits
  have long : 1 / 2 ≤ |N| := by nlinarith [abs_sub_abs_le_abs_sub (n : ℚ) N, abs_sub_comm N n]
  have above : 0 < |N| := by linarith
  have difference := Binary64.beside_sub right left
  obtain ⟨s, apart, moved⟩ := difference.exists_moved (short.trans (by norm_num))
  have size : |s / N| ≤ 722 := by
    have off : grain * |b - a| ≤ grain * 360 := by gcongr
    rw [abs_div, div_le_iff₀ above]
    linarith [abs_sub_abs_le_abs_sub s (b - a)]
  have ratio := Binary64.beside_div apart span (abs_pos.mp above)
  obtain ⟨q, quotient, divided⟩ := ratio.exists_moved (size.trans (by norm_num))
  exact ⟨s, N, q, span, coarse, long, by nlinarith, difference.sided apart, quotient, divided,
    ratio.sided quotient, by nlinarith [abs_sub_abs_le_abs_sub q (s / N)]⟩

/-- The way that is done, where `k` of `n` milliseconds have passed. -/
theorem exists_part {k n : ℤ} (left : number? x = some a) (right : number? y = some b)
    (short : |b - a| ≤ 360) (start : 0 ≤ k) (order : k ≤ n) (positive : 0 < n) (fits : n < 2 ^ 63) :
    ∃ m, number? ((y - x) / Binary64.ofInt n * Binary64.ofInt k) = some m ∧
      |m - (b - a) * (k / n)| ≤ 3000 * grain ∧ Sided (b - a) m := by
  have fine : grain ≤ 1 / 2 ^ 50 := by norm_num [grain]
  have start' : (0 : ℚ) ≤ k := by exact_mod_cast start
  have order' : (k : ℚ) ≤ n := by exact_mod_cast order
  have positive' : (0 : ℚ) < n := by exact_mod_cast positive
  have most : (n : ℚ) ≤ 2 ^ 63 := by exact_mod_cast fits.le
  obtain ⟨K, done, coarse⟩ := Binary64.exists_ofInt (n := k) (abs_le.mpr (by omega))
  obtain ⟨s, N, q, rate⟩ := exists_rate left right short positive.ne' (abs_le.mpr (by omega))
  have coarse' := rate.coarse
  rw [abs_of_nonneg start'] at coarse
  rw [abs_of_pos positive'] at coarse'
  have count := ((Binary64.beside_ofInt k).sided done).above start'
  have most' : K ≤ 2 ^ 65 := by nlinarith [(abs_le.mp coarse).2]
  obtain ⟨above, ratio⟩ := ratio_close start' order' positive' coarse coarse'
  have wide : |q * K| ≤ 2 ^ 100 := by
    rw [abs_mul, abs_of_nonneg count]
    calc |q| * K ≤ 723 * 2 ^ 65 := mul_le_mul rate.size most' count (by norm_num)
      _ ≤ 2 ^ 100 := by norm_num
  have multiple := Binary64.beside_mul rate.quotient done
  obtain ⟨m, product, multiplied⟩ := multiple.exists_moved wide
  refine ⟨m, product, part_close short rate.moved (div_nonneg start' positive'.le)
    ((div_le_one positive').mpr order') count most' ratio rate.divided multiplied, ?_⟩
  have divided := (rate.side.trans (Binary64.sided_div s above.le)).trans rate.side'
  exact (divided.trans (Binary64.sided_mul q count)).trans (multiple.sided product)

theorem exists_onLine {x1 x2 t : Int64} {k n : ℤ} (left : number? x = some a)
    (right : number? y = some b) (wide : |a| ≤ 180) (wide' : |b| ≤ 180)
    (whole : (x2 - x1).toInt = n) (part : (t - x1).toInt = k) (start : 0 ≤ k) (order : k ≤ n)
    (positive : 0 < n) :
    ∃ c, number? (onLine x x1 y x2 t) = some c ∧ Along a b (k / n) c := by
  have grains := Binary64.grain_pos
  have fine : grain ≤ 1 / 2 ^ 50 := by norm_num [grain]
  have little := Binary64.tiny_le
  have short : |b - a| ≤ 360 := (abs_sub b a).trans (by linarith)
  have most : n < 2 ^ 63 := whole ▸ (x2 - x1).toInt_lt
  obtain ⟨m, done, close, side⟩ := exists_part left right short start order positive most
  subst whole part
  have share : |(b - a) * ((t - x1).toInt / (x2 - x1).toInt : ℚ)| ≤ 360 := by
    have nonneg : (0 : ℚ) ≤ (t - x1).toInt := by exact_mod_cast start
    have order' : ((t - x1).toInt : ℚ) ≤ (x2 - x1).toInt := by exact_mod_cast order
    have above : (0 : ℚ) < (x2 - x1).toInt := by exact_mod_cast positive
    rw [abs_mul, abs_of_nonneg (div_nonneg nonneg above.le)]
    exact (mul_le_of_le_one_right (abs_nonneg _) ((div_le_one above).mpr order')).trans short
  generalize ((t - x1).toInt / (x2 - x1).toInt : ℚ) = r at *
  have size : |a + m| ≤ 541 := by
    linarith [abs_add_le a m, abs_sub_abs_le_abs_sub m ((b - a) * r)]
  have beside := Binary64.beside_add left done
  obtain ⟨c, exact, moved⟩ := beside.exists_moved (size.trans (by norm_num))
  refine ⟨c, exact, ?_, fun onward => ?_, fun back => ?_⟩
  · have rounded : |c - (a + m)| ≤ 542 * grain := by nlinarith
    have same : |a + m - (a + (b - a) * r)| ≤ 3000 * grain := by rwa [add_sub_add_left_eq_sub]
    have room : 3542 * grain ≤ slack := by norm_num [grain, slack]
    linarith [abs_sub_le c (a + m) (a + (b - a) * r)]
  · have low := beside.below left (by linarith [side.above (by linarith)])
    exact (Binary64.le_iff_of_number? left exact).mp low
  · have high := beside.above left (by linarith [side.below (by linarith)])
    exact (Binary64.le_iff_of_number? exact left).mp high

/-- Where no time has passed nothing is added, however much time there is. -/
theorem number?_onLine_first {x1 x2 : Int64} (left : number? x = some a)
    (right : number? y = some b) (wide : |a| ≤ 180) (wide' : |b| ≤ 180) (apart : x1 ≠ x2) :
    number? (onLine x x1 y x2 x1) = some a := by
  have nonzero : (x2 - x1).toInt ≠ 0 := by
    rw [ne_eq, ← Int64.toInt_zero, Int64.toInt_inj, Int64.sub_eq_iff_eq_add, Int64.zero_add]
    exact apart.symm
  have most := (x2 - x1).toInt_lt
  have least := (x2 - x1).le_toInt
  obtain ⟨s, N, q, rate⟩ := exists_rate left right ((abs_sub b a).trans (by linarith)) nonzero
    (abs_le.mpr (by omega))
  obtain ⟨K, none, gone⟩ := Binary64.exists_ofInt (n := 0) (by norm_num)
  obtain rfl : K = 0 := by simpa using gone
  have product := (Binary64.beside_mul rate.quotient none).exact
    (Binary64.number?_nothing.trans (congrArg some (mul_zero q).symm))
  have sum := (Binary64.beside_add left product).exact (y := x) (by rw [mul_zero, add_zero, left])
  unfold onLine Binary64.ofInt64
  rw [Int64.sub_self, Int64.toInt_zero, sum, mul_zero, add_zero]

theorem Along.within {r limit : ℚ} (along : Along a b r c) (whole : r ≤ 1)
    (inside : |a| ≤ limit) (clear : |b| ≤ limit - slack) : |c| ≤ limit := by
  obtain ⟨low, high⟩ := abs_le.mp along.close
  obtain ⟨least, most⟩ := abs_le.mp inside
  obtain ⟨least', most'⟩ := abs_le.mp clear
  refine abs_le.mpr ?_
  rcases le_total a b with onward | back
  · have done : (b - a) * r ≤ b - a := mul_le_of_le_one_right (by linarith) whole
    exact ⟨by linarith [along.onward onward], by linarith⟩
  · have done : b - a ≤ (b - a) * r := by nlinarith
    exact ⟨by linarith, by linarith [along.back back]⟩

/-- Whether a double is on the way from one to another when a share of it is done. -/
def OnWay (x y : Float) (share : ℚ) (z : Float) : Prop :=
  ∃ a b c, number? x = some a ∧ number? y = some b ∧ number? z = some c ∧ Along a b share c

/-- Whether two doubles are no farther apart than a coordinate may be off the straight way. -/
def Close (x y : Float) : Prop :=
  ∃ a b, number? x = some a ∧ number? y = some b ∧ |b - a| ≤ slack

theorem OnWay.close {z : Float} (arrived : OnWay x y 1 z) : Close y z := by
  obtain ⟨a, b, c, _, right, exact, along⟩ := arrived
  refine ⟨b, c, right, exact, ?_⟩
  simpa using along.close

end

/-! ### Fixes -/

variable {earlier later : Fix} {t : Int64}

theorem exists_coordinates (p : Position) :
    ∃ a b, number? p.latitude = some a ∧ number? p.longitude = some b ∧ |a| ≤ 90 ∧ |b| ≤ 180 := by
  obtain ⟨a, latitude, low⟩ := p.number?_latitude
  obtain ⟨b, longitude, wide⟩ := p.number?_longitude
  exact ⟨a, b, latitude, longitude, abs_le.mpr low, abs_le.mpr wide⟩

/-- Whether a position is farther from the poles and the antimeridian than a coordinate may be off
the straight way. -/
def Clear (p : Position) : Prop :=
  ∃ a b, number? p.latitude = some a ∧ number? p.longitude = some b ∧
    |a| ≤ 90 - slack ∧ |b| ≤ 180 - slack

/-- The share of the milliseconds between two fixes that has passed at a time. -/
def share (earlier later : Fix) (t : Int64) : ℚ := earlier.span t / earlier.span later.time

theorem interpolate_of_reversed (reversed : later.time < earlier.time) :
    earlier.interpolate later t =
      .error (.argument (.fixesReversed earlier.time later.time)) := by
  rw [interpolate, if_pos reversed]
  rfl

theorem interpolate_of_early (order : earlier.time ≤ later.time) (early : t < earlier.time) :
    earlier.interpolate later t = .error (.argument (.beforeEarlier t earlier.time)) := by
  rw [interpolate, if_neg (Int64.not_lt.mpr order), if_pos early]
  rfl

theorem interpolate_of_late (order : earlier.time ≤ later.time) (late : later.time < t) :
    earlier.interpolate later t = .error (.argument (.afterLater t later.time)) := by
  have begun : ¬ t < earlier.time := Int64.not_lt.mpr
    (Int64.le_trans order (Int64.le_of_lt late))
  rw [interpolate, if_neg (Int64.not_lt.mpr order), if_neg begun, if_pos late]
  rfl

theorem interpolate_of_disorder (disorder : ¬ (earlier.time ≤ t ∧ t ≤ later.time)) :
    ∃ fault, earlier.interpolate later t = .error (.argument fault) := by
  rcases Int64.lt_or_le later.time earlier.time with reversed | order
  · exact ⟨_, interpolate_of_reversed reversed⟩
  · rcases Int64.lt_or_le t earlier.time with early | begun
    · exact ⟨_, interpolate_of_early order early⟩
    · rcases Int64.lt_or_le later.time t with late | going
      · exact ⟨_, interpolate_of_late order late⟩
      · exact absurd ⟨begun, going⟩ disorder

theorem interpolate_of_order (begun : earlier.time ≤ t) (going : t ≤ later.time) :
    earlier.interpolate later t = if later.time = earlier.time then .ok ⟨earlier.position, t⟩ else
      (Position.make
        (onLine earlier.position.latitude earlier.time later.position.latitude later.time t)
        (onLine earlier.position.longitude earlier.time later.position.longitude later.time t)).map
        (⟨·, t⟩) := by
  rw [interpolate, if_neg (Int64.not_lt.mpr (Int64.le_trans begun going)),
    if_neg (Int64.not_lt.mpr begun), if_neg (Int64.not_lt.mpr going)]
  rfl

theorem interpolate_of_valid (begun : earlier.time ≤ t) (going : t ≤ later.time)
    (apart : later.time ≠ earlier.time)
    (valid : ValidLatitude
      (onLine earlier.position.latitude earlier.time later.position.latitude later.time t))
    (valid' : ValidLongitude
      (onLine earlier.position.longitude earlier.time later.position.longitude later.time t)) :
    earlier.interpolate later t = .ok ⟨⟨_, _, valid, valid'⟩, t⟩ := by
  have made := Position.make_self ⟨_, _, valid, valid'⟩
  dsimp only at made
  rw [interpolate_of_order begun going, if_neg apart, made]
  rfl

theorem span_pos (apart : earlier.time < later.time) : 0 < earlier.span later.time := by
  rw [Int64.lt_iff_toInt_lt] at apart
  exact Int.sub_pos.mpr apart

theorem span_le (earlier : Fix) (going : t ≤ later.time) :
    earlier.span t ≤ earlier.span later.time := by
  rw [Int64.le_iff_toInt_le] at going
  exact Int.sub_le_sub_right going _

theorem share_le_one (going : t ≤ later.time) (apart : earlier.time < later.time) :
    earlier.share later t ≤ 1 := by
  refine (div_le_one ?_).mpr ?_
  · exact_mod_cast span_pos apart
  · exact_mod_cast span_le earlier going

theorem share_last (apart : earlier.time < later.time) : earlier.share later later.time = 1 :=
  div_self (by exact_mod_cast (span_pos apart).ne')

theorem onWay_onLine {x y : Float} (left : number? x = some a) (right : number? y = some b)
    (wide : |a| ≤ 180) (wide' : |b| ≤ 180) (begun : earlier.time ≤ t) (going : t ≤ later.time)
    (apart : earlier.time < later.time) (fits : earlier.span later.time < 2 ^ 63) :
    OnWay x y (earlier.share later t) (onLine x earlier.time y later.time t) := by
  have order := span_le earlier going
  obtain ⟨c, exact, along⟩ := exists_onLine left right wide wide'
    (toInt_sub_time (Int64.le_of_lt apart) fits)
    (toInt_sub_time begun (order.trans_lt fits)) (span_nonneg begun) order (span_pos apart)
  exact ⟨a, b, c, left, right, exact, along⟩

theorem onWay_coordinates (begun : earlier.time ≤ t) (going : t ≤ later.time)
    (apart : earlier.time < later.time) (fits : earlier.span later.time < 2 ^ 63) :
    OnWay earlier.position.latitude later.position.latitude (earlier.share later t)
        (onLine earlier.position.latitude earlier.time later.position.latitude later.time t) ∧
      OnWay earlier.position.longitude later.position.longitude (earlier.share later t)
        (onLine earlier.position.longitude earlier.time later.position.longitude later.time t) := by
  obtain ⟨a, b, latitude, longitude, low, wide⟩ := exists_coordinates earlier.position
  obtain ⟨c, d, latitude', longitude', low', wide'⟩ := exists_coordinates later.position
  constructor
  · exact onWay_onLine latitude latitude' (by linarith) (by linarith) begun going apart fits
  · exact onWay_onLine longitude longitude' wide wide' begun going apart fits

/-! ### What interpolation gives -/

theorem exists_between (begun : earlier.time ≤ t) (going : t ≤ later.time)
    (fits : earlier.span later.time < 2 ^ 63) (clear : Clear later.position) :
    ∃ between, earlier.interpolate later t = .ok between := by
  by_cases same : later.time = earlier.time
  · exact ⟨_, (interpolate_of_order begun going).trans (if_pos same)⟩
  · have apart := Int64.lt_of_le_of_ne (Int64.le_trans begun going) (Ne.symm same)
    have whole := share_le_one going apart
    obtain ⟨north, east⟩ := onWay_coordinates begun going apart fits
    obtain ⟨a, b, c, latitude, latitude', exact, along⟩ := north
    obtain ⟨d, e, f, longitude, longitude', exact', along'⟩ := east
    obtain ⟨g, h, latitude'', longitude'', off, off'⟩ := clear
    obtain rfl : b = g := Option.some.inj (latitude'.symm.trans latitude'')
    obtain rfl : e = h := Option.some.inj (longitude'.symm.trans longitude'')
    have low := (validLatitude_iff latitude).mp earlier.position.validLatitude
    have low' := (validLongitude_iff longitude).mp earlier.position.validLongitude
    exact ⟨_, interpolate_of_valid begun going same
      ((validLatitude_iff exact).mpr
        (abs_le.mp (along.within whole (abs_le.mpr low) off)))
      ((validLongitude_iff exact').mpr
        (abs_le.mp (along'.within whole (abs_le.mpr low') off')))⟩

theorem ordered_of_interpolate {between : Fix}
    (made : earlier.interpolate later t = .ok between) :
    earlier.time ≤ t ∧ t ≤ later.time := by
  by_contra disorder
  obtain ⟨fault, refused⟩ := interpolate_of_disorder disorder
  rw [refused] at made
  cases made

theorem stamped_interpolate {between : Fix} (made : earlier.interpolate later t = .ok between) :
    between.time = t := by
  obtain ⟨begun, going⟩ := ordered_of_interpolate made
  rw [interpolate_of_order begun going] at made
  split at made
  · cases made
    rfl
  · obtain ⟨p, _, rfl⟩ := map_eq_ok.mp made
    rfl

theorem exists_start (order : earlier.time ≤ later.time) :
    ∃ between, earlier.interpolate later earlier.time = .ok between ∧
      between.position == earlier.position := by
  have begun := Int64.le_refl earlier.time
  by_cases same : later.time = earlier.time
  · exact ⟨_, (interpolate_of_order begun order).trans (if_pos same), BEq.rfl⟩
  · obtain ⟨a, b, latitude, longitude, low, wide⟩ := exists_coordinates earlier.position
    obtain ⟨c, d, latitude', longitude', low', wide'⟩ := exists_coordinates later.position
    have north := number?_onLine_first latitude latitude' (by linarith) (by linarith) (Ne.symm same)
    have east := number?_onLine_first longitude longitude' wide wide' (Ne.symm same)
    refine ⟨_, interpolate_of_valid begun order same ((validLatitude_iff north).mpr (abs_le.mp low))
      ((validLongitude_iff east).mpr (abs_le.mp wide)), Bool.and_eq_true_iff.mpr ⟨?_, ?_⟩⟩
    · exact Binary64.beq_of_number? north latitude
    · exact Binary64.beq_of_number? east longitude

theorem onWay_interpolate {between : Fix} (apart : earlier.time < later.time)
    (fits : earlier.span later.time < 2 ^ 63)
    (made : earlier.interpolate later t = .ok between) :
    OnWay earlier.position.latitude later.position.latitude (earlier.share later t)
        between.position.latitude ∧
      OnWay earlier.position.longitude later.position.longitude (earlier.share later t)
        between.position.longitude := by
  obtain ⟨begun, going⟩ := ordered_of_interpolate made
  rw [interpolate_of_order begun going, if_neg (Int64.ne_of_lt apart).symm] at made
  obtain ⟨p, placed, rfl⟩ := map_eq_ok.mp made
  obtain ⟨north, east⟩ := Position.make_eq_ok.mp placed
  have way := onWay_coordinates begun going apart fits
  rwa [north, east] at way

/-- What interpolation from a fix to another gives. -/
structure Interpolates (earlier later : Fix) : Prop where
  /-- Times in any other order are refused. -/
  disorder : ∀ t, ¬ (earlier.time ≤ t ∧ t ≤ later.time) →
    ∃ fault, earlier.interpolate later t = .error (.argument fault)
  stamped : ∀ t between, earlier.interpolate later t = .ok between → between.time = t
  /-- At its time the earlier fix is reached, however many milliseconds it is to the later one. -/
  start : earlier.time ≤ later.time → ∃ between,
    earlier.interpolate later earlier.time = .ok between ∧ between.position == earlier.position
  along : ∀ t between, earlier.time < later.time → earlier.span later.time < 2 ^ 63 →
    earlier.interpolate later t = .ok between →
      OnWay earlier.position.latitude later.position.latitude (earlier.share later t)
        between.position.latitude ∧
      OnWay earlier.position.longitude later.position.longitude (earlier.share later t)
        between.position.longitude
  finish : ∀ between, earlier.time < later.time → earlier.span later.time < 2 ^ 63 →
    earlier.interpolate later later.time = .ok between →
      Close later.position.latitude between.position.latitude ∧
      Close later.position.longitude between.position.longitude
  /-- Only where the later fix is close to a limit of its coordinates may a time be refused. -/
  reached : ∀ t, earlier.time ≤ t → t ≤ later.time → earlier.span later.time < 2 ^ 63 →
    Clear later.position → ∃ between, earlier.interpolate later t = .ok between
  lost : ∀ t failure, earlier.time ≤ t → t ≤ later.time →
    earlier.interpolate later t = .error failure →
      ∃ given, failure = .argument (.latitude given) ∨ failure = .argument (.longitude given)

theorem interpolates (earlier later : Fix) : Interpolates earlier later where
  disorder _ := interpolate_of_disorder
  stamped _ _ := stamped_interpolate
  start := exists_start
  along _ _ := onWay_interpolate
  finish between apart fits made := by
    have way := onWay_interpolate apart fits made
    rw [share_last apart] at way
    exact ⟨way.1.close, way.2.close⟩
  reached _ := exists_between
  lost t failure begun going refused := by
    rw [interpolate_of_order begun going] at refused
    split at refused
    · cases refused
    · have unplaced := map_eq_error.mp refused
      unfold Position.make at unplaced
      split at unplaced
      · split at unplaced
        · cases unplaced
        · cases unplaced
          exact ⟨_, .inr rfl⟩
      · cases unplaced
        exact ⟨_, .inl rfl⟩

/-- To the pole in 19 milliseconds: it is overshot by a unit in the last place, and so refused at
the time at which it is reached. -/
theorem interpolate_past_pole :
    let earlier : Fix := ⟨⟨1.25, 21, by decide +kernel, by decide +kernel⟩, 0⟩
    let later : Fix := ⟨⟨90, 21, by decide +kernel, by decide +kernel⟩, 19⟩
    earlier.time ≤ later.time ∧
      earlier.interpolate later later.time =
        .error (.argument (.latitude 90.00000000000001)) := by
  intro earlier later
  exact ⟨by decide +kernel, by decide +kernel⟩

end VesselRelay.Fix
