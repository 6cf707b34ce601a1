import VesselRelay.Proofs.Random.Signed

/-!
Signed words hold every result that a bounded draw comes to on its way.
-/
namespace VesselRelay.Generator.Checked

variable {α β γ : Type} {g : Generator}

theorem int32_eq {n : Int} (low : -2 ^ 31 ≤ n) (high : n < 2 ^ 31) : int32 n = pure (.ofInt n) :=
  if_pos ⟨low, high⟩

theorem int64_eq {n : Int} (low : -2 ^ 63 ≤ n) (high : n < 2 ^ 63) : int64 n = pure (.ofInt n) :=
  if_pos ⟨low, high⟩

/-- Two draws in a row are exact if the first is, what it gives standing for a number, and the
second wherever the first leads. -/
theorem bind_exact {c : Checked β} {a : Attempt α} {f : α → β} {next : β → Checked γ}
    {next' : α → Attempt γ} (first : c g = some ((a >>= fun x => pure (f x)) g))
    (second : ∀ x, (a g).1 = .ok x → next (f x) (a g).2 = some (next' x (a g).2)) :
    (c >>= next) g = some ((a >>= next') g) := by
  have opened : (c >>= next) g = (c g).bind fun r => ExceptT.bindCont next r.1 r.2 := rfl
  rw [opened, first, Option.bind_some, bind_apply, bind_apply]
  cases drawn : (a g).1 with
  | error failure => rfl
  | ok x => exact second x drawn

theorem draw_bind (drawn : Draw α) (next : α → Checked β) :
    (draw drawn >>= next) g = next (drawn g).1 (drawn g).2 := rfl

theorem untilAccepted_of_ok {trial : Checked (Option α)} {a : α} {h : Generator}
    (tried : trial g = some (.ok (some a), h)) (rounds : Nat) :
    untilAccepted trial (rounds + 1) g = some (.ok a, h) := by
  change (trial g).bind _ = _
  rw [tried]
  rfl

theorem untilAccepted_of_rejected {trial : Checked (Option α)} {h : Generator}
    (tried : trial g = some (.ok none, h)) (rounds : Nat) :
    untilAccepted trial (rounds + 1) g = untilAccepted trial rounds h := by
  change (trial g).bind _ = _
  rw [tried]
  rfl

/-- A trial that is exact may be repeated. What a trial gives in words stands for a number. -/
theorem untilAccepted_exact {checked : Checked (Option β)} {trial : Draw (Option α)} {f : α → β}
    (once : ∀ g, checked g = some (.ok ((trial g).1.map f), (trial g).2)) (rounds : Nat)
    (g : Generator) :
    untilAccepted checked rounds g =
      some ((Generator.untilAccepted trial rounds >>= fun a => pure (f a)) g) := by
  induction rounds generalizing g with
  | zero => rfl
  | succ rounds ih =>
    have tried := once g
    rw [bind_apply, untilAccepted_succ]
    cases given : (trial g).1 with
    | none =>
      rw [given] at tried
      rw [← bind_apply, untilAccepted_of_rejected tried]
      exact ih _
    | some a =>
      rw [given] at tried
      exact untilAccepted_of_ok tried rounds

theorem untilAccepted_draw (trial : Draw (Option α)) (rounds : Nat) (g : Generator) :
    untilAccepted (draw trial) rounds g = some (Generator.untilAccepted trial rounds g) := by
  have once (g : Generator) :
      draw trial g = some (.ok ((trial g).1.map id), (trial g).2) := by
    rw [Option.map_id]
    rfl
  rw [untilAccepted_exact once]
  exact congrArg (fun a => some (a g)) (bind_pure (Generator.untilAccepted trial rounds))

/-! ### Up to 31 bits -/

theorem and_neg_eq_self {w : Nat} (x : BitVec w) : x &&& -x = x ↔ x &&& (x - 1#w) = 0#w := by
  have complement : -x = ~~~(x - 1#w) := by rw [← BitVec.not_neg, BitVec.not_not]
  rw [complement]
  constructor
  · intro same
    ext i inside
    have bit := congrArg (fun y : BitVec w => y[i]) same
    simp only [BitVec.getElem_and, BitVec.getElem_not, BitVec.getElem_zero] at bit ⊢
    cases here : x[i] with
    | false => rfl
    | true => simpa [here] using bit
  · intro apart
    ext i inside
    have bit := congrArg (fun y : BitVec w => y[i]) apart
    simp only [BitVec.getElem_and, BitVec.getElem_not, BitVec.getElem_zero] at bit ⊢
    cases here : x[i] with
    | false => rfl
    | true => simpa [here] using bit

/-- A positive word is its own lowest bit exactly where it is a power of two. -/
theorem lowestBit_iff {bound : Int32} (positive : 0 < bound.toInt) :
    bound &&& Int32.ofInt (-bound.toInt) = bound ↔ isPowerOfTwo bound.toInt.toNat := by
  have number : bound.toInt.toNat = bound.toBitVec.toNat := by
    have whole : bound.toBitVec.toInt = bound.toInt := rfl
    rw [← whole, BitVec.toInt_eq_toNat_cond] at positive ⊢
    split at positive <;> split <;> omega
  have one : 1#32 ≤ bound.toBitVec := by
    rw [BitVec.le_def]
    change 1 ≤ _
    omega
  rw [Int32.ofInt_neg, Int32.ofInt_toInt, ← Int32.toBitVec_inj, Int32.toBitVec_and,
    Int32.toBitVec_neg, and_neg_eq_self, ← BitVec.toNat_inj, BitVec.toNat_and,
    BitVec.toNat_sub_of_le one, isPowerOfTwo, number]
  have nonzero : bound.toBitVec.toNat ≠ 0 := by omega
  simp [nonzero]

theorem intTrial_exact {bound : Int32} {n : Nat} (number : bound.toInt = n) (positive : 0 < n)
    (ordinary : ¬ isPowerOfTwo n) (g : Generator) :
    intTrial bound g = some (.ok ((trial n g).1.map Int32.ofNat), (trial n g).2) := by
  have bits : (top 31 g).1.toNat < 2 ^ 31 := top_lt (by decide) (by decide) g
  have limit := bound.toInt_lt
  have value := Nat.mod_lt (top 31 g).1.toNat positive
  have least := Nat.mod_le (top 31 g).1.toNat n
  have remainder : ((top 31 g).1.toNat : Int).tmod n = ((top 31 g).1.toNat % n : Nat) :=
    (Int.ofNat_tmod _ _).symm
  have drawn : (trial n g) = (accept n (top 31 g).1.toNat, (top 31 g).2) := rfl
  rw [intTrial, draw_bind, drawn, number]
  generalize (top 31 g).1.toNat = w at *
  generalize (top 31 g).2 = h
  rw [int64_eq (by omega) (by omega), pure_bind, Int64.toInt_ofInt_of_le (by omega) (by omega),
    remainder, int64_eq (by omega) (by omega), pure_bind,
    Int64.toInt_ofInt_of_le (by omega) (by omega), int64_eq (by omega) (by omega), pure_bind,
    int32_eq (by omega) (by omega), pure_bind, Int64.toInt_ofInt_of_le (by omega) (by omega),
    Int32.toInt_ofInt_of_le (by omega) (by omega), int64_eq (by omega) (by omega), pure_bind,
    Int64.toInt_ofInt_of_le (by omega) (by omega), accept, if_neg ordinary]
  have last : Int32.maxValue.toInt = 2 ^ 31 - 1 := rfl
  dsimp only
  split
  · rw [if_neg (by omega)]
    rfl
  · rw [if_pos (by omega), int32_eq (by omega) (by omega), pure_bind, Int32.ofInt_eq_ofNat]
    rfl

theorem intBelow_exact (bound : Int32) (g : Generator) :
    intBelow bound g = some (Generator.intBelow bound g) := by
  by_cases refused : bound ≤ 0
  · rw [intBelow, Generator.intBelow, if_pos refused, if_pos refused]
    rfl
  · have positive : 0 < bound.toInt := by simpa [Int32.le_iff_toInt_le] using refused
    have limit := bound.toInt_lt
    obtain ⟨n, number⟩ := Int.eq_ofNat_of_zero_le (Int.le_of_lt positive)
    have lowest := lowestBit_iff positive
    rw [number, Int.toNat_natCast] at lowest
    rw [intBelow, Generator.intBelow, if_neg refused, if_neg refused,
      int32_eq (by omega) (by omega), pure_bind, number, Int.toNat_natCast]
    dsimp only
    by_cases power : isPowerOfTwo n
    · have bits : (top 31 g).1.toNat < 2 ^ 31 := top_lt (by decide) (by decide) g
      have least : n * (top 31 g).1.toNat < n * 2 ^ 31 :=
        Nat.mul_lt_mul_of_pos_left bits (by omega)
      have high : n * (top 31 g).1.toNat / 2 ^ 31 < n :=
        (Nat.div_lt_iff_lt_mul (Nat.two_pow_pos 31)).mpr least
      have accepted : (trial n g).1 = some ((n * (top 31 g).1.toNat) >>> 31) := if_pos power
      rw [if_pos (lowest.mpr power), draw_bind, bind_apply, below, untilAccepted_of_some accepted,
        ← Int.natCast_mul, int64_eq (by omega) (by omega), pure_bind,
        Int64.toInt_ofInt_of_le (by omega) (by omega), Int.shiftRight_eq_div_pow,
        Nat.shiftRight_eq_div_pow, int32_eq (by omega) (by omega)]
      rfl
    · rw [if_neg fun same => power (lowest.mp same)]
      exact untilAccepted_exact (intTrial_exact number (by omega) power) period g

theorem intBelow_of_below {n : Nat} (positive : 0 < n) (fits : n < 2 ^ 31) (g : Generator) :
    intBelow (.ofNat n) g = some ((below n >>= fun x => pure (Int32.ofNat x)) g) := by
  rw [intBelow_exact, Generator.intBelow_ofNat positive fits]

/-! ### Up to 63 bits -/

/-- The two bits of a draw, as numbers tell them. -/
theorem bits_eq {bits : UInt32} (small : bits.toNat < 2 ^ 2) :
    (bits &&& 2 = 0 ↔ bits.toNat / 2 % 2 = 0) ∧ (bits &&& 1 = 0 ↔ bits.toNat % 2 = 0) := by
  rw [← UInt32.toNat_inj, ← UInt32.toNat_inj, UInt32.toNat_and, UInt32.toNat_and]
  generalize bits.toNat = n at small
  revert n
  decide

theorem halve_exact {s : Stretch} {bits : UInt32} (fits : s.offset + s.length < 2 ^ 63)
    (small : bits.toNat < 2 ^ 2) :
    halve (.ofNat s.offset) (.ofNat s.length) bits =
      pure (.ofNat (s.halve bits.toNat).offset, .ofNat (s.halve bits.toNat).length) := by
  obtain ⟨high, low⟩ := bits_eq small
  have inside := s.halve_within bits.toNat
  have half : (s.length : Int) >>> (1 : Nat) = (s.length / 2 : Nat) := by
    rw [Int.shiftRight_eq_div_pow]
    rfl
  have kept : (if bits &&& 2 = 0 then pure (Int64.ofNat (s.length / 2)) else
      int64 (s.length - (s.length / 2 : Nat))) =
      pure (Int64.ofNat (s.halve bits.toNat).length) := by
    simp only [Stretch.halve, high]
    split
    · rfl
    · rw [int64_eq (by omega) (by omega), ← Int.ofNat_sub (by omega), Int64.ofInt_eq_ofNat]
  rw [halve, Int64.toInt_ofNat_of_lt (by omega), Int64.toInt_ofNat_of_lt (by omega), half,
    int64_eq (by omega) (by omega), pure_bind, Int64.ofInt_eq_ofNat,
    Int64.toInt_ofNat_of_lt (by omega), kept, pure_bind]
  by_cases moved : bits &&& 1 = 0
  · have offset : (s.halve bits.toNat).offset =
        s.offset + (s.length - (s.halve bits.toNat).length) := if_pos (low.mp moved)
    rw [if_pos moved, Int64.toInt_ofNat_of_lt (by omega), int64_eq (by omega) (by omega),
      pure_bind, Int64.toInt_ofInt_of_le (by omega) (by omega), int64_eq (by omega) (by omega),
      pure_bind, offset, ← Int.ofNat_sub (by omega), ← Int.natCast_add, Int64.ofInt_eq_ofNat]
  · have offset : (s.halve bits.toNat).offset = s.offset := if_neg fun even => moved (low.mpr even)
    rw [if_neg moved, offset]

theorem short_iff {n : Nat} (fits : n < 2 ^ 63) :
    (Int64.ofNat n).toInt < Int32.maxValue.toInt ↔ n < shortLength := by
  have last : Int32.maxValue.toInt = 2 ^ 31 - 1 := rfl
  rw [Int64.toInt_ofNat_of_lt fits, last, shortLength]
  omega

/-- So many rounds bring a range down that is long by so many doublings. -/
theorem halving_exact (rounds : Nat) {s : Stretch} (fits : s.offset + s.length < 2 ^ 63)
    (enough : s.length ≤ 2 ^ rounds * 2 ^ 30) (g : Generator) :
    halving rounds (.ofNat s.offset) (.ofNat s.length) g =
      some (.ok (.ofNat (shorten s g).1.offset, .ofNat (shorten s g).1.length),
        (shorten s g).2) := by
  have limit := short_iff (n := s.length) (by omega)
  induction rounds generalizing s g with
  | zero =>
    have short : s.length < shortLength := by
      unfold shortLength
      omega
    rw [shorten_of_short short, halving, if_pos (limit.mpr short)]
    rfl
  | succ rounds ih =>
    by_cases short : s.length < shortLength
    · rw [shorten_of_short short, halving, if_pos (limit.mpr short)]
      rfl
    · rw [shorten_of_long short, halving, if_neg fun within => short (limit.mp within), draw_bind,
        halve_exact fits (top_lt (by decide) (by decide) g), pure_bind]
      have inside := s.halve_within (top 2 g).1.toNat
      have halved : (s.halve (top 2 g).1.toNat).length ≤ 2 ^ rounds * 2 ^ 30 := by
        simp only [Stretch.halve]
        split <;> omega
      exact ih (by omega) halved _ (short_iff (by omega))

theorem longBelow_of_belowLong {n : Nat} (positive : 0 < n) (fits : n < 2 ^ 63) (g : Generator) :
    longBelow (.ofNat n) g = some ((belowLong n >>= fun x => pure (Int64.ofNat x)) g) := by
  have number : (Int64.ofNat n).toInt = n := Int64.toInt_ofNat_of_lt fits
  have passed : ¬ Int64.ofNat n ≤ 0 := by
    rw [Int64.le_iff_toInt_le, number]
    change ¬ (n : Int) ≤ 0
    omega
  have halved := halving_exact 33 (s := ⟨0, n⟩) (by simpa using fits)
    (by dsimp only; omega) g
  rw [longBelow, if_neg passed, belowLong, bind_assoc]
  refine bind_exact (a := liftM (shorten ⟨0, n⟩))
    (f := fun s => (Int64.ofNat s.offset, Int64.ofNat s.length)) halved fun s drawn => ?_
  cases drawn
  obtain ⟨_, within, short⟩ := shorten_within ⟨0, n⟩ g
  have rest := shorten_pos (s := ⟨0, n⟩) positive g
  generalize (shorten ⟨0, n⟩ g).1 = s at *
  unfold shortLength at short
  simp only [Nat.zero_add] at within
  dsimp only
  rw [Int64.toInt_ofNat_of_lt (by omega), Int64.toInt_ofNat_of_lt (by omega),
    int32_eq (by omega) (by omega), pure_bind, Int32.ofInt_eq_ofNat, bind_assoc]
  refine bind_exact (intBelow_of_below rest (by omega) _) fun x drawn => ?_
  have inside := below_lt rest drawn
  rw [Int32.toInt_ofNat_of_lt (by omega), int64_eq (by omega) (by omega), ← Int.natCast_add,
    Int64.ofInt_eq_ofNat, pure_bind]
  rfl

/-- A positive word of 64 bits is a number of 63. -/
theorem exists_eq_ofNat {bound : Int64} (positive : 0 < bound.toInt) :
    ∃ n : Nat, 0 < n ∧ n < 2 ^ 63 ∧ bound = .ofNat n ∧ bound.toInt = n := by
  have limit := bound.toInt_lt
  obtain ⟨n, number⟩ := Int.eq_ofNat_of_zero_le (Int.le_of_lt positive)
  have same : bound = .ofNat n := by rw [← Int64.ofInt_toInt bound, number, Int64.ofInt_eq_ofNat]
  exact ⟨n, by omega, by omega, same, number⟩

theorem longBelow_exact (bound : Int64) (g : Generator) :
    longBelow bound g = some (Generator.longBelow bound g) := by
  by_cases refused : bound ≤ 0
  · rw [longBelow, Generator.longBelow, if_pos refused, if_pos refused]
    rfl
  · have positive : 0 < bound.toInt := by simpa [Int64.le_iff_toInt_le] using refused
    obtain ⟨n, nonzero, fits, same, number⟩ := exists_eq_ofNat positive
    rw [Generator.longBelow, if_neg refused, number, Int.toNat_natCast, same]
    exact longBelow_of_belowLong nonzero fits g

/-! ### Between two limits -/

theorem intBetween_exact (least bound : Int32) (g : Generator) :
    intBetween least bound g = some (Generator.intBetween least bound g) := by
  by_cases refused : bound ≤ least
  · rw [intBetween, Generator.intBetween, if_pos refused, if_pos refused]
    rfl
  · have less : least.toInt < bound.toInt := by simpa [Int32.le_iff_toInt_le] using refused
    have lowest := least.le_toInt
    have limit := bound.toInt_lt
    have last : Int32.maxValue.toInt = 2 ^ 31 - 1 := rfl
    obtain ⟨n, number⟩ := Int.eq_ofNat_of_zero_le (a := bound.toInt - least.toInt) (by omega)
    rw [intBetween, Generator.intBetween, if_neg refused, if_neg refused, number,
      int64_eq (by omega) (by omega), pure_bind, Int64.ofInt_eq_ofNat,
      Int64.toInt_ofNat_of_lt (by omega), Int.toNat_natCast, last]
    dsimp only
    by_cases short : n < 2 ^ 31
    · rw [if_pos (by omega), if_pos short, int32_eq (by omega) (by omega), pure_bind,
        Int32.ofInt_eq_ofNat]
      refine bind_exact (intBelow_of_below (by omega) short g) fun x drawn => ?_
      have inside := below_lt (by omega) drawn
      rw [Int32.toInt_ofNat_of_lt (by omega), int32_eq (by omega) (by omega)]
      rfl
    · rw [if_neg (by omega), if_neg short]
      refine bind_exact (longBelow_of_belowLong (by omega) (by omega) g) fun x drawn => ?_
      have inside := belowLong_lt (by omega) drawn
      rw [Int64.toInt_ofNat_of_lt (by omega), int64_eq (by omega) (by omega), pure_bind,
        Int64.toInt_ofInt_of_le (by omega) (by omega), int32_eq (by omega) (by omega)]
      rfl

/-- The span of two limits is one of unsigned words. -/
theorem toNat_span {least bound : Int64} (less : least.toInt < bound.toInt) :
    ((bound.toUInt64 - least.toUInt64).toNat : Int) = bound.toInt - least.toInt := by
  have low : least.toInt = _ := BitVec.toInt_eq_toNat_cond least.toBitVec
  have high : bound.toInt = _ := BitVec.toInt_eq_toNat_cond bound.toBitVec
  have lowWord := least.toBitVec.isLt
  have highWord := bound.toBitVec.isLt
  change (((bound.toBitVec - least.toBitVec).toNat : Nat) : Int) = _
  rw [BitVec.toNat_sub]
  split at low <;> split at high <;> omega

theorem longBetween_exact (least bound : Int64) (g : Generator) :
    longBetween least bound g = some (Generator.longBetween least bound g) := by
  by_cases refused : bound ≤ least
  · rw [longBetween, Generator.longBetween, if_pos refused, if_pos refused]
    rfl
  · have less : least.toInt < bound.toInt := by simpa [Int64.le_iff_toInt_le] using refused
    have lowest := least.le_toInt
    have limit := bound.toInt_lt
    have last : Int64.maxValue.toInt = 2 ^ 63 - 1 := rfl
    have span := toNat_span less
    rw [longBetween, Generator.longBetween, if_neg refused, if_neg refused]
    dsimp only
    rw [← span, Int.toNat_natCast, last]
    generalize (bound.toUInt64 - least.toUInt64).toNat = n at span
    by_cases short : n < 2 ^ 63
    · rw [if_neg (by omega), if_pos short, int64_eq (by omega) (by omega), pure_bind,
        Int64.ofInt_eq_ofNat]
      refine bind_exact (longBelow_of_belowLong (by omega) short g) fun x drawn => ?_
      have inside := belowLong_lt (by omega) drawn
      rw [Int64.toInt_ofNat_of_lt (by omega), int64_eq (by omega) (by omega)]
      rfl
    · rw [if_pos (by omega), if_neg short]
      exact untilAccepted_draw _ period g

/-! ### Identifiers -/

theorem subtractBytes_exact (as bs : List UInt8) :
    subtractBytes as bs =
      pure ((Identifier.subtractBytes as bs).1, .ofNat (Identifier.subtractBytes as bs).2) := by
  induction as generalizing bs with
  | nil => rfl
  | cons a as ih =>
    obtain _ | ⟨b, bs⟩ := bs
    · rfl
    · have small := Identifier.borrow_le as bs
      have byteA : a.toNat < 256 := a.toNat_lt
      have byteB : b.toNat < 256 := b.toNat_lt
      rw [subtractBytes, ih, pure_bind, Identifier.subtractBytes]
      dsimp only
      rw [int32_eq (by omega) (by omega), pure_bind, Int32.toInt_ofInt_of_le (by omega) (by omega),
        Int32.toInt_ofNat_of_lt (by omega), int32_eq (by omega) (by omega), pure_bind,
        Int32.toInt_ofInt_of_le (by omega) (by omega)]
      generalize (Identifier.subtractBytes as bs).2 = borrow at *
      by_cases short : a.toNat < b.toNat + borrow
      · rw [if_pos (by omega), if_pos short, int32_eq (by omega) (by omega), pure_bind,
          Int32.toInt_ofInt_of_le (by omega) (by omega)]
        have lent : ((a.toNat : Int) - b.toNat - borrow + 256).toNat =
            256 + a.toNat - (b.toNat + borrow) := by omega
        rw [lent]
        rfl
      · rw [if_neg (by omega), if_neg short]
        have whole : UInt8.ofNat ((a.toNat : Int) - b.toNat - borrow).toNat =
            UInt8.ofNat (256 + a.toNat - (b.toNat + borrow)) := by
          rw [← UInt8.toNat_inj, UInt8.toNat_ofNat', UInt8.toNat_ofNat']
          omega
        rw [whole]
        rfl

theorem subtract_exact (a b : Identifier) : subtract a b = pure (a.subtract b) := by
  rw [subtract, subtractBytes_exact, pure_bind]
  exact dif_pos (a.subtract b).size

theorem identifierBelow_exact (bound : Identifier) (g : Generator) :
    identifierBelow bound g = some (Generator.identifierBelow bound g) := by
  by_cases refused : bound.isZero
  · rw [identifierBelow, Generator.identifierBelow, if_pos refused, if_pos refused]
    rfl
  · have bits := bound.bitLength_le
    have held : bytesFor bound.bitLength = (bound.bitLength + 7) / 8 := rfl
    have leading : (20 - ((bound.bitLength : Int) + 7) / 8).toNat =
        20 - bytesFor bound.bitLength := by omega
    have drawn : 20 - (20 - bytesFor bound.bitLength) = bytesFor bound.bitLength := by omega
    have rest : (bound.bitLength : Int) % 8 = (bound.bitLength % 8 : Nat) := rfl
    have tail : Int32.ofNat (bound.bitLength % 8) = 0 ↔ bound.bitLength % 8 = 0 := by
      rw [← Int32.toInt_inj, Int32.toInt_ofNat_of_lt (by omega)]
      exact Int.natCast_eq_zero
    rw [identifierBelow, Generator.identifierBelow, if_neg refused, if_neg refused,
      int32_eq (by omega) (by omega), pure_bind, Int32.toInt_ofInt_of_le (by omega) (by omega),
      int32_eq (by omega) (by omega), pure_bind, Int32.toInt_ofInt_of_le (by omega) (by omega),
      Int.tdiv_eq_ediv_of_nonneg (by omega), int32_eq (by omega) (by omega), pure_bind,
      Int32.toInt_ofInt_of_le (by omega) (by omega), size, if_pos (by omega), pure_bind,
      Int.tmod_eq_emod_of_nonneg (by omega), int32_eq (by omega) (by omega), pure_bind]
    dsimp only
    rw [leading, drawn, rest, Int32.ofInt_eq_ofNat, Int32.toInt_ofNat_of_lt (by omega),
      Int.toNat_natCast, if_congr tail rfl rfl]
    exact untilAccepted_draw (identifierTrial bound) period g

theorem identifierBetween_exact (least bound : Identifier) (g : Generator) :
    identifierBetween least bound g = some (Generator.identifierBetween least bound g) := by
  by_cases refused : ¬ least < bound
  · rw [identifierBetween, Generator.identifierBetween, if_pos refused, if_pos refused]
    rfl
  · rw [identifierBetween, Generator.identifierBetween, if_neg refused, if_neg refused,
      subtract_exact, pure_bind]
    refine bind_exact (f := id) ?_ fun x _ => rfl
    rw [identifierBelow_exact]
    exact congrArg (fun a : Attempt Identifier => some (a g))
      (bind_pure (Generator.identifierBelow (bound.subtract least))).symm

end VesselRelay.Generator.Checked
