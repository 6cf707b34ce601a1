import VesselRelay.Proofs.Binary64.Number
import VesselRelay.Proofs.Grammar

/-!
Whole numbers as they are read. What fits 64 bits with a sign is read as it is, and what is not
written as a whole number is refused; but a whole number that only a word without a sign holds is
taken `2 ^ 64` too low, and a reader of 32 bits asks for the range of what has been taken.
-/
namespace VesselRelay
namespace Json

variable {source node : Json} {field : Field} {n : Int}

/-- The number that a number node denotes; infinities and not-a-number denote none. -/
def denoted? : Json → Option ℚ
  | .int n => some n
  | .float x => Binary64.number? x
  | _ => none

/-- Whether a reader leaves a number as it is: it gives the whole number that the node denotes, or
it refuses the encoding. -/
structure Keeps (node : Json) (read : Except Failure Int) : Prop where
  given : ∀ n, read = .ok n → node.denoted? = some (n : ℚ)
  refused : OnlyDecodeFaults read

theorem keeps_int {m : Int} : Keeps (.int n) (.ok m) ↔ n = m := by
  constructor
  · intro keeps
    exact Rat.intCast_injective (Option.some.inj (keeps.given m rfl))
  · rintro rfl
    refine ⟨fun m told => ?_, .ok n⟩
    cases told
    rfl

theorem keeps_decodeFault (fault : DecodeFault) : Keeps node (decodeFault fault) := by
  refine ⟨fun n told => ?_, .decodeFault fault⟩
  cases told

/-- What 64 bits with a sign make of a whole number of 64 bits. -/
def signed (n : Int) : Int := if n < 2 ^ 63 then n else n - 2 ^ 64

theorem toInt_ofInt (sized : (Json.int n).wordSized) : (Int64.ofInt n).toInt = signed n := by
  simp only [wordSized, decide_eq_true_eq] at sized
  simp only [Int64.toInt_ofInt, signed, Int.bmod_def, Int64.size]
  omega

theorem eq_signed_iff : n = signed n ↔ n < 2 ^ 63 := by
  unfold signed
  split <;> omega

/-! ### 64 bits -/

theorem readInt64_int (sized : source.wordSized)
    (found : source.member? field.name = some (.int n)) :
    (source.readInt64 field).map Int64.toInt = .ok (signed n) := by
  rw [readInt64_eq_ok.mpr ⟨n, found, rfl⟩, Except.map, toInt_ofInt (wordSized_member? sized found)]

theorem readInt64_float {x : Float} (found : source.member? field.name = some (.float x)) :
    source.readInt64 field = decodeFault (.notInteger field) := by
  rw [readInt64, field_eq_ok.mpr found]
  rfl

/-- Only what needs a word without a sign is changed. -/
theorem keeps_readInt64_iff (sized : source.wordSized)
    (found : source.member? field.name = some node) (number : node.number?.isSome) :
    Keeps node ((source.readInt64 field).map Int64.toInt) ↔ ∀ n, node = .int n → n < 2 ^ 63 := by
  cases node with
  | int n =>
    rw [readInt64_int sized found, keeps_int, eq_signed_iff]
    simp
  | float x =>
    rw [readInt64_float found]
    exact iff_of_true (keeps_decodeFault _) fun n other => by cases other
  | _ => cases number

/-! ### 32 bits -/

theorem outside_iff {v : Int64} : v < Int32.minValue.toInt64 ∨ Int32.maxValue.toInt64 < v ↔
    ¬ (-2 ^ 31 ≤ v.toInt ∧ v.toInt < 2 ^ 31) := by
  rw [Int64.lt_iff_toInt_lt, Int64.lt_iff_toInt_lt, Int32.toInt_toInt64, Int32.toInt_toInt64,
    Int32.toInt_minValue, Int32.toInt_maxValue]
  omega

theorem readInt32_int (sized : source.wordSized)
    (found : source.member? field.name = some (.int n)) :
    (source.readInt32 field).map Int32.toInt =
      if -2 ^ 31 ≤ signed n ∧ signed n < 2 ^ 31 then .ok (signed n)
      else decodeFault (.tooWide field (signed n)) := by
  have taken := toInt_ofInt (wordSized_member? sized found)
  rw [readInt32, readInt64_eq_ok.mpr ⟨n, found, rfl⟩, bind_ok, ← taken]
  split
  · rename_i outside
    rw [if_neg (outside_iff.mp outside)]
    rfl
  · rename_i inside
    rw [if_pos (not_not.mp (outside_iff.not.mp inside))]
    rw [not_or, Int64.not_lt, Int64.not_lt] at inside
    have same := congrArg Int64.toInt (toInt64_toInt32 inside.1 inside.2)
    rw [Int32.toInt_toInt64] at same
    exact congrArg Except.ok same

theorem readInt32_float {x : Float} (found : source.member? field.name = some (.float x)) :
    source.readInt32 field = decodeFault (.notInteger field) := by
  rw [readInt32, readInt64_float found]
  rfl

/-- Of what needs a word without a sign only the last `2 ^ 31` numbers come out narrow enough not to
be refused. -/
theorem keeps_readInt32_iff (sized : source.wordSized)
    (found : source.member? field.name = some node) (number : node.number?.isSome) :
    Keeps node ((source.readInt32 field).map Int32.toInt) ↔
      ∀ n, node = .int n → n < 2 ^ 64 - 2 ^ 31 := by
  have width := wordSized_member? sized found
  cases node with
  | int n =>
    simp only [wordSized, decide_eq_true_eq] at width
    rw [readInt32_int sized found]
    simp only [int.injEq, forall_eq']
    split
    · rename_i narrow
      rw [keeps_int, eq_signed_iff]
      unfold signed at narrow
      split at narrow <;> omega
    · rename_i wide
      refine iff_of_true (keeps_decodeFault _) ?_
      unfold signed at wide
      split at wide <;> omega
  | float x =>
    rw [readInt32_float found]
    exact iff_of_true (keeps_decodeFault _) fun n other => by cases other
  | _ => cases number

end Json

open Json (Keeps signed decodeFault)

/-- A fix that is read from a message with a time has read it as 64 bits with a sign. -/
theorem Fix.time_of_ofJson {source node : Json} {fix : Fix} (sized : source.wordSized)
    (read : ofJson source = .ok fix) (found : source.member? "time" = some node) :
    ∃ n, node = .int n ∧ fix.time.toInt = signed n := by
  obtain ⟨position, _, read⟩ := bind_eq_ok.mp read
  obtain ⟨time, readTime, made⟩ := bind_eq_ok.mp read
  cases made
  rcases Json.readInt64Or_eq_ok.mp readTime with ⟨absent, _⟩ | ⟨n, present, rfl⟩
  · cases found.symm.trans absent
  · have same : node = .int n := Option.some.inj (found.symm.trans present)
    exact ⟨n, same, Json.toInt_ofInt (Json.wordSized_member? sized present)⟩

/-- How the numbers of a message are read as whole numbers. -/
structure WholesRead (source : Json) : Prop where
  /-- At 64 bits a number is changed only where it is whole and needs a word without a sign. -/
  long : ∀ field node, source.member? field.name = some node → node.number?.isSome →
    (Keeps node ((source.readInt64 field).map Int64.toInt) ↔ ∀ n, node = .int n → n < 2 ^ 63)
  longTold : ∀ field n, source.member? field.name = some (.int n) →
    (source.readInt64 field).map Int64.toInt = .ok (signed n)
  /-- What may be left out is read in the same way where it is not. -/
  present : ∀ field node fallback, source.member? field.name = some node →
    source.readInt64Or field fallback = source.readInt64 field
  /-- At 32 bits it is changed only where it lies within `2 ^ 31` below `2 ^ 64`. -/
  short : ∀ field node, source.member? field.name = some node → node.number?.isSome →
    (Keeps node ((source.readInt32 field).map Int32.toInt) ↔
      ∀ n, node = .int n → n < 2 ^ 64 - 2 ^ 31)
  shortTold : ∀ field n, source.member? field.name = some (.int n) →
    (source.readInt32 field).map Int32.toInt =
      if -2 ^ 31 ≤ signed n ∧ signed n < 2 ^ 31 then .ok (signed n)
      else decodeFault (.tooWide field (signed n))
  time : ∀ fix node, Fix.ofJson source = .ok fix → source.member? "time" = some node →
    ∃ n, node = .int n ∧ fix.time.toInt = signed n

/-- In a message whose whole numbers are of 64 bits, signed or unsigned, as in every parsed one, the
readers of whole numbers leave every number as it is or refuse it, but for the unsigned ones whose
highest bits are set. -/
theorem wholesRead {source : Json} (sized : source.wordSized) : WholesRead source where
  long _ _ := Json.keeps_readInt64_iff sized
  longTold _ _ := Json.readInt64_int sized
  present field node fallback found := by
    rw [Json.readInt64Or, Json.carries_eq, found]
    rfl
  short _ _ := Json.keeps_readInt32_iff sized
  shortTold _ _ := Json.readInt32_int sized
  time _ _ := Fix.time_of_ofJson sized

/-- The last moment that 64 bits with a sign tell is read as it is, and is too wide for 32 bits. -/
theorem wholesRead_of_last_moment :
    let source : Json := .object [("time", .int (2 ^ 63 - 1))]
    source.wordSized ∧ WholesRead source ∧
      (source.readInt64 Wire.time).map Int64.toInt = .ok (2 ^ 63 - 1) ∧
      (source.readInt32 Wire.time).map Int32.toInt =
        decodeFault (.tooWide Wire.time (2 ^ 63 - 1)) := by
  have sized : (Json.object [("time", .int (2 ^ 63 - 1))]).wordSized := by decide
  have reads := wholesRead sized
  exact ⟨sized, reads, reads.longTold Wire.time _ rfl, reads.shortTold Wire.time _ rfl⟩

/-- The greatest number of 64 bits is read as minus one by both readers, and a fix that has it for
its time is put before the epoch. -/
theorem greatest_unsigned_changed :
    let node : Json := .int (2 ^ 64 - 1)
    let source : Json := .object [("latitude", .int 0), ("longitude", .int 0), ("time", node)]
    source.wordSized ∧ ¬ Keeps node ((source.readInt64 Wire.time).map Int64.toInt) ∧
      ¬ Keeps node ((source.readInt32 Wire.time).map Int32.toInt) ∧
      (Fix.ofJson source).map (·.time) = .ok (-1) := by
  refine ⟨by decide, fun kept => ?_, fun kept => ?_, by decide +kernel⟩
  · have given : (-1 : Int) = 2 ^ 64 - 1 := (Json.keeps_int.mp kept).symm
    omega
  · have given : (-1 : Int) = 2 ^ 64 - 1 := (Json.keeps_int.mp kept).symm
    omega

end VesselRelay
