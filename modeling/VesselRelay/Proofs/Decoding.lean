import VesselRelay.Proofs.Decimal.Nearest
import VesselRelay.Proofs.Grammar
import VesselRelay.Proofs.Json.Reader

/-!
How decoding fails. A decoder that is handed a JSON value refuses it by decode faults only; a text
may also hold a number beyond every double, which is told in another way, and only where reading
comes to that number with all before it in order.
-/
namespace VesselRelay
namespace Json
open Binary64 (limit)

/-! ### Numbers beyond every double -/

/-- Whether a numeral beyond every double stands at the front of a text. -/
def Beyond (cs : List Char) : Prop :=
  ∃ n rest, numeral cs = .ok (n, rest) ∧ limit ≤ n.magnitude.value

theorem float_eq_numberRange {n : Numeral} :
    n.float = .error .numberRange ↔ limit ≤ n.magnitude.value := by
  unfold Numeral.float
  dsimp only
  split
  · rename_i finite
    simp [not_le.mpr ((Decimal.isFinite_nearest_iff _).mp finite)]
  · rename_i infinite
    rw [Decimal.isFinite_nearest_iff, not_lt] at infinite
    simp [infinite]

theorem two_pow_lt_limit : (2 : ℚ) ^ 64 < limit := by
  rw [Binary64.limit_eq]
  have wide : (2 : ℚ) ^ 64 ≤ 2 ^ (971 : Int) := by
    rw [← zpow_natCast]
    exact zpow_le_zpow_right₀ (by norm_num) (by norm_num)
  have pos : (0 : ℚ) < 2 ^ (971 : Int) := zpow_pos (by norm_num) _
  calc (2 : ℚ) ^ 64 ≤ 2 ^ (971 : Int) := wide
    _ < (2 ^ 53 - 1 / 2) * 2 ^ (971 : Int) := lt_mul_of_one_lt_left pos (by norm_num)

/-- What is kept as a whole number is well below the limit. -/
theorem value_eq_numberRange {n : Numeral} :
    n.value = .error .numberRange ↔ limit ≤ n.magnitude.value := by
  have whole (plain : n.fraction.isNone && n.exponent.isNone)
      (small : Decimal.ofDigits n.whole ≤ 2 ^ 64) : n.magnitude.value < limit := by
    rw [Bool.and_eq_true, Option.isNone_iff_eq_none, Option.isNone_iff_eq_none] at plain
    have same : n.magnitude.value = Decimal.ofDigits n.whole := by
      simp [Numeral.magnitude, Decimal.Scientific.value, plain.1, plain.2]
    rw [same]
    calc (Decimal.ofDigits n.whole : ℚ) ≤ (2 : ℚ) ^ 64 := by exact_mod_cast small
      _ < limit := two_pow_lt_limit
  unfold Numeral.value
  dsimp only
  split
  · rename_i plain
    split <;> split
    · rename_i small
      simp [not_le.mpr (whole plain (small.trans (by norm_num)))]
    · exact float_eq_numberRange
    · rename_i small
      simp [not_le.mpr (whole plain small.le)]
    · exact float_eq_numberRange
  · exact float_eq_numberRange

theorem number_eq_numberRange {cs : List Char} : number cs = .error .numberRange ↔ Beyond cs := by
  unfold number
  rw [bind_eq_error]
  constructor
  · rintro (failed | ⟨⟨n, rest⟩, read, failed⟩)
    · exact absurd failed (proceeds_numeral cs).ne_numberRange
    · rcases bind_eq_error.mp failed with failed | ⟨_, _, ⟨⟩⟩
      exact ⟨n, rest, read, value_eq_numberRange.mp failed⟩
  · rintro ⟨n, rest, read, beyond⟩
    refine .inr ⟨(n, rest), read, ?_⟩
    dsimp only
    rw [value_eq_numberRange.mpr beyond]
    rfl

/-! ### Where reading comes to -/

/-- What a reader is asked for. -/
inductive Part
  | value | items | members

/-- Whether reading a part of a text comes to a value that stands at `here`, with all before it in
order. -/
inductive ComesTo (here : List Char) : Part → List Char → Prop
  | here {cs : List Char} (place : skipBlanks cs = here) : ComesTo here .value cs
  | list {cs rest : List Char} (opened : skipBlanks cs = '[' :: rest)
      (filled : ∀ after, skipBlanks rest ≠ ']' :: after)
      (inside : ComesTo here .items (skipBlanks rest)) : ComesTo here .value cs
  | object {cs rest : List Char} (opened : skipBlanks cs = '{' :: rest)
      (filled : ∀ after, skipBlanks rest ≠ '}' :: after)
      (inside : ComesTo here .members (skipBlanks rest)) : ComesTo here .value cs
  | item {cs : List Char} (first : ComesTo here .value cs) : ComesTo here .items cs
  | laterItem {cs rest after : List Char} {v : Json} (first : readValue cs = .ok (v, rest))
      (comma : skipBlanks rest = ',' :: after) (later : ComesTo here .items after) :
      ComesTo here .items cs
  | member {cs rest after held : List Char} {name : String} (quote : skipBlanks cs = '"' :: rest)
      (named : stringToken rest = .ok (name, after)) (colon : skipBlanks after = ':' :: held)
      (first : ComesTo here .value held) : ComesTo here .members cs
  | laterMember {cs rest after held last others : List Char} {name : String} {v : Json}
      (quote : skipBlanks cs = '"' :: rest) (named : stringToken rest = .ok (name, after))
      (colon : skipBlanks after = ':' :: held) (first : readValue held = .ok (v, last))
      (comma : skipBlanks last = ',' :: others) (later : ComesTo here .members others) :
      ComesTo here .members cs

/-- Whether reading a part fails on a number beyond every double. -/
def Part.Overflows : Part → List Char → Prop
  | .value, cs => readValue cs = .error .numberRange
  | .items, cs => readItems cs = .error .numberRange
  | .members, cs => readMembers cs = .error .numberRange

variable {here cs : List Char}

theorem overflows_of_comesTo {part : Part} (beyond : Beyond here) (comes : ComesTo here part cs) :
    part.Overflows cs := by
  induction comes with
  | here place =>
    obtain ⟨n, rest, read, far⟩ := beyond
    rw [Part.Overflows, readValue, value_of_numeral _ place read]
    exact number_eq_numberRange.mpr ⟨n, rest, read, far⟩
  | list opened filled inside ih =>
    exact (readValue_list opened filled).trans (map_eq_error.mpr ih)
  | object opened filled inside ih =>
    exact (readValue_object opened filled).trans (map_eq_error.mpr ih)
  | item first ih => exact readItems_of_error ih
  | laterItem first comma later ih =>
    exact (readItems_later first comma).trans (map_eq_error.mpr ih)
  | member quote named colon first ih => exact readMembers_of_error quote named colon ih
  | laterMember quote named colon first comma later ih =>
    exact (readMembers_later quote named colon first comma).trans (map_eq_error.mpr ih)

/-- Whether a part of a text comes to a number beyond every double. -/
def ComesBeyond (part : Part) (cs : List Char) : Prop := ∃ here, ComesTo here part cs ∧ Beyond here

theorem ComesBeyond.step {part whole : Part} {inner : List Char} (beyond : ComesBeyond part inner)
    (step : ∀ here, ComesTo here part inner → ComesTo here whole cs) : ComesBeyond whole cs := by
  obtain ⟨here, comes, far⟩ := beyond
  exact ⟨here, step here comes, far⟩

/-- The readers are followed along their fuel, of which there is enough. -/
theorem comesBeyond_of_overflow (fuel : Nat) :
    (∀ cs, 2 * cs.length + 1 ≤ fuel → value fuel cs = .error .numberRange →
      ComesBeyond .value cs) ∧
    (∀ cs, 2 * cs.length + 2 ≤ fuel → items fuel cs = .error .numberRange →
      ComesBeyond .items cs) ∧
    (∀ cs, 2 * cs.length + 2 ≤ fuel → members fuel cs = .error .numberRange →
      ComesBeyond .members cs) := by
  induction fuel with
  | zero => exact ⟨fun cs enough => by omega, fun cs enough => by omega, fun cs enough => by omega⟩
  | succ fuel ih =>
    obtain ⟨ofValue, ofItems, ofMembers⟩ := ih
    refine ⟨fun cs enough failed => ?_, fun cs enough failed => ?_, fun cs enough failed => ?_⟩
    · rw [value] at failed
      split at failed
      case h_1 => cases failed
      case h_2 => exact absurd (map_eq_error.mp failed) (proceeds_stringToken _).ne_numberRange
      case h_3 rest opened =>
        have shorter := length_lt_of_skipBlanks opened
        have within := (skipBlanks_suffix rest).length_le
        split at failed
        · cases failed
        · rename_i filled
          refine (ofItems _ (by omega) (map_eq_error.mp failed)).step fun here inside => ?_
          exact .list opened filled inside
      case h_4 rest opened =>
        have shorter := length_lt_of_skipBlanks opened
        have within := (skipBlanks_suffix rest).length_le
        split at failed
        · cases failed
        · rename_i filled
          refine (ofMembers _ (by omega) (map_eq_error.mp failed)).step fun here inside => ?_
          exact .object opened filled inside
      -- of what is neither a list nor an object only a number fails so
      case h_8 => exact ⟨_, .here rfl, number_eq_numberRange.mp failed⟩
      all_goals exact absurd failed (proceeds_keyword _ _ _).ne_numberRange
    · rw [items, bind_eq_error] at failed
      rcases failed with failed | ⟨⟨v, rest⟩, first, failed⟩
      · exact (ofValue cs (by omega) failed).step fun here first => .item first
      · have left := (((proceeds_read fuel).1 cs).leaves _ _ first).length_le
        rw [value_eq_readValue (by omega)] at first
        dsimp only at failed
        split at failed
        · rename_i comma
          have shorter := length_lt_of_skipBlanks comma
          refine (ofItems _ (by omega) (map_eq_error.mp failed)).step fun here later => ?_
          exact .laterItem first comma later
        · cases failed
        · cases failed
    · rw [members] at failed
      split at failed
      · rename_i quote
        have shorter := length_lt_of_skipBlanks quote
        rcases bind_eq_error.mp failed with failed | ⟨⟨name, after⟩, named, failed⟩
        · exact absurd failed (proceeds_stringToken _).ne_numberRange
        have left := ((proceeds_stringToken _).leaves _ _ named).length_le
        dsimp only at failed
        split at failed
        · rename_i colon
          have further := length_lt_of_skipBlanks colon
          rcases bind_eq_error.mp failed with failed | ⟨⟨v, last⟩, first, failed⟩
          · refine (ofValue _ (by omega) failed).step fun here first => ?_
            exact .member quote named colon first
          · have leftLast := (((proceeds_read fuel).1 _).leaves _ _ first).length_le
            rw [value_eq_readValue (by omega)] at first
            dsimp only at failed
            split at failed
            · rename_i comma
              have least := length_lt_of_skipBlanks comma
              refine (ofMembers _ (by omega) (map_eq_error.mp failed)).step fun here later => ?_
              exact .laterMember quote named colon first comma later
            · cases failed
            · cases failed
        · cases failed
      · cases failed

theorem parse_eq_numberRange {text : String} :
    parse text = .error .numberRange ↔ ComesBeyond .value (body text) := by
  rw [parse_eq, bind_eq_error]
  constructor
  · rintro (failed | ⟨⟨result, rest⟩, _, failed⟩)
    · exact (comesBeyond_of_overflow _).1 _ le_rfl failed
    · dsimp only at failed
      split at failed <;> cases failed
  · rintro ⟨here, comes, beyond⟩
    exact .inl (overflows_of_comesTo beyond comes)

/-- Parsing fails on the encoding, or on a number beyond every double. -/
theorem fails_parse {text : String} {failure : Failure} (failed : parse text = .error failure) :
    failure = .decode .malformed ∨ failure = .numberRange := by
  rw [parse_eq] at failed
  rcases bind_eq_error.mp failed with failed | ⟨⟨result, rest⟩, _, failed⟩
  · simpa [valueRefusals] using (proceeds_readValue _).fails failure failed
  · dsimp only at failed
    split at failed <;> cases failed
    exact .inl rfl

end Json

theorem Fix.onlyDecodeFaults_ofJson (source : Json) : OnlyDecodeFaults (ofJson source) := by
  apply OnlyDecodeFaults.bind (Position.onlyDecodeFaults_ofJson source)
  intro position _
  apply OnlyDecodeFaults.bind (Json.onlyDecodeFaults_readInt64Or source _ _)
  intro time _
  exact .ok _

/-- How a decoder of texts fails: by a decode fault, unless reading comes to a number beyond every
double. -/
structure FailsBy {α : Type} (text : String) (result : Except Failure α) : Prop where
  kinds : ∀ failure, result = .error failure →
    (∃ fault, failure = .decode fault) ∨ failure = .numberRange
  range : result = .error .numberRange ↔ Json.ComesBeyond .value (Json.body text)

theorem failsBy_of_onlyDecodeFaults {α : Type} {read : Json → Except Failure α}
    (only : ∀ source, OnlyDecodeFaults (read source)) (text : String) :
    FailsBy text (Json.parse text >>= read) where
  kinds failure failed := by
    rcases bind_eq_error.mp failed with failed | ⟨source, _, failed⟩
    · exact (Json.fails_parse failed).imp_left fun malformed => ⟨_, malformed⟩
    · exact .inl (only source failure failed)
  range := by
    rw [← Json.parse_eq_numberRange, bind_eq_error]
    constructor
    · rintro (failed | ⟨source, _, failed⟩)
      · exact failed
      · obtain ⟨_, other⟩ := only source _ failed
        cases other
    · exact .inl

/-- Decoding a text fails by decode faults, and in one other way, exactly where reading comes to a
number beyond every double. -/
theorem decode_fails (text : String) :
    FailsBy text (Position.decode text) ∧ FailsBy text (Fix.decode text) ∧
      FailsBy text (Area.decode text) :=
  ⟨failsBy_of_onlyDecodeFaults Position.onlyDecodeFaults_ofJson text,
    failsBy_of_onlyDecodeFaults Fix.onlyDecodeFaults_ofJson text,
    failsBy_of_onlyDecodeFaults Area.onlyDecodeFaults_ofJson text⟩

/-- The least power of ten that is beyond every double. -/
theorem Json.beyond_power : Beyond ['1', 'e', '3', '0', '9'] := by
  let power : Numeral := ⟨false, ['1'], none, some (false, ['3', '0', '9'])⟩
  have infinite : power.magnitude.nearest.isFinite = false := by decide +kernel
  have read : numeral ['1', 'e', '3', '0', '9'] = .ok (power, []) := rfl
  refine ⟨power, [], read, not_lt.mp fun below => ?_⟩
  rw [(Decimal.isFinite_nearest_iff _).mpr below] at infinite
  cases infinite

/-- It is found behind a string, in a list that is never closed. -/
theorem decode_fails_in_list : FailsBy "[\"a\", 1e309" (Area.decode "[\"a\", 1e309") ∧
    Area.decode "[\"a\", 1e309" = .error .numberRange := by
  have comes : Json.ComesTo ['1', 'e', '3', '0', '9'] .value (Json.body "[\"a\", 1e309") := by
    have text : Json.body "[\"a\", 1e309" =
        ['[', '"', 'a', '"', ',', ' ', '1', 'e', '3', '0', '9'] := by decide +kernel
    rw [text]
    refine .list rfl (fun after closed => by cases closed) ?_
    exact .laterItem rfl rfl (.item (.here rfl))
  have fails := (decode_fails "[\"a\", 1e309").2.2
  exact ⟨fails, fails.range.mpr ⟨_, comes, Json.beyond_power⟩⟩

theorem endless_number_escapes :
    Position.decode "1e309" = .error .numberRange ∧ Fix.decode "1e309" = .error .numberRange ∧
      Area.decode "1e309" = .error .numberRange := by
  have text : Json.skipBlanks (Json.body "1e309") = ['1', 'e', '3', '0', '9'] := by decide +kernel
  have failed : Json.parse "1e309" = .error .numberRange :=
    Json.parse_eq_numberRange.mpr ⟨_, .here text, Json.beyond_power⟩
  refine ⟨?_, ?_, ?_⟩
  · rw [Position.decode, failed, bind_error]
  · rw [Fix.decode, failed, bind_error]
  · rw [Area.decode, failed, bind_error]

end VesselRelay
