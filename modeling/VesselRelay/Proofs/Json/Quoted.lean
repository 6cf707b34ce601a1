import VesselRelay.Json.Parser
import VesselRelay.Json.Printer

/-!
Strings are read back from their text, character by character: every round of reading undoes one
escape.
-/
namespace VesselRelay.Json

/-- The four digits in which a control is escaped. -/
theorem control_digits : ∀ n < 32,
    List.replicate (4 - (Nat.toDigits 16 n).length) '0' ++ Nat.toDigits 16 n =
      ['0', '0', Nat.digitChar (n / 16), Nat.digitChar (n % 16)] := by
  decide

theorem hexDigit?_digitChar : ∀ d < 16, hexDigit? (Nat.digitChar d) = some d := by
  decide

/-- Every round of reading a string undoes one escape. -/
theorem stringBody_escape (fuel : Nat) (c : Char) (cs : List Char) :
    stringBody (fuel + 1) (escape c ++ cs) =
      (stringBody fuel cs).map fun (body, rest) => (c :: body, rest) := by
  by_cases quote : c = '"'
  · subst quote; rfl
  by_cases backslash : c = '\\'
  · subst backslash; rfl
  by_cases backspace : c = '\x08'
  · subst backspace; rfl
  by_cases feed : c = '\x0c'
  · subst feed; rfl
  by_cases newline : c = '\n'
  · subst newline; rfl
  by_cases carriage : c = '\r'
  · subst carriage; rfl
  by_cases tab : c = '\t'
  · subst tab; rfl
  by_cases control : c.toNat < 32
  · have high := hexDigit?_digitChar (c.toNat / 16) (by omega)
    have low := hexDigit?_digitChar (c.toNat % 16) (by omega)
    have zero : hexDigit? '0' = some 0 := by decide
    have same : 16 * (c.toNat / 16) + c.toNat % 16 = c.toNat := Nat.div_add_mod _ _
    have escaped : escape c ++ cs = '\\' :: 'u' :: '0' :: '0' ::
        Nat.digitChar (c.toNat / 16) :: Nat.digitChar (c.toNat % 16) :: cs := by
      simp only [escape, quote, backslash, backspace, feed, newline, carriage, tab, control,
        if_true, if_false]
      rw [List.cons_append, List.cons_append, control_digits _ control]
      rfl
    have unescaped : escape? ('u' :: '0' :: '0' ::
        Nat.digitChar (c.toNat / 16) :: Nat.digitChar (c.toNat % 16) :: cs) = some (c, cs) := by
      simp only [escape?, unit?, zero, high, low]
      rw [if_neg (by omega), if_neg (by omega), Nat.mul_zero, Nat.zero_add, same,
        Char.ofNat_toNat]
    rw [escaped, stringBody, if_neg (by decide), if_pos rfl, unescaped]
  · have plain : escape c = [c] := by
      simp [escape, quote, backslash, backspace, feed, newline, carriage, tab, control]
    rw [plain, List.singleton_append, stringBody, if_neg quote, if_neg backslash, if_neg control]

theorem stringBody_flatMap (chars rest : List Char) (fuel : Nat) (enough : chars.length < fuel) :
    stringBody fuel (chars.flatMap escape ++ '"' :: rest) = .ok (chars, rest) := by
  induction chars generalizing fuel with
  | nil =>
    obtain ⟨fuel, rfl⟩ : ∃ k, fuel = k + 1 := ⟨fuel - 1, by simp at enough; omega⟩
    rfl
  | cons c chars ih =>
    obtain ⟨fuel, rfl⟩ : ∃ k, fuel = k + 1 := ⟨fuel - 1, by simp at enough; omega⟩
    have inner := ih fuel (by simpa using enough)
    rw [List.flatMap_cons, List.append_assoc, stringBody_escape, inner]
    rfl

theorem length_flatMap_escape (chars : List Char) :
    chars.length ≤ (chars.flatMap escape).length := by
  induction chars with
  | nil => exact Nat.le_refl 0
  | cons c chars ih =>
    have written : 0 < (escape c).length := by
      unfold escape
      repeat' split
      all_goals simp
    rw [List.flatMap_cons, List.length_append, List.length_cons]
    omega

/-- A string is read back from its text. -/
theorem stringToken_quoted (s : String) (rest : List Char) :
    stringToken (s.toList.flatMap escape ++ '"' :: rest) = .ok (s, rest) := by
  have length := length_flatMap_escape s.toList
  unfold stringToken
  rw [stringBody_flatMap s.toList rest _ (by rw [List.length_append, List.length_cons]; omega)]
  simp [Except.map]

end VesselRelay.Json
