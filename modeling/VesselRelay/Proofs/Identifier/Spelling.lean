import VesselRelay.Identifier.Text
import VesselRelay.Proofs.Identifier.Residue

/-!
The written form of identifiers. Bytes are read exactly where they are the codes of forty
hexadecimal digits, of either case, and each refusal is one of an argument. What is written is read
back; what is read is written again in lower case; and texts stand in the order of the identifiers.
-/
namespace VesselRelay

namespace Hex

/-- The code of a character, where that is one byte. -/
def codeOf (c : Char) : UInt8 := UInt8.ofNat c.toNat

/-- Whether a code is that of a hexadecimal digit. -/
def IsDigit (code : UInt8) : Prop := code ∈ (lowerDigits ++ upperDigits).map codeOf

instance (code : UInt8) : Decidable (IsDigit code) :=
  inferInstanceAs (Decidable (code ∈ (lowerDigits ++ upperDigits).map codeOf))

/-- The code of a letter in lower case; any other code is kept. -/
def lowerCode (code : UInt8) : UInt8 := if 65 ≤ code ∧ code ≤ 90 then code + 32 else code

/-- The codes of written bytes. -/
def codes (bytes : List UInt8) : List UInt8 := (chars bytes).map codeOf

/-! ### Digits -/

theorem digit?_spec (code : UInt8) :
    (IsDigit code ∧ ∃ v < 16, digit? code = some v ∧ codeOf (lower v) = lowerCode code) ∨
      (¬ IsDigit code ∧ digit? code = none) := by
  have all : ∀ n < 256, (IsDigit (.ofNat n) ∧ ∃ v < 16, digit? (.ofNat n) = some v ∧
      codeOf (lower v) = lowerCode (.ofNat n)) ∨
      (¬ IsDigit (.ofNat n) ∧ digit? (.ofNat n) = none) := by
    decide +kernel
  simpa using all code.toNat code.toNat_lt

theorem digit?_lower {v : Nat} (small : v < 16) : digit? (codeOf (lower v)) = some v := by
  have all : ∀ v < 16, digit? (codeOf (lower v)) = some v := by decide
  exact all v small

theorem lower_lt_iff {m n : Nat} (hm : m < 16) (hn : n < 16) :
    (lower m < lower n ↔ m < n) ∧ (lower m = lower n ↔ m = n) := by
  have all : ∀ m < 16, ∀ n < 16, (lower m < lower n ↔ m < n) ∧ (lower m = lower n ↔ m = n) := by
    decide
  exact all m hm n hn

theorem codeOf_lower_lt_iff {m n : Nat} (hm : m < 16) (hn : n < 16) :
    (codeOf (lower m) < codeOf (lower n) ↔ m < n) ∧
      (codeOf (lower m) = codeOf (lower n) ↔ m = n) := by
  have all : ∀ m < 16, ∀ n < 16, (codeOf (lower m) < codeOf (lower n) ↔ m < n) ∧
      (codeOf (lower m) = codeOf (lower n) ↔ m = n) := by
    decide
  exact all m hm n hn

theorem lower_mem_lowerDigits {v : Nat} (small : v < 16) : lower v ∈ lowerDigits := by
  have all : ∀ v < 16, lower v ∈ lowerDigits := by decide
  exact all v small

/-! ### Rows of digits -/

theorem length_chars (bytes : List UInt8) : (chars bytes).length = 2 * bytes.length := by
  induction bytes with
  | nil => rfl
  | cons b bytes ih =>
    change (chars bytes).length + 1 + 1 = 2 * (bytes.length + 1)
    omega

theorem mem_byteText {b : UInt8} {c : Char} (written : c ∈ byteText b) : c ∈ lowerDigits := by
  have byte := b.toNat_lt
  rcases List.mem_pair.mp written with rfl | rfl
  · exact lower_mem_lowerDigits (by omega)
  · exact lower_mem_lowerDigits (by omega)

theorem mem_chars {bytes : List UInt8} {c : Char} (written : c ∈ chars bytes) :
    c ∈ lowerDigits := by
  obtain ⟨b, _, digit⟩ := List.mem_flatMap.mp written
  exact mem_byteText digit

theorem codes_cons (b : UInt8) (bytes : List UInt8) :
    codes (b :: bytes) =
      codeOf (lower (b.toNat / 16)) :: codeOf (lower (b.toNat % 16)) :: codes bytes := rfl

theorem bytes?_codes (bytes : List UInt8) : bytes? (codes bytes) = some bytes := by
  induction bytes with
  | nil => rfl
  | cons b bytes ih =>
    have byte := b.toNat_lt
    have whole : 16 * (b.toNat / 16) + b.toNat % 16 = b.toNat := by omega
    rw [codes_cons, bytes?, byte?, digit?_lower (by omega), digit?_lower (by omega), ih]
    simp [whole]

theorem byte?_eq_some {high low b : UInt8} (read : byte? high low = some b) :
    codeOf (lower (b.toNat / 16)) = lowerCode high ∧
      codeOf (lower (b.toNat % 16)) = lowerCode low := by
  unfold byte? at read
  obtain ⟨_, h, hSmall, hRead, hLower⟩ | ⟨_, unread⟩ := digit?_spec high
  · obtain ⟨_, l, lSmall, lRead, lLower⟩ | ⟨_, unread⟩ := digit?_spec low
    · rw [hRead, lRead] at read
      obtain rfl := Option.some.inj read
      have number : (UInt8.ofNat (16 * h + l)).toNat = 16 * h + l := by
        rw [UInt8.toNat_ofNat']
        omega
      have first : (16 * h + l) / 16 = h := by omega
      have second : (16 * h + l) % 16 = l := by omega
      rw [number, first, second]
      exact ⟨hLower, lLower⟩
    · simp [unread] at read
  · simp [unread] at read

/-- Whatever is read is written again in lower case. -/
theorem codes_of_bytes? : ∀ {given bytes : List UInt8},
    bytes? given = some bytes → codes bytes = given.map lowerCode
  | [], _, read => by cases read; rfl
  | [_], _, read => by cases read
  | high :: low :: rest, _, read => by
    simp only [bytes?] at read
    split at read
    · rename_i b bs first later
      cases read
      obtain ⟨highs, lows⟩ := byte?_eq_some first
      rw [codes_cons, highs, lows, codes_of_bytes? later]
      rfl
    · cases read

theorem isSome_byte?_iff (high low : UInt8) :
    (byte? high low).isSome ↔ IsDigit high ∧ IsDigit low := by
  unfold byte?
  obtain ⟨isHigh, h, _, hRead, _⟩ | ⟨notHigh, unread⟩ := digit?_spec high
  · obtain ⟨isLow, l, _, lRead, _⟩ | ⟨notLow, unread⟩ := digit?_spec low
    · simp [hRead, lRead, isHigh, isLow]
    · simp [hRead, unread, notLow]
  · simp [unread, notHigh]

theorem isSome_bytes?_iff : ∀ (given : List UInt8),
    (bytes? given).isSome ↔ given.length % 2 = 0 ∧ ∀ code ∈ given, IsDigit code
  | [] => by simp [bytes?]
  | [_] => by simp [bytes?]
  | high :: low :: rest => by
    have pair := isSome_byte?_iff high low
    have later := isSome_bytes?_iff rest
    have both : (bytes? (high :: low :: rest)).isSome ↔
        (byte? high low).isSome ∧ (bytes? rest).isSome := by
      rw [bytes?]
      cases byte? high low <;> cases bytes? rest <;> simp
    have even : (high :: low :: rest).length % 2 = rest.length % 2 := by
      simp only [List.length_cons]
      omega
    rw [both, pair, later, even]
    simp only [List.mem_cons, forall_eq_or_imp]
    tauto

/-- Bytes are in the order of their digits, whatever the digits are written as, as long as that
keeps their order. -/
theorem pairs_lt_pairs_iff {α : Type} [LT α] [Std.Irrefl (α := α) (· < ·)] {digit : Nat → α}
    (rising : ∀ {m n}, m < 16 → n < 16 → (digit m < digit n ↔ m < n) ∧ (digit m = digit n ↔ m = n))
    {as bs : List UInt8} (same : as.length = bs.length) :
    as.flatMap (fun b => [digit (b.toNat / 16), digit (b.toNat % 16)]) <
        bs.flatMap (fun b => [digit (b.toNat / 16), digit (b.toNat % 16)]) ↔ as < bs := by
  induction as generalizing bs with
  | nil =>
    obtain rfl := List.length_eq_zero_iff.mp same.symm
    simp
  | cons a as ih =>
    obtain _ | ⟨b, bs⟩ := bs
    · simp at same
    · have tails : as.length = bs.length := by simpa using same
      have byteA := a.toNat_lt
      have byteB := b.toNat_lt
      have highs := rising (m := a.toNat / 16) (n := b.toNat / 16) (by omega) (by omega)
      have lows := rising (m := a.toNat % 16) (n := b.toNat % 16) (by omega) (by omega)
      simp only [List.flatMap_cons, List.cons_append, List.nil_append, List.cons_lt_cons_iff,
        highs, lows, ih tails, UInt8.lt_iff_toNat_lt, ← UInt8.toNat_inj]
      by_cases rest : as < bs
      · simp only [rest, and_true]
        omega
      · simp only [rest, and_false, or_false]
        omega

theorem chars_lt_chars_iff {as bs : List UInt8} (same : as.length = bs.length) :
    chars as < chars bs ↔ as < bs :=
  pairs_lt_pairs_iff lower_lt_iff same

theorem codes_lt_codes_iff {as bs : List UInt8} (same : as.length = bs.length) :
    codes as < codes bs ↔ as < bs := by
  unfold codes chars
  simp only [List.map_flatMap]
  exact pairs_lt_pairs_iff codeOf_lower_lt_iff same

end Hex

/-! ### Texts as codes -/

/-- The codes of a text. -/
def codesOf (s : String) : List UInt8 := s.toUTF8.data.toList

theorem codesOf_eq (s : String) : codesOf s = s.toList.flatMap String.utf8EncodeChar := by
  have encoded : s.toByteArray = s.toList.utf8Encode := by
    conv_lhs => rw [← String.ofList_toList (s := s)]
    rfl
  unfold codesOf String.toUTF8
  rw [encoded, List.utf8Encode]
  simp

theorem codesOf_inj {s t : String} (same : codesOf s = codesOf t) : s = t := by
  unfold codesOf at same
  exact String.toByteArray_inj.mp (ByteArray.ext (Array.toList_inj.mp same))

theorem codesOf_ofList {cs : List Char} (ascii : ∀ c ∈ cs, c.toNat < 128) :
    codesOf (String.ofList cs) = cs.map Hex.codeOf := by
  rw [codesOf_eq, String.toList_ofList]
  induction cs with
  | nil => rfl
  | cons c cs ih =>
    have one : String.utf8EncodeChar c = [Hex.codeOf c] := by
      have short : c.val.toNat ≤ 127 := Nat.le_of_lt_succ (ascii c List.mem_cons_self)
      rw [String.utf8EncodeChar, if_pos short]
      rfl
    rw [List.flatMap_cons, one, ih fun c later => ascii c (List.mem_cons_of_mem _ later)]
    rfl

theorem codesOf_ofList_chars (bytes : List UInt8) :
    codesOf (String.ofList (Hex.chars bytes)) = Hex.codes bytes := by
  have ascii : Hex.lowerDigits.all fun c => c.toNat < 128 := by decide
  refine codesOf_ofList fun c written => ?_
  simpa using List.all_eq_true.mp ascii c (Hex.mem_chars written)

/-- A character beyond one byte has no byte of a letter. -/
theorem lowerCode_of_high {n : Nat} (high : 128 ≤ n) (byte : n < 256) :
    Hex.lowerCode (.ofNat n) = .ofNat n := by
  have number : (UInt8.ofNat n).toNat = n := by
    rw [UInt8.toNat_ofNat']
    omega
  unfold Hex.lowerCode
  rw [if_neg]
  simp only [UInt8.le_iff_toNat_le, number]
  change ¬ (65 ≤ n ∧ n ≤ 90)
  omega

theorem utf8EncodeChar_toLower (c : Char) :
    String.utf8EncodeChar c.toLower = (String.utf8EncodeChar c).map Hex.lowerCode := by
  by_cases short : c.toNat < 128
  · have all : ∀ n : Fin 128, String.utf8EncodeChar (Char.ofNat n).toLower =
        (String.utf8EncodeChar (Char.ofNat n)).map Hex.lowerCode := by
      decide +kernel
    simpa using all ⟨c.toNat, short⟩
  · have kept : c.toLower = c := by
      refine dif_neg ?_
      rintro ⟨_, letter⟩
      have low : c.toNat ≤ 90 := letter
      omega
    have bound : c.toNat < 0x110000 := by
      have valid := c.valid
      change c.toNat < 0xd800 ∨ 0xdfff < c.toNat ∧ c.toNat < 0x110000 at valid
      omega
    rw [kept, String.utf8EncodeChar]
    change ite (c.toNat ≤ 127) _ _ = List.map _ (ite (c.toNat ≤ 127) _ _)
    split_ifs
    · omega
    all_goals
      simp only [List.map_cons, List.map_nil, List.cons.injEq, and_true]
      simp (disch := omega) only [lowerCode_of_high, and_self]

theorem codesOf_toLower (s : String) : codesOf s.toLower = (codesOf s).map Hex.lowerCode := by
  have lower : s.toLower = s.map Char.toLower := rfl
  rw [codesOf_eq, codesOf_eq, lower, String.toList_map, List.map_flatMap,
    List.flatMap_map]
  simp only [utf8EncodeChar_toLower]

/-! ### Identifiers -/

namespace Identifier

variable {a b id : Identifier} {given : List UInt8} {s : String}

/-- Whether codes are those of forty hexadecimal digits. -/
structure IsSpelling (given : List UInt8) : Prop where
  forty : given.length = 40
  digits : ∀ code ∈ given, Hex.IsDigit code

instance (given : List UInt8) : Decidable (IsSpelling given) :=
  decidable_of_iff (given.length = 40 ∧ given.all (decide <| Hex.IsDigit ·))
    ⟨fun ⟨forty, digits⟩ => ⟨forty, by simpa using digits⟩,
      fun ⟨forty, digits⟩ => ⟨forty, by simpa using digits⟩⟩

/-- How a text is refused that is no spelling. -/
def TextFault.argument (s : String) : TextFault → ArgumentFault
  | .length n => .identifierLength n
  | .digit => .identifierDigit s

theorem parse_eq (s : String) :
    parse s = (ofCodes (codesOf s)).mapError fun fault => .argument (fault.argument s) := by
  unfold parse codesOf
  cases ofCodes s.toUTF8.data.toList with
  | ok id => rfl
  | error fault => cases fault <;> rfl

theorem ofCodes_eq_ok :
    ofCodes given = .ok id ↔ given.length = 40 ∧ Hex.bytes? given = some id.bytes := by
  unfold ofCodes
  split
  · rename_i forty
    split
    · rename_i bytes found
      constructor
      · intro same
        cases same
        exact ⟨forty, found⟩
      · rintro ⟨_, read⟩
        obtain ⟨bytes', size⟩ := id
        obtain rfl : bytes = bytes' := Option.some.inj (found.symm.trans read)
        rfl
    · rename_i unread
      simp [unread]
  · rename_i other
    simp [other]

theorem isSpelling_iff : IsSpelling given ↔ given.length = 40 ∧ (Hex.bytes? given).isSome := by
  rw [Hex.isSome_bytes?_iff]
  constructor
  · rintro ⟨forty, digits⟩
    exact ⟨forty, by omega, digits⟩
  · rintro ⟨forty, _, digits⟩
    exact ⟨forty, digits⟩

theorem exists_ofCodes_iff : (∃ id, ofCodes given = .ok id) ↔ IsSpelling given := by
  rw [isSpelling_iff]
  constructor
  · rintro ⟨id, read⟩
    obtain ⟨forty, found⟩ := ofCodes_eq_ok.mp read
    exact ⟨forty, by simp [found]⟩
  · rintro ⟨forty, spelled⟩
    obtain ⟨bytes, found⟩ := Option.isSome_iff_exists.mp spelled
    have size := length_of_bytes? found
    exact ⟨⟨bytes, by omega⟩, ofCodes_eq_ok.mpr ⟨forty, found⟩⟩

/-- What is no spelling is refused for its length, and only then for a digit. -/
theorem ofCodes_of_not_isSpelling (other : ¬ IsSpelling given) :
    ofCodes given = .error (if given.length = 40 then .digit else .length given.length) := by
  unfold ofCodes
  split
  · rename_i forty
    split
    · rename_i bytes found
      exact absurd (isSpelling_iff.mpr ⟨forty, by simp [found]⟩) other
    · rfl
  · rfl

theorem codesOf_text (id : Identifier) : codesOf id.text = Hex.codes id.bytes :=
  codesOf_ofList_chars id.bytes

theorem length_codes (bytes : List UInt8) : (Hex.codes bytes).length = 2 * bytes.length :=
  length_of_bytes? (Hex.bytes?_codes bytes)

theorem ofCodes_text (id : Identifier) : ofCodes (codesOf id.text) = .ok id := by
  rw [codesOf_text, ofCodes_eq_ok, length_codes, id.size]
  exact ⟨rfl, Hex.bytes?_codes id.bytes⟩

theorem codesOf_text_of_ofCodes (read : ofCodes given = .ok id) :
    codesOf id.text = given.map Hex.lowerCode := by
  rw [codesOf_text]
  exact Hex.codes_of_bytes? (ofCodes_eq_ok.mp read).2

theorem parse_text (id : Identifier) : parse id.text = .ok id := by
  rw [parse_eq, ofCodes_text]
  rfl

theorem text_of_parse (read : parse s = .ok id) : id.text = s.toLower := by
  apply codesOf_inj
  rw [codesOf_toLower]
  rw [parse_eq] at read
  cases spelled : ofCodes (codesOf s) with
  | error fault => rw [spelled] at read; cases read
  | ok other =>
    rw [spelled] at read
    obtain rfl : other = id := Except.ok.inj read
    exact codesOf_text_of_ofCodes spelled

theorem text_lt_text_iff : a.text < b.text ↔ a < b := by
  rw [String.lt_iff, text, text, String.toList_ofList, String.toList_ofList]
  exact Hex.chars_lt_chars_iff (a.size.trans b.size.symm)

theorem codesOf_text_lt_iff : codesOf a.text < codesOf b.text ↔ a < b := by
  rw [codesOf_text, codesOf_text]
  exact Hex.codes_lt_codes_iff (a.size.trans b.size.symm)

theorem text_inj : a.text = b.text ↔ a = b := by
  constructor
  · intro same
    have read := parse_text a
    rw [same, parse_text b] at read
    exact (Except.ok.inj read).symm
  · rintro rfl
    rfl

theorem compare_text (a b : Identifier) :
    compareOfLessAndEq a.text b.text = compare a.toNat b.toNat := by
  rw [← compare_toNat]
  simp only [compareOfLessAndEq, text_lt_text_iff, text_inj]

/-- What it is for texts to be the written form of identifiers. -/
structure Spelled : Prop where
  accepts : ∀ given, (∃ id, ofCodes given = .ok id) ↔ IsSpelling given
  refuses : ∀ given, ¬ IsSpelling given →
    ofCodes given = .error (if given.length = 40 then .digit else .length given.length)
  /-- A text is read by its codes, and each fault is that of an argument. -/
  byCodes : ∀ s, parse s =
    (ofCodes (codesOf s)).mapError fun fault => .argument (fault.argument s)
  readBack : ∀ id : Identifier, parse id.text = .ok id ∧ ofCodes (codesOf id.text) = .ok id
  lowered : ∀ given id, ofCodes given = .ok id → codesOf id.text = given.map Hex.lowerCode
  loweredText : ∀ s id, parse s = .ok id → id.text = s.toLower
  order : ∀ a b : Identifier, compareOfLessAndEq a.text b.text = compare a.toNat b.toNat
  codeOrder : ∀ a b : Identifier, codesOf a.text < codesOf b.text ↔ a < b

/-- Texts are the written form of identifiers. -/
theorem spelled : Spelled where
  accepts _ := exists_ofCodes_iff
  refuses _ := ofCodes_of_not_isSpelling
  byCodes := parse_eq
  readBack id := ⟨parse_text id, ofCodes_text id⟩
  lowered _ _ := codesOf_text_of_ofCodes
  loweredText _ _ := text_of_parse
  order := compare_text
  codeOrder _ _ := codesOf_text_lt_iff

end Identifier
end VesselRelay
