import Mathlib.Data.List.Induction
import Mathlib.Tactic.MkIffOfInductiveProp
import VesselRelay.Proofs.Identifier.Spelling
import VesselRelay.Random.Text

/-!
Universally unique identifiers as they are written. A byte stands in two digits behind those of the
bytes before it and a hyphen for each group that has begun, so every place of the text is that of a
hyphen or of half a byte. The digits alone spell the bytes, and these are the bytes drawn but for
the six bits of the version and the variant.
-/
namespace VesselRelay.Generator

variable {row : List UInt8} {b : UInt8} {i bit : ℕ}

/-! ### Version and variant -/

/-- The bits of the version and those of the variant: the byte, and the bit in it from the lowest
on. -/
def stampBits : List (ℕ × ℕ) := [(6, 4), (6, 5), (6, 6), (6, 7), (8, 6), (8, 7)]

/-- A bit of a byte in a row. -/
def bitAt (row : List UInt8) (i bit : ℕ) : Bool := (row.getD i 0).toNat.testBit bit

/-- What becomes of a byte at its place. -/
def stampAt (i : ℕ) (b : UInt8) : UInt8 :=
  if i = 6 then (b &&& 0x0f) ||| 0x40 else if i = 8 then (b &&& 0x3f) ||| 0x80 else b

theorem stamped_eq (row : List UInt8) : stamped row = row.mapIdx stampAt := rfl

theorem length_stamped (row : List UInt8) : (stamped row).length = row.length := by
  rw [stamped_eq, List.length_mapIdx]

theorem getElem?_stamped (stands : row[i]? = some b) : (stamped row)[i]? = some (stampAt i b) := by
  rw [stamped_eq, List.getElem?_mapIdx, stands, Option.map_some]

/-- A bit that a mask lets through and that is not set afterwards is the bit there was. -/
theorem testBit_masked {mask put : UInt8} (through : mask.toNat.testBit bit)
    (unset : put.toNat.testBit bit = false) :
    ((b &&& mask) ||| put).toNat.testBit bit = b.toNat.testBit bit := by
  rw [UInt8.toNat_or, UInt8.toNat_and, Nat.testBit_or, Nat.testBit_and, through, unset,
    Bool.and_true, Bool.or_false]

theorem testBit_stampAt (short : bit < 8) (free : (i, bit) ∉ stampBits) :
    (stampAt i b).toNat.testBit bit = b.toNat.testBit bit := by
  unfold stampAt
  split_ifs with version variant
  · have masks : ∀ bit < 8, (6, bit) ∉ stampBits →
        (0x0f : UInt8).toNat.testBit bit ∧ (0x40 : UInt8).toNat.testBit bit = false := by
      decide
    obtain ⟨through, unset⟩ := masks bit short (version ▸ free)
    exact testBit_masked through unset
  · have masks : ∀ bit < 8, (8, bit) ∉ stampBits →
        (0x3f : UInt8).toNat.testBit bit ∧ (0x80 : UInt8).toNat.testBit bit = false := by
      decide
    obtain ⟨through, unset⟩ := masks bit short (variant ▸ free)
    exact testBit_masked through unset
  · rfl

theorem bitAt_stamped (inside : i < row.length) (short : bit < 8) (free : (i, bit) ∉ stampBits) :
    bitAt (stamped row) i bit = bitAt row i bit := by
  have stands := List.getElem?_eq_getElem inside
  rw [bitAt, bitAt, List.getD_eq_getElem?_getD, List.getD_eq_getElem?_getD,
    getElem?_stamped stands, stands, Option.getD_some, Option.getD_some,
    testBit_stampAt short free]

theorem lower_version (b : UInt8) : Hex.lower ((stampAt 6 b).toNat / 16) = '4' := by
  have all : ∀ n < 256, Hex.lower ((stampAt 6 (.ofNat n)).toNat / 16) = '4' := by
    decide +kernel
  simpa using all b.toNat b.toNat_lt

theorem lower_variant (b : UInt8) :
    Hex.lower ((stampAt 8 b).toNat / 16) ∈ ['8', '9', 'a', 'b'] := by
  have all : ∀ n < 256,
      Hex.lower ((stampAt 8 (.ofNat n)).toNat / 16) ∈ ['8', '9', 'a', 'b'] := by
    decide +kernel
  simpa using all b.toNat b.toNat_lt

/-! ### Byte by byte -/

/-- The bytes that a hyphen is written before. -/
def groupStarts : List ℕ := [4, 6, 8, 10]

/-- The hyphen before a byte, where there is one. -/
def hyphenBefore (i : ℕ) : List Char := if i ∈ groupStarts then ['-'] else []

/-- Bytes written one by one, the first of which is byte `i` of its row. -/
def writtenFrom (i : ℕ) : List UInt8 → List Char
  | [] => []
  | b :: rest => hyphenBefore i ++ Hex.byteText b ++ writtenFrom (i + 1) rest

/-- Sixteen bytes in groups are the same text as byte by byte. -/
theorem grouped_eq : ∀ {row : List UInt8}, row.length = 16 → grouped row = writtenFrom 0 row
  | [_, _, _, _, _, _, _, _, _, _, _, _, _, _, _, _], _ => rfl

theorem writtenFrom_append (i : ℕ) (before after : List UInt8) :
    writtenFrom i (before ++ after) =
      writtenFrom i before ++ writtenFrom (i + before.length) after := by
  induction before generalizing i with
  | nil => rfl
  | cons b before ih =>
    have place : i + 1 + before.length = i + (b :: before).length := by
      rw [List.length_cons]
      omega
    simp only [List.cons_append, writtenFrom, ih, place, List.append_assoc]

/-- How many of the bytes before this one have a hyphen before them. -/
def hyphensTo (i : ℕ) : ℕ := (List.range i).countP (· ∈ groupStarts)

theorem hyphensTo_succ (i : ℕ) : hyphensTo (i + 1) = hyphensTo i + (hyphenBefore i).length := by
  rw [hyphensTo, hyphensTo, List.range_succ, List.countP_append, List.countP_singleton,
    hyphenBefore]
  by_cases starts : i ∈ groupStarts <;> simp [starts]

theorem length_writtenFrom (row : List UInt8) :
    (writtenFrom 0 row).length = 2 * row.length + hyphensTo row.length := by
  -- From the last byte on, because a byte's hyphen hangs on how many stand before it.
  induction row using List.reverseRecOn with
  | nil => rfl
  | append_singleton row b ih =>
    have last : (writtenFrom row.length [b]).length = (hyphenBefore row.length).length + 2 := by
      simp [writtenFrom, Hex.byteText]
    rw [writtenFrom_append, List.length_append, ih, Nat.zero_add, last, List.length_append,
      List.length_singleton, hyphensTo_succ]
    omega

/-! ### Places -/

/-- Where the hyphen before a byte stands. -/
def hyphenPlace (i : ℕ) : ℕ := 2 * i + hyphensTo i

/-- Where the digits of a byte stand. -/
def digitPlace (i : ℕ) : ℕ := 2 * i + hyphensTo (i + 1)

/-- A byte and all after it, as they stand behind the bytes before. -/
theorem drop_writtenFrom (stands : row[i]? = some b) :
    (writtenFrom 0 row).drop (hyphenPlace i) =
      hyphenBefore i ++ (Hex.byteText b ++ writtenFrom (i + 1) (row.drop (i + 1))) := by
  obtain ⟨inside, rfl⟩ := List.getElem?_eq_some_iff.mp stands
  have parted : row = row.take i ++ row[i] :: row.drop (i + 1) := by
    rw [← List.drop_eq_getElem_cons inside, List.take_append_drop]
  have size : (row.take i).length = i := List.length_take_of_le inside.le
  have written : (writtenFrom 0 (row.take i)).length = hyphenPlace i := by
    rw [length_writtenFrom, size, hyphenPlace]
  conv_lhs => rw [parted, writtenFrom_append, ← written, List.drop_left, size, Nat.zero_add]
  rw [writtenFrom, List.append_assoc]

theorem hyphen_writtenFrom (inside : i < row.length) (starts : i ∈ groupStarts) :
    (writtenFrom 0 row)[hyphenPlace i]? = some '-' := by
  have first : ((writtenFrom 0 row).drop (hyphenPlace i))[0]? = some '-' := by
    rw [drop_writtenFrom (List.getElem?_eq_getElem inside), hyphenBefore, if_pos starts]
    rfl
  rwa [List.getElem?_drop] at first

theorem digits_writtenFrom (stands : row[i]? = some b) :
    (writtenFrom 0 row)[digitPlace i]? = some (Hex.lower (b.toNat / 16)) ∧
      (writtenFrom 0 row)[digitPlace i + 1]? = some (Hex.lower (b.toNat % 16)) := by
  have place : digitPlace i = hyphenPlace i + (hyphenBefore i).length := by
    rw [digitPlace, hyphenPlace, hyphensTo_succ, Nat.add_assoc]
  have behind : (writtenFrom 0 row).drop (digitPlace i) =
      Hex.byteText b ++ writtenFrom (i + 1) (row.drop (i + 1)) := by
    rw [place, ← List.drop_drop, drop_writtenFrom stands, List.drop_left]
  have upper : ((writtenFrom 0 row).drop (digitPlace i))[0]? =
      some (Hex.lower (b.toNat / 16)) := by
    rw [behind]
    rfl
  have lower : ((writtenFrom 0 row).drop (digitPlace i))[1]? =
      some (Hex.lower (b.toNat % 16)) := by
    rw [behind]
    rfl
  rw [List.getElem?_drop] at upper lower
  exact ⟨upper, lower⟩

/-- Without the hyphens the digits of the bytes are left. -/
theorem filter_writtenFrom (i : ℕ) (row : List UInt8) :
    (writtenFrom i row).filter (· ≠ '-') = Hex.chars row := by
  induction row generalizing i with
  | nil => rfl
  | cons b row ih =>
    have hyphen : (hyphenBefore i).filter (· ≠ '-') = [] := by
      unfold hyphenBefore
      split <;> rfl
    have digits : (Hex.byteText b).filter (· ≠ '-') = Hex.byteText b := by
      have apart : '-' ∉ Hex.lowerDigits := by decide
      refine List.filter_eq_self.mpr fun c written => ?_
      have other : c ≠ '-' := by
        rintro rfl
        exact apart (Hex.mem_byteText written)
      simpa using other
    rw [writtenFrom, List.filter_append, List.filter_append, hyphen, digits, ih, List.nil_append]
    rfl

/-! ### The text -/

def hyphenPlaces : List ℕ := [8, 13, 18, 23]

/-- The canonical form of an identifier of version 4. -/
@[mk_iff]
structure IsCanonical (s : String) : Prop where
  length : s.length = 36
  hyphens : ∀ p ∈ hyphenPlaces, s.toList[p]? = some '-'
  digits : ∀ p < 36, p ∉ hyphenPlaces → s.toList[p]? ∈ Hex.lowerDigits.map some
  version : s.toList[14]? = some '4'
  variant : s.toList[19]? ∈ ['8', '9', 'a', 'b'].map some

instance (s : String) : Decidable (IsCanonical s) := decidable_of_iff' _ (isCanonical_iff s)

theorem hyphenPlaces_eq : hyphenPlaces = groupStarts.map hyphenPlace := rfl

/-- Every other place is that of half a byte. -/
theorem exists_digitPlace : ∀ p < 36, p ∉ hyphenPlaces →
    ∃ i < 16, p = digitPlace i ∨ p = digitPlace i + 1 := by
  decide

theorem hyphens_grouped (size : row.length = 16) {p : ℕ} (hyphen : p ∈ hyphenPlaces) :
    (grouped row)[p]? = some '-' := by
  have early : ∀ i ∈ groupStarts, i < 16 := by decide
  rw [hyphenPlaces_eq] at hyphen
  obtain ⟨i, starts, rfl⟩ := List.mem_map.mp hyphen
  rw [grouped_eq size]
  exact hyphen_writtenFrom ((early i starts).trans_eq size.symm) starts

theorem digits_grouped (size : row.length = 16) {p : ℕ} (short : p < 36)
    (other : p ∉ hyphenPlaces) : (grouped row)[p]? ∈ Hex.lowerDigits.map some := by
  obtain ⟨i, within, half⟩ := exists_digitPlace p short other
  have inside : i < row.length := within.trans_eq size.symm
  obtain ⟨upper, lower⟩ := digits_writtenFrom (List.getElem?_eq_getElem inside)
  have byte := row[i].toNat_lt
  rw [grouped_eq size]
  rcases half with rfl | rfl
  · rw [upper]
    exact List.mem_map_of_mem (Hex.lower_mem_lowerDigits (by omega))
  · rw [lower]
    exact List.mem_map_of_mem (Hex.lower_mem_lowerDigits (by omega))

theorem upper_stamped (size : row.length = 16) (stands : row[i]? = some b) :
    (grouped (stamped row))[digitPlace i]? = some (Hex.lower ((stampAt i b).toNat / 16)) := by
  rw [grouped_eq ((length_stamped row).trans size)]
  exact (digits_writtenFrom (getElem?_stamped stands)).1

theorem isCanonical_stamped (size : row.length = 16) :
    IsCanonical (String.ofList (grouped (stamped row))) := by
  have sixteen : (stamped row).length = 16 := (length_stamped row).trans size
  constructor
  case length =>
    rw [String.length_ofList, grouped_eq sixteen, length_writtenFrom, sixteen]
    rfl
  all_goals rw [String.toList_ofList]
  case hyphens => exact fun p hyphen => hyphens_grouped sixteen hyphen
  case digits => exact fun p short other => digits_grouped sixteen short other
  case version =>
    have inside : 6 < row.length := by omega
    have upper : (grouped (stamped row))[14]? = some _ :=
      upper_stamped size (List.getElem?_eq_getElem inside)
    rw [upper, lower_version]
  case variant =>
    have inside : 8 < row.length := by omega
    have upper : (grouped (stamped row))[19]? = some _ :=
      upper_stamped size (List.getElem?_eq_getElem inside)
    rw [upper]
    exact List.mem_map_of_mem (lower_variant _)

example : IsCanonical "00112233-4455-4677-8899-aabbccddeeff" ∧
    ¬ IsCanonical "00112233-4455-6677-8899-aabbccddeeff" := by
  decide

/-- The bytes that the digits of a text spell, its hyphens taken out. -/
def spelledBytes? (s : String) : Option (List UInt8) :=
  Hex.bytes? (codesOf (String.ofList (s.toList.filter (· ≠ '-'))))

theorem spelledBytes?_grouped (size : row.length = 16) :
    spelledBytes? (String.ofList (grouped row)) = some row := by
  rw [spelledBytes?, String.toList_ofList, grouped_eq size, filter_writtenFrom,
    codesOf_ofList_chars, Hex.bytes?_codes]

/-- What a text is to the bytes that it was made from. -/
structure Identifies (s : String) (drawn : List UInt8) : Prop where
  canonical : IsCanonical s
  /-- Its digits are read as sixteen bytes, which are those drawn but for the six bits. -/
  readBack : ∃ read, spelledBytes? s = some read ∧ read.length = 16 ∧
    ∀ i < 16, ∀ bit < 8, (i, bit) ∉ stampBits → bitAt read i bit = bitAt drawn i bit

/-- Every universally unique identifier is so written, whatever state the generator is in. -/
theorem uuid_identifies (g : Generator) : Identifies (uuid g).1 (bytes 16 g).1 where
  canonical := isCanonical_stamped (length_bytes 16 g)
  readBack := by
    have size := length_bytes 16 g
    have sixteen : (stamped (bytes 16 g).1).length = 16 := (length_stamped _).trans size
    refine ⟨stamped (bytes 16 g).1, spelledBytes?_grouped sixteen, sixteen, ?_⟩
    intro i within bit short free
    exact bitAt_stamped (within.trans_eq size.symm) short free

end VesselRelay.Generator
