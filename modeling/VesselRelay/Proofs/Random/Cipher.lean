import Mathlib.Data.FinEnum
import Mathlib.Data.UInt
import Mathlib.Logic.Function.Iterate
import VesselRelay.Proofs.Random.Ending
import VesselRelay.Random.Source

/-!
The cipher permutes the blocks under every key. Each step of a round can be undone: no two bytes
have one substitute, since in the field of 256 elements a power of 254 is undone by taking it again;
columns are mixed by a linear map with an inverse; and the rest moves bytes or adds a key. So the
generator of a source, whatever entropy it was keyed from, is in the course of a key stream from the
first draw on.
-/
namespace VesselRelay
namespace Aes

variable {a b c d : UInt8}

/-! ### Multiplication -/

theorem xor_left_comm (a b c : UInt8) : a ^^^ (b ^^^ c) = b ^^^ (a ^^^ c) := by
  rw [← UInt8.xor_assoc, UInt8.xor_comm a, UInt8.xor_assoc]

@[simp] theorem xor_xor_cancel (a b : UInt8) : a ^^^ (a ^^^ b) = b := by
  rw [← UInt8.xor_assoc, UInt8.xor_self, UInt8.zero_xor]

theorem lt_half_iff (b : UInt8) : b < 128 ↔ b.toBitVec.msb = false := by
  rw [BitVec.msb_eq_decide, decide_eq_false_iff_not, Nat.not_le, UInt8.lt_iff_toNat_lt]
  rfl

theorem lt_half_xor (a b : UInt8) : a ^^^ b < 128 ↔ (a < 128 ↔ b < 128) := by
  rw [lt_half_iff, lt_half_iff, lt_half_iff, UInt8.toBitVec_xor, BitVec.msb_xor]
  cases a.toBitVec.msb <;> cases b.toBitVec.msb <;> simp

theorem double_xor (a b : UInt8) : double (a ^^^ b) = double a ^^^ double b := by
  unfold double
  rw [UInt8.shiftLeft_xor]
  by_cases left : a < 128 <;> by_cases right : b < 128 <;>
    simp [lt_half_xor, left, right, UInt8.xor_assoc, UInt8.xor_comm, xor_left_comm]

theorem multiplyBits_xor (b : UInt8) (n : Nat) (a c : UInt8) :
    multiplyBits b n (a ^^^ c) = multiplyBits b n a ^^^ multiplyBits b n c := by
  induction n generalizing a b c with
  | zero => simp [multiplyBits]
  | succ n ih =>
    simp only [multiplyBits, double_xor, ih]
    split <;> simp [UInt8.xor_assoc, xor_left_comm]

theorem multiplyBits_zero (b : UInt8) (n : Nat) : multiplyBits b n 0 = 0 := by
  have twice := multiplyBits_xor b n 0 0
  rw [UInt8.xor_self, UInt8.xor_self] at twice
  exact twice

theorem double_multiplyBits (b : UInt8) (n : Nat) (a : UInt8) :
    double (multiplyBits b n a) = multiplyBits b n (double a) := by
  induction n generalizing a b with
  | zero =>
    have none : double 0 = 0 := by decide
    simp only [multiplyBits, none]
  | succ n ih =>
    simp only [multiplyBits, double_xor, ih]
    split <;> rfl

/-- Factors are sums of doublings, and these may be taken in any order. -/
theorem multiplyBits_comm (b : UInt8) (n : Nat) (c : UInt8) (m : Nat) (a : UInt8) :
    multiplyBits c m (multiplyBits b n a) = multiplyBits b n (multiplyBits c m a) := by
  induction n generalizing a b with
  | zero => exact multiplyBits_zero c m
  | succ n ih =>
    simp only [multiplyBits, multiplyBits_xor, ih, double_multiplyBits]
    split <;> simp [multiplyBits_zero]

theorem multiply_right_comm (a b c : UInt8) :
    multiply (multiply a b) c = multiply (multiply a c) b :=
  multiplyBits_comm b 8 c 8 a

theorem one_multiply : ∀ b : UInt8, multiply 1 b = b := by decide +kernel

theorem multiply_comm (a b : UInt8) : multiply a b = multiply b a := by
  have turned := multiply_right_comm 1 a b
  rwa [one_multiply, one_multiply] at turned

theorem multiply_assoc (a b c : UInt8) : multiply (multiply a b) c = multiply a (multiply b c) := by
  rw [multiply_comm a b, multiply_right_comm, multiply_comm a]

/-! ### Powers -/

theorem power_add (a : UInt8) (m n : Nat) : power a (m + n) = multiply (power a m) (power a n) := by
  induction m with
  | zero => rw [Nat.zero_add, power, one_multiply]
  | succ m ih => rw [Nat.succ_add, power, power, ih, multiply_assoc]

theorem power_mul (a : UInt8) (m n : Nat) : power (power a m) n = power a (m * n) := by
  induction n with
  | zero => rfl
  | succ n ih => rw [power, ih, ← power_add, Nat.mul_succ, Nat.add_comm]

theorem power_one (a : UInt8) : power a 1 = a := by
  rw [power, power, multiply_comm, one_multiply]

def square (a : UInt8) : UInt8 := multiply a a

theorem multiply_xor (a b c : UInt8) :
    multiply a (b ^^^ c) = multiply a b ^^^ multiply a c := by
  rw [multiply_comm, multiply, multiplyBits_xor, multiply_comm a b, multiply_comm a c]
  rfl

theorem square_xor (a b : UInt8) : square (a ^^^ b) = square a ^^^ square b := by
  have left (c : UInt8) : multiply (a ^^^ b) c = multiply a c ^^^ multiply b c :=
    multiplyBits_xor c 8 a b
  rw [square, left, multiply_xor, multiply_xor, multiply_comm b a]
  simp [square, UInt8.xor_assoc]

theorem power_two_mul (a : UInt8) (n : Nat) : power a (n * 2) = square (power a n) := by
  rw [Nat.mul_two, power_add, square]

/-- An additive map that fixes the powers of the indeterminate fixes what they add up to. -/
theorem fixed_multiplyBits {f : UInt8 → UInt8} (additive : ∀ a b, f (a ^^^ b) = f a ^^^ f b)
    {a b : UInt8} {n : Nat} (fixed : ∀ i < n, f (double^[i] a) = double^[i] a) :
    f (multiplyBits b n a) = multiplyBits b n a := by
  have none : f 0 = 0 := by
    have twice := additive 0 0
    rwa [UInt8.xor_self, UInt8.xor_self] at twice
  induction n generalizing a b with
  | zero => exact none
  | succ n ih =>
    have first := fixed 0 (Nat.succ_pos n)
    have rest := ih (b := b >>> 1) fun i within => fixed (i + 1) (Nat.succ_lt_succ within)
    rw [multiplyBits, additive, rest]
    split
    · exact congrArg (· ^^^ _) first
    · rw [none]

theorem square_xor_iterate (n : Nat) (a b : UInt8) :
    square^[n] (a ^^^ b) = square^[n] a ^^^ square^[n] b := by
  induction n generalizing a b with
  | zero => rfl
  | succ n ih => rw [Function.iterate_succ_apply, square_xor, ih]; rfl

theorem power_two_pow (a : UInt8) (n : Nat) : power a (2 ^ n) = square^[n] a := by
  induction n with
  | zero => exact power_one a
  | succ n ih => rw [Nat.pow_succ, power_two_mul, ih, Function.iterate_succ_apply']

/-- Eight squarings lead back to where they begin. -/
theorem power_256 (a : UInt8) : power a 256 = a := by
  have bits : ∀ i < 8, square^[8] (double^[i] 1) = double^[i] 1 := by decide +kernel
  have fixed := fixed_multiplyBits (b := a) (square_xor_iterate 8) bits
  rw [← multiply, one_multiply] at fixed
  exact (power_two_pow a 8).trans fixed

/-- So a power counts up to a multiple of 255. -/
theorem power_add_255 (a : UInt8) (n : Nat) : power a (n + 1 + 255) = power a (n + 1) := by
  rw [Nat.add_assoc, power_add, power_256, multiply_comm]
  rfl

theorem power_period (a : UInt8) (k : Nat) : power a (1 + 255 * k) = a := by
  induction k with
  | zero => exact power_one a
  | succ k ih => rw [Nat.mul_succ, ← Nat.add_assoc, Nat.add_comm 1, power_add_255, Nat.add_comm, ih]

/-- The inverse is its own inverse, also of zero. -/
theorem power_power (a : UInt8) : power (power a 254) 254 = a := by
  rw [power_mul]
  exact power_period a 253

/-! ### Bytes and words -/

/-- The affine map can be undone by rotations too. -/
theorem substitute_injective : Function.Injective substitute := by
  have undone : ∀ v : UInt8,
      let s := v ^^^ rotate v 1 ^^^ rotate v 2 ^^^ rotate v 3 ^^^ rotate v 4 ^^^ 0x63
      rotate s 1 ^^^ rotate s 3 ^^^ rotate s 6 ^^^ 0x05 = v := by
    decide +kernel
  intro a b same
  have powers : power a 254 = power b 254 := by
    rw [← undone (power a 254), ← undone (power b 254)]
    change (let s := substitute a; rotate s 1 ^^^ rotate s 3 ^^^ rotate s 6 ^^^ 0x05) =
      (let s := substitute b; rotate s 1 ^^^ rotate s 3 ^^^ rotate s 6 ^^^ 0x05)
    rw [same]
  rw [← power_power a, powers, power_power]

theorem lookup_eq (b : UInt8) : lookup b = substitute b := by
  have inside : b.toNat < 256 := b.toNat_lt
  simp [lookup, substitutions, inside]

theorem lookup_injective : Function.Injective lookup := fun a b same =>
  substitute_injective (by rwa [lookup_eq, lookup_eq] at same)

open Block (word)

theorem word_inj {a' b' c' d' : UInt8} :
    word a b c d = word a' b' c' d' ↔ a = a' ∧ b = b' ∧ c = c' ∧ d = d' := by
  constructor
  · intro same
    have number := congrArg UInt32.toNat same
    rw [Block.toNat_word, Block.toNat_word] at number
    simp only [Identifier.value, List.foldl_cons, List.foldl_nil] at number
    have := a.toNat_lt
    have := b.toNat_lt
    have := c.toNat_lt
    have := d.toNat_lt
    have := a'.toNat_lt
    have := b'.toNat_lt
    have := c'.toNat_lt
    have := d'.toNat_lt
    simp only [← UInt8.toNat_inj]
    omega
  · rintro ⟨rfl, rfl, rfl, rfl⟩
    rfl

theorem word_bytes (w : UInt32) :
    word (w >>> 24).toUInt8 (w >>> 16).toUInt8 (w >>> 8).toUInt8 w.toUInt8 = w := by
  have short := w.toNat_lt
  rw [← UInt32.toNat_inj, Block.toNat_word]
  simp only [Identifier.value, List.foldl_cons, List.foldl_nil, UInt32.toNat_toUInt8,
    UInt32.toNat_shiftRight, Nat.shiftRight_eq_div_pow]
  change (256 * (256 * (256 * (256 * 0 + w.toNat / 2 ^ 24 % 2 ^ 8) + w.toNat / 2 ^ 16 % 2 ^ 8) +
    w.toNat / 2 ^ 8 % 2 ^ 8) + w.toNat % 2 ^ 8) = w.toNat
  omega

theorem wordBytes_word (a b c d : UInt8) : Block.wordBytes (word a b c d) = [a, b, c, d] := by
  obtain ⟨first, second, third, last⟩ := word_inj.mp (word_bytes (word a b c d))
  rw [Block.wordBytes, first, second, third, last]

theorem word_ext {v w : UInt32} (first : (v >>> 24).toUInt8 = (w >>> 24).toUInt8)
    (second : (v >>> 16).toUInt8 = (w >>> 16).toUInt8)
    (third : (v >>> 8).toUInt8 = (w >>> 8).toUInt8) (last : v.toUInt8 = w.toUInt8) : v = w := by
  rw [← word_bytes v, first, second, third, last, word_bytes]

/-! ### Columns -/

namespace State

theorem shiftedColumn_inj {a b c d a' b' c' d' : UInt32} :
    shiftedColumn a b c d = shiftedColumn a' b' c' d' ↔
      (a >>> 24).toUInt8 = (a' >>> 24).toUInt8 ∧ (b >>> 16).toUInt8 = (b' >>> 16).toUInt8 ∧
        (c >>> 8).toUInt8 = (c' >>> 8).toUInt8 ∧ d.toUInt8 = d'.toUInt8 := by
  simp only [shiftedColumn, word_inj, lookup_injective.eq_iff]

/-- Each byte of each column comes up once. -/
theorem substituteAndShift_injective : Function.Injective substituteAndShift := by
  intro s t same
  simp only [substituteAndShift, mk.injEq, shiftedColumn_inj] at same
  obtain ⟨⟨a0, b1, c2, d3⟩, ⟨a1, b2, c3, d0⟩, ⟨a2, b3, c0, d1⟩, ⟨a3, b0, c1, d2⟩⟩ := same
  exact mk.injEq .. ▸ ⟨word_ext a0 b0 c0 d0, word_ext a1 b1 c1 d1, word_ext a2 b2 c2 d2,
    word_ext a3 b3 c3 d3⟩

/-- The byte of a column before it was mixed, from the bytes after, its own first. -/
def unmixByte (a b c d : UInt8) : UInt8 :=
  let all := a ^^^ b ^^^ c ^^^ d
  a ^^^ all ^^^ double (a ^^^ b ^^^ double (a ^^^ c ^^^ double all))

theorem unmixByte_mixed {all : UInt8} (sum : all = a ^^^ b ^^^ c ^^^ d) :
    unmixByte (a ^^^ all ^^^ double (a ^^^ b)) (b ^^^ all ^^^ double (b ^^^ c))
      (c ^^^ all ^^^ double (c ^^^ d)) (d ^^^ all ^^^ double (d ^^^ a)) = a := by
  subst sum
  simp only [unmixByte, double_xor]
  simp [UInt8.xor_assoc, UInt8.xor_comm, xor_left_comm]

theorem eq_of_mixed {a' b' c' d' all all' : UInt8} (sum : all = a ^^^ b ^^^ c ^^^ d)
    (sum' : all' = a' ^^^ b' ^^^ c' ^^^ d')
    (first : a ^^^ all ^^^ double (a ^^^ b) = a' ^^^ all' ^^^ double (a' ^^^ b'))
    (second : b ^^^ all ^^^ double (b ^^^ c) = b' ^^^ all' ^^^ double (b' ^^^ c'))
    (third : c ^^^ all ^^^ double (c ^^^ d) = c' ^^^ all' ^^^ double (c' ^^^ d'))
    (last : d ^^^ all ^^^ double (d ^^^ a) = d' ^^^ all' ^^^ double (d' ^^^ a')) : a = a' := by
  rw [← unmixByte_mixed sum, first, second, third, last, unmixByte_mixed sum']

/-- The column is read from each of its bytes on in turn; the sum of all stays what it is. -/
theorem mixColumn_injective : Function.Injective mixColumn := by
  intro v w same
  obtain ⟨first, second, third, last⟩ := word_inj.mp same
  refine word_ext ?_ ?_ ?_ ?_
  · exact eq_of_mixed rfl rfl first second third last
  · exact eq_of_mixed (by ac_rfl) (by ac_rfl) second third last first
  · exact eq_of_mixed (by ac_rfl) (by ac_rfl) third last first second
  · exact eq_of_mixed (by ac_rfl) (by ac_rfl) last first second third

theorem mix_injective : Function.Injective mix := by
  intro s t same
  simp only [mix, mk.injEq, mixColumn_injective.eq_iff] at same
  exact mk.injEq .. ▸ same

theorem add_injective (k : State) : Function.Injective (add · k) := by
  intro s t same
  simp only [add, mk.injEq, UInt32.xor_left_inj] at same
  exact mk.injEq .. ▸ same

/-! ### Blocks -/

theorem toBlock_injective : Function.Injective toBlock := by
  intro s t same
  have bytes := congrArg Block.bytes same
  simp only [toBlock, Block.wordBytes, List.cons_append, List.nil_append, List.cons.injEq,
    and_true] at bytes
  obtain ⟨a3, a2, a1, a0, b3, b2, b1, b0, c3, c2, c1, c0, d3, d2, d1, d0⟩ := bytes
  exact mk.injEq .. ▸ ⟨word_ext a3 a2 a1 a0, word_ext b3 b2 b1 b0, word_ext c3 c2 c1 c0,
    word_ext d3 d2 d1 d0⟩

theorem toBlock_ofBlock (block : Block) : (ofBlock block).toBlock = block := by
  obtain ⟨bytes, size⟩ := block
  match bytes, size with
  | [_, _, _, _, _, _, _, _, _, _, _, _, _, _, _, _], _ =>
    simp only [ofBlock, toBlock, Block.words, Block.wordsOf, wordBytes_word, List.cons_append,
      List.nil_append]

theorem ofBlock_injective : Function.Injective ofBlock :=
  Function.LeftInverse.injective toBlock_ofBlock

theorem words_toBlock (s : State) : s.toBlock.words = [s.c0, s.c1, s.c2, s.c3] := by
  simp only [toBlock, Block.wordBytes, Block.words, Block.wordsOf, List.cons_append,
    List.nil_append, word_bytes]

end State

/-! ### The cipher -/

theorem rounds_injective (keys : List State) : Function.Injective (rounds · keys) := by
  intro s t same
  induction keys generalizing s t with
  | nil => exact same
  | cons k rest ih =>
    cases rest with
    | nil => exact State.substituteAndShift_injective (State.add_injective k same)
    | cons next rest =>
      have mixed := State.add_injective k (ih same)
      exact State.substituteAndShift_injective (State.mix_injective mixed)

/-- No two blocks have one encryption, whatever the key. -/
theorem encrypt_injective (key : Block) : Function.Injective (encrypt key) := by
  intro a b same
  have last := rounds_injective _ (State.toBlock_injective same)
  exact State.ofBlock_injective (State.add_injective _ last)

/-- Under every key there is a counter after which any four words are the first. -/
theorem exists_counter_deals (key : Block) (a b c d : UInt32) :
    ∃ counter, Generator.Deals [a, b, c, d] (.start (encrypt key) counter) := by
  obtain ⟨count, block⟩ :=
    Finite.surjective_of_injective (encrypt_injective key) (State.toBlock ⟨a, b, c, d⟩)
  obtain ⟨counter, rfl⟩ := Block.increment_surjective count
  refine ⟨counter, ?_⟩
  rw [Generator.start, Generator.refill]
  dsimp only
  rw [block, State.words_toBlock]
  exact Generator.deals_unread _ _ _ _

end Aes

/-! ### Sources -/

namespace RandomSource

variable {α : Type} {s : RandomSource} {g : Generator}

/-- Whether the cipher of a source permutes the blocks and its generator, once there is one, is in
the course of a key stream. -/
structure Running (s : RandomSource) : Prop where
  permutes : ∀ key, Function.Injective (s.cipher key)
  underway : ∀ g ∈ s.generator, g.Running

theorem running_of_entropy (entropy : Entropy) : Running { entropy } where
  permutes := Aes.encrypt_injective
  underway g made := by cases made

theorem Running.current (running : s.Running) :
    s.current.2.Running ∧ ∀ g, s.current.1 = .ok g → g.Running := by
  obtain ⟨permutes, underway⟩ := running
  unfold RandomSource.current
  split
  · rename_i g made
    refine ⟨⟨permutes, underway⟩, fun h same => ?_⟩
    cases same
    exact underway g made
  · rename_i unmade
    have fresh (entropy : Entropy) : Running { s with entropy } := ⟨permutes, underway⟩
    split
    · exact ⟨fresh _, fun g failed => nomatch failed⟩
    · split
      · exact ⟨fresh _, fun g failed => nomatch failed⟩
      · rename_i key _ _ _ counter _ _
        have start := Generator.running_start (permutes key) counter
        refine ⟨⟨permutes, fun g made => ?_⟩, fun g same => ?_⟩
        · cases made
          exact start
        · cases same
          exact start

/-- Whatever is drawn, the generator of a source is left further on in its stream. -/
theorem Running.draw {attempt : Generator.Attempt α} (running : s.Running)
    (asks : Generator.Asks attempt) : (s.draw attempt).2.Running := by
  obtain ⟨left, made⟩ := running.current
  unfold RandomSource.draw
  split
  · rename_i failure s' failed
    rwa [failed] at left
  · rename_i g s' current
    rw [current] at left made
    refine ⟨left.permutes, fun h further => ?_⟩
    cases further
    exact (made g rfl).draw asks

end RandomSource
end VesselRelay
