import VesselRelay.Random.Block

/-!
The AES block cipher with a 128-bit key. A state is four columns of four bytes, each column a word
with its first row the most significant. A round substitutes the bytes, shifts row `r` by `r`
columns, mixes each column and adds a round key; the last round does not mix.
-/
namespace VesselRelay.Aes

/-! ### The field of 256 elements -/

/-- Multiplication by the indeterminate, modulo `x^8 + x^4 + x^3 + x + 1`. -/
def double (b : UInt8) : UInt8 := (b <<< 1) ^^^ (if b < 128 then 0 else 0x1b)

/-- The product of `a` with the polynomial of the low `n` bits of `b`. -/
def multiplyBits (b : UInt8) : Nat → UInt8 → UInt8
  | 0, _ => 0
  | n + 1, a => (if b % 2 = 1 then a else 0) ^^^ multiplyBits (b >>> 1) n (double a)

def multiply (a b : UInt8) : UInt8 := multiplyBits b 8 a

def power (a : UInt8) : Nat → UInt8
  | 0 => 1
  | n + 1 => multiply a (power a n)

def rotate (b : UInt8) (k : UInt8) : UInt8 := (b <<< k) ||| (b >>> (8 - k))

/-- The inverse of a byte, with zero for zero, put through the affine map of the cipher. -/
def substitute (b : UInt8) : UInt8 :=
  let v := power b 254
  v ^^^ rotate v 1 ^^^ rotate v 2 ^^^ rotate v 3 ^^^ rotate v 4 ^^^ 0x63

/-- All substitutions, worked out once. -/
def substitutions : Array UInt8 := (Array.range 256).map fun n => substitute (UInt8.ofNat n)

def lookup (b : UInt8) : UInt8 := substitutions.getD b.toNat 0

/-! ### Columns -/

structure State where
  c0 : UInt32
  c1 : UInt32
  c2 : UInt32
  c3 : UInt32
  deriving DecidableEq, Repr

namespace State

def add (s t : State) : State := ⟨s.c0 ^^^ t.c0, s.c1 ^^^ t.c1, s.c2 ^^^ t.c2, s.c3 ^^^ t.c3⟩

/-- Substituted bytes of the rows 0 to 3, each from the column that its shift brings there. -/
def shiftedColumn (a b c d : UInt32) : UInt32 :=
  Block.word (lookup (a >>> 24).toUInt8) (lookup (b >>> 16).toUInt8) (lookup (c >>> 8).toUInt8)
    (lookup d.toUInt8)

def substituteAndShift (s : State) : State :=
  ⟨shiftedColumn s.c0 s.c1 s.c2 s.c3, shiftedColumn s.c1 s.c2 s.c3 s.c0,
   shiftedColumn s.c2 s.c3 s.c0 s.c1, shiftedColumn s.c3 s.c0 s.c1 s.c2⟩

/-- A column multiplied by the circulant matrix of 2, 3, 1 and 1. -/
def mixColumn (w : UInt32) : UInt32 :=
  let a := (w >>> 24).toUInt8
  let b := (w >>> 16).toUInt8
  let c := (w >>> 8).toUInt8
  let d := w.toUInt8
  let all := a ^^^ b ^^^ c ^^^ d
  Block.word (a ^^^ all ^^^ double (a ^^^ b)) (b ^^^ all ^^^ double (b ^^^ c))
    (c ^^^ all ^^^ double (c ^^^ d)) (d ^^^ all ^^^ double (d ^^^ a))

def mix (s : State) : State := ⟨mixColumn s.c0, mixColumn s.c1, mixColumn s.c2, mixColumn s.c3⟩

def ofBlock (block : Block) : State :=
  match block.words with
  | [a, b, c, d] => ⟨a, b, c, d⟩
  | _ => ⟨0, 0, 0, 0⟩

def toBlock (s : State) : Block :=
  ⟨Block.wordBytes s.c0 ++ Block.wordBytes s.c1 ++ Block.wordBytes s.c2 ++ Block.wordBytes s.c3,
    rfl⟩

end State

/-! ### Round keys -/

def substituteWord (w : UInt32) : UInt32 :=
  Block.word (lookup (w >>> 24).toUInt8) (lookup (w >>> 16).toUInt8) (lookup (w >>> 8).toUInt8)
    (lookup w.toUInt8)

/-- The round key after `k`, with the constant of its round. -/
def nextKey (k : State) (constant : UInt8) : State :=
  let turned := (k.c3 <<< 8) ||| (k.c3 >>> 24)
  let c0 := k.c0 ^^^ substituteWord turned ^^^ (constant.toUInt32 <<< 24)
  let c1 := k.c1 ^^^ c0
  let c2 := k.c2 ^^^ c1
  ⟨c0, c1, c2, k.c3 ^^^ c2⟩

/-- Round keys following `k`, the constant doubling from one to the next. -/
def keysFrom (k : State) (constant : UInt8) : Nat → List State
  | 0 => []
  | n + 1 =>
    let next := nextKey k constant
    next :: keysFrom next (double constant) n

/-- Runs the rounds whose keys are left; the last of them does not mix. -/
def rounds (s : State) : List State → State
  | [] => s
  | [k] => s.substituteAndShift.add k
  | k :: rest => rounds (s.substituteAndShift.mix.add k) rest

/-- The encryption of one block. -/
def encrypt (key block : Block) : Block :=
  let first := State.ofBlock key
  (rounds ((State.ofBlock block).add first) (keysFrom first 1 10)).toBlock

end VesselRelay.Aes
