import VesselRelay.Identifier.Basic

/-!
Sum and difference of identifiers, byte by byte from the least significant, modulo `2 ^ 160`.
-/
namespace VesselRelay.Identifier

/-- The bytes of a sum and the carry out of the most significant one. -/
def addBytes : List UInt8 → List UInt8 → List UInt8 × Nat
  | a :: as, b :: bs =>
    let (rest, carry) := addBytes as bs
    let sum := a.toNat + b.toNat + carry
    (UInt8.ofNat sum :: rest, sum / 256)
  | _, _ => ([], 0)

/-- The bytes of a difference and the borrow out of the most significant one. -/
def subtractBytes : List UInt8 → List UInt8 → List UInt8 × Nat
  | a :: as, b :: bs =>
    let (rest, borrow) := subtractBytes as bs
    let taken := b.toNat + borrow
    (UInt8.ofNat (256 + a.toNat - taken) :: rest, if a.toNat < taken then 1 else 0)
  | _, _ => ([], 0)

theorem length_addBytes (a b : List UInt8) :
    (addBytes a b).1.length = Nat.min a.length b.length := by
  induction a generalizing b with
  | nil => simp [addBytes]
  | cons x xs ih => cases b with
    | nil => simp [addBytes]
    | cons y ys => simp [addBytes, ih]

theorem length_subtractBytes (a b : List UInt8) :
    (subtractBytes a b).1.length = Nat.min a.length b.length := by
  induction a generalizing b with
  | nil => simp [subtractBytes]
  | cons x xs ih => cases b with
    | nil => simp [subtractBytes]
    | cons y ys => simp [subtractBytes, ih]

def add (a b : Identifier) : Identifier :=
  ⟨(addBytes a.bytes b.bytes).1, by simp [length_addBytes, a.size, b.size]⟩

def subtract (a b : Identifier) : Identifier :=
  ⟨(subtractBytes a.bytes b.bytes).1, by simp [length_subtractBytes, a.size, b.size]⟩

end VesselRelay.Identifier
