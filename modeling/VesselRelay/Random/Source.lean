import VesselRelay.Random.Aes
import VesselRelay.Random.Generator

/-!
The entropy of the system, and the one generator that is keyed from it. The generator is made when
it is first needed; a read that fails leaves none, and the next use tries again from fresh bytes.
-/
namespace VesselRelay

/-- Bytes without end, of which some have been handed out. A read of at least one byte fails where
it is said to, and then hands out nothing. -/
structure Entropy where
  byteAt : Nat → UInt8
  failsAt : Nat → Bool
  taken : Nat
  reads : Nat

namespace Entropy

/-- Fresh bytes. Reading none never fails. -/
def read (n : Nat) (e : Entropy) : Except Failure (List UInt8) × Entropy :=
  if n = 0 then (.ok [], e)
  else if e.failsAt e.reads then (.error .entropy, { e with reads := e.reads + 1 })
  else
    (.ok ((List.range n).map fun i => e.byteAt (e.taken + i)),
      { e with taken := e.taken + n, reads := e.reads + 1 })

/-- A block of fresh bytes. -/
def readBlock (e : Entropy) : Except Failure Block × Entropy :=
  if e.failsAt e.reads then (.error .entropy, { e with reads := e.reads + 1 })
  else
    (.ok ⟨(List.range 16).map fun i => e.byteAt (e.taken + i), by simp⟩,
      { e with taken := e.taken + 16, reads := e.reads + 1 })

/-- The same bytes over and over; without any, zeros. -/
def repeating (bytes : List UInt8) : Entropy where
  byteAt := let row := bytes.toArray; fun n => row.getD (n % row.size) 0
  failsAt := fun _ => false
  taken := 0
  reads := 0

end Entropy

/-- The entropy and the generator keyed from it, once there is one. -/
structure RandomSource where
  cipher : Block → Block → Block := Aes.encrypt
  entropy : Entropy
  generator : Option Generator := none

namespace RandomSource

/-- The generator, made on first use from a key and a counter read in that order. -/
def current (s : RandomSource) : Except Failure Generator × RandomSource :=
  match s.generator with
  | some g => (.ok g, s)
  | none =>
    match s.entropy.readBlock with
    | (.error failure, entropy) => (.error failure, { s with entropy })
    | (.ok key, entropy) =>
      match entropy.readBlock with
      | (.error failure, entropy) => (.error failure, { s with entropy })
      | (.ok counter, entropy) =>
        let g := Generator.start (s.cipher key) counter
        (.ok g, { s with entropy, generator := some g })

/-- Draws from the current generator. -/
def draw {α : Type} (attempt : Generator.Attempt α) (s : RandomSource) :
    Except Failure α × RandomSource :=
  match s.current with
  | (.error failure, s) => (.error failure, s)
  | (.ok g, s) =>
    let (result, g) := attempt g
    (result, { s with generator := some g })

/-- Fresh bytes from the system itself. -/
def fill (n : Nat) (s : RandomSource) : Except Failure (List UInt8) × RandomSource :=
  let (result, entropy) := s.entropy.read n
  (result, { s with entropy })

end RandomSource
end VesselRelay
