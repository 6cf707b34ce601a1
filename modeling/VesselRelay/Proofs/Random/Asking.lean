import Mathlib.Tactic.Choose
import VesselRelay.Proofs.Random.KeyStream

/-!
Draws as programs that ask. Whatever is drawn, a generator is asked for the highest bits of words,
one word to a question, and for the normal deviate that it keeps, and for nothing else. So however
draws of all kinds follow each other, their questions are answered from the key stream, word after
word.
-/
namespace VesselRelay

/-- How many bits of a word are asked for. -/
structure Width where
  bits : Nat
  positive : 0 < bits
  fits : bits ≤ 32

/-- The highest bits of the word that a reader comes to. -/
def Reader.top (width : Width) (r : Reader) : Option (UInt32 × Reader) :=
  r.word.map fun (w, r) => (w >>> UInt32.ofNat (32 - width.bits), r)

theorem Width.toNat_shiftRight (width : Width) (w : UInt32) :
    (w >>> UInt32.ofNat (32 - width.bits)).toNat = w.toNat / 2 ^ (32 - width.bits) := by
  have positive := width.positive
  have amount : (32 - width.bits) % 2 ^ 32 % 32 = 32 - width.bits := by omega
  rw [UInt32.toNat_shiftRight, UInt32.toNat_ofNat', amount, Nat.shiftRight_eq_div_pow]

/-- A generator is given the same bits as a reader: the highest of the word whose turn it is. -/
theorem Reader.top_after (encrypt : Block → Block) (counter : Block) (spare : Option Float)
    (n : Nat) (width : Width) :
    ∃ w, (after encrypt counter spare n).top width =
        some (w, after encrypt counter spare (n + 1)) ∧
      Generator.top width.bits (after encrypt counter spare n).generator =
        (w, (after encrypt counter spare (n + 1)).generator) ∧
      w.toNat = Generator.keyWord encrypt counter n / 2 ^ (32 - width.bits) := by
  obtain ⟨w, read, number⟩ := word_after encrypt counter spare n
  have handed := word_generator read
  refine ⟨w >>> UInt32.ofNat (32 - width.bits), ?_, ?_, ?_⟩
  · rw [top, read, Option.map_some]
  · exact congrArg (fun out : UInt32 × Generator =>
      (out.1 >>> UInt32.ofNat (32 - width.bits), out.2)) handed
  · rw [width.toNat_shiftRight, number]

/-- A program that draws by asking. -/
inductive Asking (α : Type) where
  | answer (a : α)
  | next (width : Width) (go : UInt32 → Asking α)
  /-- Looks at the normal deviate that is kept. -/
  | look (go : Option Float → Asking α)
  | keep (spare : Option Float) (rest : Asking α)

namespace Asking
open Generator (Draw top)

/-- A question for bits, and what it was given. -/
structure Call where
  width : Width
  given : UInt32

variable {α β : Type}

def run : Asking α → Draw α
  | answer a, g => (a, g)
  | next width go, g => (go (top width.bits g).1).run (top width.bits g).2
  | look go, g => (go g.spare).run g
  | keep spare rest, g => rest.run { g with spare }

/-- The questions for bits, in order. -/
def calls : Asking α → Generator → List Call
  | answer _, _ => []
  | next width go, g =>
    ⟨width, (top width.bits g).1⟩ :: (go (top width.bits g).1).calls (top width.bits g).2
  | look go, g => (go g.spare).calls g
  | keep spare rest, g => rest.calls { g with spare }

/-- The same program served by a reader. -/
def serve : Asking α → Reader → Option (α × Reader)
  | answer a, r => some (a, r)
  | next width go, r => do
    let (w, r) ← r.top width
    (go w).serve r
  | look go, r => (go r.spare).serve r
  | keep spare rest, r => rest.serve { r with spare }

def bind : Asking α → (α → Asking β) → Asking β
  | answer a, f => f a
  | next width go, f => next width fun w => (go w).bind f
  | look go, f => look fun spare => (go spare).bind f
  | keep spare rest, f => keep spare (rest.bind f)

theorem run_bind (p : Asking α) (f : α → Asking β) (g : Generator) :
    (p.bind f).run g = (f (p.run g).1).run (p.run g).2 := by
  induction p generalizing g with
  | answer a => rfl
  | next width go ih => exact ih _ _
  | look go ih => exact ih _ _
  | keep spare rest ih => exact ih _

/-! ### The answers -/

section
variable {width : Width} {go : UInt32 → Asking α} {g h : Generator} {w : UInt32}

theorem run_next (asked : top width.bits g = (w, h)) : (next width go).run g = (go w).run h := by
  rw [run, asked]

theorem calls_next (asked : top width.bits g = (w, h)) :
    (next width go).calls g = ⟨width, w⟩ :: (go w).calls h := by
  rw [calls, asked]

end

/-- How a program is answered from word `n` of the key stream on, by a generator and by a reader. -/
structure Answered (encrypt : Block → Block) (counter : Block) (n : Nat) (g : Generator)
    (r : Reader) (p : Asking α) : Prop where
  /-- Each question takes the next word and is given its highest bits. -/
  given : ∀ i call, (p.calls g)[i]? = some call → call.given.toNat =
    Generator.keyWord encrypt counter (n + i) / 2 ^ (32 - call.width.bits)
  /-- The reader, which fails where its cursor leaves the block, does not fail and comes to the
  same. -/
  served : ∃ r', p.serve r = some ((p.run g).1, r') ∧ r'.generator = (p.run g).2 ∧ r'.cursor ≤ 16
  /-- The next word to be given is the one after those that were asked for. -/
  left : ∃ spare,
    (p.run g).2 = (Reader.after encrypt counter spare (n + (p.calls g).length)).generator

/-- The place in the key stream carries the induction: what is kept of deviates does not move it. -/
theorem answered (encrypt : Block → Block) (counter : Block) (p : Asking α) (spare : Option Float)
    (n : Nat) :
    p.Answered encrypt counter n (Reader.after encrypt counter spare n).generator
      (.after encrypt counter spare n) := by
  induction p generalizing spare n with
  | answer a =>
    exact ⟨fun i call none => by simp [calls] at none,
      ⟨_, rfl, rfl, Reader.cursor_after encrypt counter spare n⟩, spare, rfl⟩
  | next width go ih =>
    obtain ⟨w, read, asked, number⟩ := Reader.top_after encrypt counter spare n width
    obtain ⟨given, served, later, left⟩ := ih w spare (n + 1)
    have behind (k : Nat) : n + (k + 1) = n + 1 + k := by omega
    refine ⟨fun i call here => ?_, ?_, later, ?_⟩
    · rw [calls_next asked] at here
      cases i with
      | zero =>
        cases here
        exact number
      | succ i =>
        rw [behind i]
        exact given i call here
    · rw [run_next asked, serve, read]
      exact served
    · rw [← behind] at left
      rw [run_next asked, calls_next asked]
      exact left
  | look go ih =>
    obtain ⟨given, served, left⟩ := ih spare spare n
    exact ⟨given, served, left⟩
  | keep kept rest ih =>
    obtain ⟨given, served, left⟩ := ih kept n
    exact ⟨given, served, left⟩

end Asking

/-! ### Draws that ask -/

namespace Generator
variable {α β : Type}

/-- A draw that is such a program. -/
def Asks (m : Draw α) : Prop := ∃ p : Asking α, p.run = m

theorem asks_pure (a : α) : Asks (pure a) := ⟨.answer a, rfl⟩

theorem asks_bind {m : Draw α} {f : α → Draw β} (first : Asks m) (rest : ∀ a, Asks (f a)) :
    Asks (m >>= f) := by
  obtain ⟨p, rfl⟩ := first
  choose q hq using rest
  refine ⟨p.bind q, funext fun g => (p.run_bind q g).trans ?_⟩
  rw [hq]
  rfl

/-- What a draw gives may be made something of. -/
theorem asks_of_fst {m : Draw α} {made : Draw β} (f : α → β) (asks : Asks m)
    (same : ∀ g, made g = (f (m g).1, (m g).2)) : Asks made := by
  obtain rfl : (m >>= fun a => pure (f a)) = made := funext fun g => (same g).symm
  exact asks_bind asks fun a => asks_pure (f a)

theorem asks_top {bits : Nat} (positive : 0 < bits) (fits : bits ≤ 32) : Asks (top bits) :=
  ⟨.next ⟨bits, positive, fits⟩ .answer, rfl⟩

/-- A whole word is its 32 highest bits. -/
theorem asks_word : Asks word := by
  have whole : top 32 = word := by
    funext g
    change ((word g).1 >>> 0, (word g).2) = word g
    rw [UInt32.shiftRight_zero]
    rfl
  exact whole ▸ asks_top (by decide) (by decide)

theorem asks_keep (spare : Option Float) :
    Asks (modify fun g => { g with spare } : Draw Unit) :=
  ⟨.keep spare (.answer ()), rfl⟩

/-- A draw may go by the deviate that is kept. -/
theorem asks_of_spare {m : Draw α}
    (each : ∀ spare, ∃ k, Asks k ∧ ∀ g, g.spare = spare → m g = k g) : Asks m := by
  choose k asks same using each
  choose p hp using asks
  refine ⟨.look p, funext fun g => ?_⟩
  rw [Asking.run, hp, same g.spare g rfl]

/-! ### Attempts -/

theorem asks_throw (failure : Failure) : Asks (throw failure : Attempt α).run :=
  asks_pure _

theorem asks_lift {m : Draw α} (asks : Asks m) : Asks (liftM m : Attempt α).run :=
  asks_of_fst .ok asks fun _ => rfl

theorem asks_attempt {x : Attempt α} {f : α → Attempt β} (first : Asks x.run)
    (rest : ∀ a, Asks (f a).run) : Asks (x >>= f).run := by
  change Asks (x.run >>= ExceptT.bindCont f)
  refine asks_bind first fun result => ?_
  cases result with
  | ok a => exact rest a
  | error failure => exact asks_pure _

theorem asks_guarded {p : Prop} [Decidable p] {failure : Failure} {x : Unit → Attempt α}
    (asks : ¬ p → Asks (x ()).run) : Asks (if p then throw failure >>= x else x ()).run := by
  split
  · exact asks_throw failure
  · rename_i passed
    exact asks passed

theorem asks_untilAccepted {trial : Draw (Option α)} (asks : Asks trial) (rounds : Nat) :
    Asks (untilAccepted trial rounds).run := by
  induction rounds with
  | zero => exact asks_throw _
  | succ rounds ih =>
    rw [untilAccepted]
    refine asks_attempt (asks_lift asks) fun tried => ?_
    cases tried with
    | none => exact ih
    | some a => exact asks_pure _

end Generator
end VesselRelay
