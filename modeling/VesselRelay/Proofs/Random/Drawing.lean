import VesselRelay.Proofs.Random.Asking
import VesselRelay.Random.Bounded
import VesselRelay.Random.Identifier
import VesselRelay.Random.Real
import VesselRelay.Random.Text

/-!
All draws in a row. Each kind of draw asks for its bits in its own way, and they all read on where
the one before has left off: word `n` of the key stream is what the question that comes after `n`
others is answered from.
-/
namespace VesselRelay.Generator

/-! ### What each draw asks for -/

theorem asks_next (bits : Int) : Asks (next bits).run := by
  rw [next]
  exact asks_guarded fun inside => asks_lift (asks_top (by omega) (by omega))

theorem asks_boolean : Asks boolean :=
  asks_bind (asks_top (by decide) (by decide)) fun _ => asks_pure _

theorem asks_bytes : ∀ n, Asks (bytes n)
  | n + 4 => asks_bind asks_word fun _ => asks_bind (asks_bytes n) fun _ => asks_pure _
  | 0 => asks_pure _
  | 1 | 2 | 3 => asks_bind asks_word fun _ => asks_pure _

theorem asks_below (bound : Nat) : Asks (below bound).run := by
  have tried : Asks (trial bound) :=
    asks_bind (asks_top (by decide) (by decide)) fun _ => asks_pure _
  exact asks_untilAccepted tried period

theorem asks_int : Asks int := asks_bind asks_word fun _ => asks_pure _

theorem asks_intBelow (bound : Int32) : Asks (intBelow bound).run := by
  rw [intBelow]
  exact asks_guarded fun _ => asks_attempt (asks_below _) fun _ => asks_pure _

theorem asks_shorten (s : Stretch) : Asks (shorten s) := by
  induction s using shorten.induct with
  | case1 s short =>
    rw [shorten, dif_pos short]
    exact asks_pure s
  | case2 s long ih =>
    rw [shorten, dif_neg long]
    have bits : Asks (top 2) := asks_top (by decide) (by decide)
    exact asks_bind bits ih

theorem asks_belowLong (bound : Nat) : Asks (belowLong bound).run :=
  asks_attempt (asks_lift (asks_shorten _)) fun _ =>
    asks_attempt (asks_below _) fun _ => asks_pure _

theorem asks_long : Asks long :=
  asks_bind asks_word fun _ => asks_bind asks_word fun _ => asks_pure _

theorem asks_longBelow (bound : Int64) : Asks (longBelow bound).run := by
  rw [longBelow]
  exact asks_guarded fun _ => asks_attempt (asks_belowLong _) fun _ => asks_pure _

theorem asks_intBetween (least bound : Int32) : Asks (intBetween least bound).run := by
  rw [intBetween]
  refine asks_guarded fun _ => ?_
  dsimp only
  split
  · exact asks_attempt (asks_below _) fun _ => asks_pure _
  · exact asks_attempt (asks_belowLong _) fun _ => asks_pure _

theorem asks_longBetween (least bound : Int64) : Asks (longBetween least bound).run := by
  rw [longBetween]
  refine asks_guarded fun _ => ?_
  dsimp only
  split
  · exact asks_attempt (asks_belowLong _) fun _ => asks_pure _
  · have tried : Asks (longTrial least bound) := asks_bind asks_long fun _ => asks_pure _
    exact asks_untilAccepted tried period

theorem asks_double : Asks double :=
  asks_bind (asks_top (by decide) (by decide)) fun _ =>
    asks_bind (asks_top (by decide) (by decide)) fun _ => asks_pure _

theorem asks_doubleBelow (bound : Float) : Asks (doubleBelow bound).run := by
  rw [doubleBelow]
  exact asks_guarded fun _ => asks_attempt (asks_lift asks_double) fun _ => asks_pure _

theorem asks_doubleBetween (least bound : Float) : Asks (doubleBetween least bound).run := by
  rw [doubleBetween]
  exact asks_guarded fun _ => asks_attempt (asks_lift asks_double) fun _ => asks_pure _

theorem asks_discTrial : Asks discTrial :=
  asks_bind asks_double fun _ => asks_bind asks_double fun _ => asks_pure _

section
variable [Trigonometry] {g : Generator}

/-- What a deviate comes from where none is kept. -/
def freshGaussian : Attempt Float := do
  let (v1, v2, s) ← untilAccepted discTrial period
  let norm := (-2.0 * Trigonometry.log s / s).sqrt
  modify fun g => { g with spare := some (v2 * norm) }
  return v1 * norm

theorem gaussian_eq (g : Generator) : gaussian g = (match g.spare with
    | some x => (do set { g with spare := none }; return x : Attempt Float)
    | none => freshGaussian) g := rfl

theorem gaussian_of_some {x : Float} (held : g.spare = some x) :
    gaussian g = (.ok x, { g with spare := none }) := by
  rw [gaussian_eq, held]
  rfl

theorem gaussian_of_none (held : g.spare = none) : gaussian g = freshGaussian g := by
  rw [gaussian_eq, held]

theorem asks_freshGaussian : Asks freshGaussian.run :=
  asks_attempt (asks_untilAccepted asks_discTrial period) fun _ =>
    asks_attempt (asks_lift (asks_keep _)) fun _ => asks_pure _

theorem asks_gaussian : Asks gaussian.run := by
  refine asks_of_spare fun spare => ?_
  cases spare with
  | some x =>
    exact ⟨_, asks_bind (asks_keep none) fun _ => asks_pure (.ok x), fun g => gaussian_of_some⟩
  | none => exact ⟨_, asks_freshGaussian, fun g => gaussian_of_none⟩

end

theorem asks_hex (n : Nat) : Asks (hex n) := by
  induction n with
  | zero => exact asks_pure _
  | succ n ih =>
    exact asks_bind (asks_top (by decide) (by decide)) fun _ => asks_bind ih fun _ => asks_pure _

theorem asks_uuid : Asks uuid := asks_bind (asks_bytes 16) fun _ => asks_pure _

theorem asks_identifier : Asks identifier := by
  refine asks_of_fst (fun drawn => if size : drawn.length = 20 then ⟨drawn, size⟩ else .zero)
    (asks_bytes 20) fun g => ?_
  rw [dif_pos (length_bytes 20 g)]
  rfl

theorem asks_identifierBelow (bound : Identifier) : Asks (identifierBelow bound).run := by
  rw [identifierBelow]
  have tried : Asks (identifierTrial bound) := asks_bind (asks_bytes _) fun _ => asks_pure _
  exact asks_guarded fun _ => asks_untilAccepted tried period

theorem asks_identifierBetween (least bound : Identifier) :
    Asks (identifierBetween least bound).run := by
  rw [identifierBetween]
  exact asks_guarded fun _ => asks_attempt (asks_identifierBelow _) fun _ => asks_pure _

/-! ### Draws in a row -/

/-- The draws there are. -/
inductive Kind where
  | next (bits : Int)
  | boolean
  | bytes (n : Nat)
  | int
  | intBelow (bound : Int32)
  | intBetween (least bound : Int32)
  | long
  | longBelow (bound : Int64)
  | longBetween (least bound : Int64)
  | double
  | doubleBelow (bound : Float)
  | doubleBetween (least bound : Float)
  | gaussian
  | hex (n : Nat)
  | uuid
  | identifier
  | identifierBelow (bound : Identifier)
  | identifierBetween (least bound : Identifier)
  | reseed (seed : UInt64)

def Kind.Answer : Kind → Type
  | next _ => UInt32
  | boolean => Bool
  | bytes _ => List UInt8
  | int | intBelow _ | intBetween _ _ => Int32
  | long | longBelow _ | longBetween _ _ => Int64
  | double | doubleBelow _ | doubleBetween _ _ | gaussian => Float
  | hex _ => List Char
  | uuid => String
  | identifier | identifierBelow _ | identifierBetween _ _ => Identifier
  | reseed _ => Unit

/-- A generator that so many words have been taken from gives the highest bits of the next. -/
theorem next_after (encrypt : Block → Block) (counter : Block) (spare : Option Float) (n : Nat)
    (width : Width) :
    ∃ w, (next width.bits (Reader.after encrypt counter spare n).generator).1 = .ok w ∧
      w.toNat = keyWord encrypt counter n / 2 ^ (32 - width.bits) := by
  obtain ⟨w, _, given, number⟩ := Reader.top_after encrypt counter spare n width
  have positive := width.positive
  have fits := width.fits
  have inside : ¬ ((width.bits : Int) < 1 ∨ 32 < (width.bits : Int)) := by omega
  refine ⟨w, ?_, number⟩
  rw [next, if_neg inside, Int.toNat_natCast]
  exact congrArg (fun out : UInt32 × Generator => Except.ok out.1) given

variable [Trigonometry]

def Kind.draw : (kind : Kind) → Attempt kind.Answer
  | next bits => Generator.next bits
  | boolean => liftM Generator.boolean
  | bytes n => liftM (Generator.bytes n)
  | int => liftM Generator.int
  | intBelow bound => Generator.intBelow bound
  | intBetween least bound => Generator.intBetween least bound
  | long => liftM Generator.long
  | longBelow bound => Generator.longBelow bound
  | longBetween least bound => Generator.longBetween least bound
  | double => liftM Generator.double
  | doubleBelow bound => Generator.doubleBelow bound
  | doubleBetween least bound => Generator.doubleBetween least bound
  | gaussian => Generator.gaussian
  | hex n => liftM (Generator.hex n)
  | uuid => liftM Generator.uuid
  | identifier => liftM Generator.identifier
  | identifierBelow bound => Generator.identifierBelow bound
  | identifierBetween least bound => Generator.identifierBetween least bound
  | reseed seed => setSeed seed

/-- Draws one after the other, those that are refused included. -/
def drawAll : List Kind → Draw (List (Σ kind : Kind, Except Failure kind.Answer))
  | [] => return []
  | kind :: kinds => do
    let answer ← kind.draw.run
    return ⟨kind, answer⟩ :: (← drawAll kinds)

theorem asks_draw (kind : Kind) : Asks kind.draw.run := by
  cases kind with
  | next bits => exact asks_next bits
  | boolean => exact asks_lift asks_boolean
  | bytes n => exact asks_lift (asks_bytes n)
  | int => exact asks_lift asks_int
  | intBelow bound => exact asks_intBelow bound
  | intBetween least bound => exact asks_intBetween least bound
  | long => exact asks_lift asks_long
  | longBelow bound => exact asks_longBelow bound
  | longBetween least bound => exact asks_longBetween least bound
  | double => exact asks_lift asks_double
  | doubleBelow bound => exact asks_doubleBelow bound
  | doubleBetween least bound => exact asks_doubleBetween least bound
  | gaussian => exact asks_gaussian
  | hex n => exact asks_lift (asks_hex n)
  | uuid => exact asks_lift asks_uuid
  | identifier => exact asks_lift asks_identifier
  | identifierBelow bound => exact asks_identifierBelow bound
  | identifierBetween least bound => exact asks_identifierBetween least bound
  | reseed seed => exact asks_throw .reseed

theorem asks_drawAll (kinds : List Kind) : Asks (drawAll kinds) := by
  induction kinds with
  | nil => exact asks_pure []
  | cons kind kinds ih =>
    exact asks_bind (asks_draw kind) fun _ => asks_bind ih fun _ => asks_pure _

/-- The draws as a program of questions, and what it has taken of the key stream. -/
structure Consumed (kinds : List Kind)
    (p : Asking (List (Σ kind : Kind, Except Failure kind.Answer))) (encrypt : Block → Block)
    (counter : Block) : Prop where
  same : p.run = drawAll kinds
  /-- A word to each question, from the first word on. -/
  answered : p.Answered encrypt counter 0 (start encrypt counter) (.start encrypt counter)
  /-- A call that comes after the draws is given the highest bits of the word after those. -/
  next : ∀ width : Width, ∃ w,
    (Generator.next width.bits (drawAll kinds (start encrypt counter)).2).1 = .ok w ∧
      w.toNat = keyWord encrypt counter (p.calls (start encrypt counter)).length /
        2 ^ (32 - width.bits)

/-- Whatever is drawn, it is drawn by one program of questions, whatever the cipher makes of a key
and a block, and the key stream is read from its beginning, word after word. -/
theorem drawAll_consumes (kinds : List Kind) :
    ∃ p, ∀ (cipher : Block → Block → Block) (key counter : Block),
      Consumed kinds p (cipher key) counter := by
  obtain ⟨p, same⟩ := asks_drawAll kinds
  refine ⟨p, fun cipher key counter => ?_⟩
  have answered : p.Answered (cipher key) counter 0 (start (cipher key) counter)
      (.start (cipher key) counter) := by
    have begun := p.answered (cipher key) counter none 0
    rw [Reader.after_zero] at begun
    exact begun
  refine ⟨same, answered, fun width => ?_⟩
  obtain ⟨spare, left⟩ := answered.left
  rw [same, Nat.zero_add] at left
  rw [left]
  exact next_after (cipher key) counter spare _ width

end VesselRelay.Generator
