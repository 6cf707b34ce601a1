import Mathlib.Order.Nat
import VesselRelay.Random.Source

/-!
How the generator of a source comes to be. While there is none, a draw reads a key and then a
counter. If either read fails the draw is refused, and what had been read for it is lost; if neither
does, the generator is keyed from the 32 bytes that come next, none of which has been handed out
before. From then on the two halves of the source go apart: draws turn the generator, and only fills
spend the entropy. So a generator depends on those 32 bytes and on the reads up to them, and on no
other byte and no later failure.
-/
namespace VesselRelay

namespace Entropy

/-- Whether a key and a counter can be read. -/
def Yields (e : Entropy) : Prop :=
  e.failsAt e.reads = false ∧ e.failsAt (e.reads + 1) = false

/-- The block of the bytes from a place on. -/
def blockAt (e : Entropy) (place : ℕ) : Block :=
  ⟨(List.range 16).map fun i => e.byteAt (place + i), by simp⟩

/-- What is left behind a key and a counter. -/
def behind (e : Entropy) : Entropy := { e with taken := e.taken + 32, reads := e.reads + 2 }

/-- What is left where only one of them, or neither, could be read. -/
def wasted (e : Entropy) : Entropy :=
  if e.failsAt e.reads then { e with reads := e.reads + 1 }
  else { e with taken := e.taken + 16, reads := e.reads + 2 }

theorem readBlock_of_fails {e : Entropy} (fails : e.failsAt e.reads = true) :
    e.readBlock = (.error .entropy, { e with reads := e.reads + 1 }) := by
  simp [readBlock, fails]

theorem readBlock_of_yields {e : Entropy} (yields : e.failsAt e.reads = false) :
    e.readBlock =
      (.ok (e.blockAt e.taken), { e with taken := e.taken + 16, reads := e.reads + 1 }) := by
  simp [readBlock, blockAt, yields]

theorem blockAt_congr {e f : Entropy} {place : ℕ}
    (same : ∀ i < 16, e.byteAt (place + i) = f.byteAt (place + i)) :
    e.blockAt place = f.blockAt place := by
  have row : (List.range 16).map (fun i => e.byteAt (place + i)) =
      (List.range 16).map fun i => f.byteAt (place + i) :=
    List.map_congr_left fun i member => same i (List.mem_range.mp member)
  unfold blockAt
  simp only [row]

/-- Whether an entropy is another of which more has been read. -/
structure Further (e f : Entropy) : Prop where
  byteAt : e.byteAt = f.byteAt
  failsAt : e.failsAt = f.failsAt
  taken : e.taken ≤ f.taken
  reads : e.reads ≤ f.reads

namespace Further

theorem refl (e : Entropy) : Further e e := ⟨rfl, rfl, le_rfl, le_rfl⟩

theorem trans {e f h : Entropy} (first : Further e f) (second : Further f h) : Further e h :=
  ⟨first.byteAt.trans second.byteAt, first.failsAt.trans second.failsAt,
    first.taken.trans second.taken, first.reads.trans second.reads⟩

end Further

theorem further_behind (e : Entropy) : e.Further e.behind :=
  ⟨rfl, rfl, Nat.le_add_right _ _, Nat.le_add_right _ _⟩

theorem further_wasted (e : Entropy) : e.Further e.wasted := by
  unfold wasted
  split
  · exact ⟨rfl, rfl, le_rfl, Nat.le_add_right _ _⟩
  · exact ⟨rfl, rfl, Nat.le_add_right _ _, Nat.le_add_right _ _⟩

theorem further_read (e : Entropy) (n : ℕ) : e.Further (e.read n).2 := by
  unfold read
  split_ifs
  · exact .refl e
  · exact ⟨rfl, rfl, le_rfl, Nat.le_add_right _ _⟩
  · exact ⟨rfl, rfl, Nat.le_add_right _ _, Nat.le_add_right _ _⟩

/-- An entropy with as much read of it as of another one. -/
def readAs (e f : Entropy) : Entropy := { e with taken := f.taken, reads := f.reads }

theorem read_readAs {e other : Entropy} {n : ℕ}
    (alike : ∀ i < (e.read n).2.reads, other.failsAt i = e.failsAt i) :
    ((other.readAs e).read n).2 = other.readAs (e.read n).2 := by
  by_cases empty : n = 0
  · simp [read, empty]
  · have made : (e.read n).2.reads = e.reads + 1 := by
      simp only [read, empty, if_false]
      split <;> rfl
    have here : other.failsAt e.reads = e.failsAt e.reads := alike _ (made ▸ Nat.lt_succ_self _)
    simp only [read, readAs, empty, here, if_false]
    split <;> rfl

theorem yields_readAs {e other : Entropy}
    (alike : ∀ i < e.reads + 2, other.failsAt i = e.failsAt i) :
    (other.readAs e).Yields ↔ e.Yields := by
  change other.failsAt e.reads = false ∧ other.failsAt (e.reads + 1) = false ↔ _
  rw [alike _ (by omega), alike _ (by omega)]
  rfl

theorem wasted_readAs {e other : Entropy} (fails : ¬ e.Yields)
    (alike : ∀ i < e.wasted.reads, other.failsAt i = e.failsAt i) :
    ¬ (other.readAs e).Yields ∧ (other.readAs e).wasted = other.readAs e.wasted := by
  unfold wasted at alike ⊢
  cases first : e.failsAt e.reads with
  | true =>
    have here : other.failsAt e.reads = true := by
      rw [← first]
      exact alike _ (by simp [first])
    refine ⟨fun yields => ?_, by simp [readAs, here]⟩
    exact nomatch here.symm.trans yields.1
  | false =>
    simp only [first, Bool.false_eq_true, if_false] at alike
    have here : other.failsAt e.reads = false := (alike _ (by omega)).trans first
    exact ⟨fails ∘ (yields_readAs alike).mp, by simp [readAs, here]⟩

end Entropy

namespace RandomSource

variable {α : Type} {s : RandomSource} {g : Generator}

/-- The generator of a key and a counter that stand in a row. -/
def keyed (cipher : Block → Block → Block) (e : Entropy) (place : ℕ) : Generator :=
  Generator.start (cipher (e.blockAt place)) (e.blockAt (place + 16))

/-- What is asked of a source: a draw of any kind, be it of a number, an identifier or a place in an
area, or bytes of the entropy itself. -/
inductive Use where
  | draw {α : Type} (attempt : Generator.Attempt α)
  | fill (n : ℕ)

namespace Use

/-- What a use makes of a source. -/
def perform : Use → RandomSource → RandomSource
  | draw attempt, s => (s.draw attempt).2
  | fill n, s => (s.fill n).2

/-- What it makes of a generator. -/
def turn : Use → Generator → Generator
  | draw attempt, g => (attempt g).2
  | fill _, g => g

/-- What it leaves of the entropy where a generator is there. -/
def spend : Use → Entropy → Entropy
  | draw _, e => e
  | fill n, e => (e.read n).2

end Use

/-- A source after uses. -/
def after (s : RandomSource) (uses : List Use) : RandomSource :=
  uses.foldl (fun s use => use.perform s) s

def turned (g : Generator) (uses : List Use) : Generator :=
  uses.foldl (fun g use => use.turn g) g

def spent (e : Entropy) (uses : List Use) : Entropy :=
  uses.foldl (fun e use => use.spend e) e

theorem after_append (s : RandomSource) (uses more : List Use) :
    s.after (uses ++ more) = (s.after uses).after more :=
  List.foldl_append

/-! ### A draw -/

theorem draw_of_current_ok {s' : RandomSource} (current : s.current = (.ok g, s'))
    (attempt : Generator.Attempt α) :
    s.draw attempt = ((attempt g).1, { s' with generator := some (attempt g).2 }) := by
  rw [draw, current]
  rfl

theorem draw_of_some (made : s.generator = some g) (attempt : Generator.Attempt α) :
    s.draw attempt = ((attempt g).1, { s with generator := some (attempt g).2 }) := by
  refine draw_of_current_ok ?_ attempt
  rw [current, made]

theorem current_of_not_yields (unmade : s.generator = none) (fails : ¬ s.entropy.Yields) :
    s.current = (.error .entropy, { s with entropy := s.entropy.wasted }) := by
  rw [current, unmade]
  unfold Entropy.wasted
  cases first : s.entropy.failsAt s.entropy.reads with
  | true => simp [Entropy.readBlock_of_fails first]
  | false =>
    have second : s.entropy.failsAt (s.entropy.reads + 1) = true :=
      eq_true_of_ne_false fun yields => fails ⟨first, yields⟩
    simp [Entropy.readBlock_of_yields first, Entropy.readBlock_of_fails, second]

theorem draw_of_not_yields (unmade : s.generator = none) (fails : ¬ s.entropy.Yields)
    (attempt : Generator.Attempt α) :
    s.draw attempt = (.error .entropy, { s with entropy := s.entropy.wasted }) := by
  rw [draw, current_of_not_yields unmade fails]

theorem current_of_yields (unmade : s.generator = none) (yields : s.entropy.Yields) :
    let g := keyed s.cipher s.entropy s.entropy.taken
    s.current = (.ok g, ⟨s.cipher, s.entropy.behind, some g⟩) := by
  rw [current, unmade]
  simp [Entropy.readBlock_of_yields, yields.1, yields.2, keyed, Entropy.behind, Entropy.blockAt]

theorem draw_of_yields (unmade : s.generator = none) (yields : s.entropy.Yields)
    (attempt : Generator.Attempt α) :
    s.draw attempt =
      let g := keyed s.cipher s.entropy s.entropy.taken
      ((attempt g).1, ⟨s.cipher, s.entropy.behind, some (attempt g).2⟩) :=
  draw_of_current_ok (current_of_yields unmade yields) attempt

/-! ### Once there is a generator -/

theorem perform_of_some (made : s.generator = some g) (use : Use) :
    use.perform s = ⟨s.cipher, use.spend s.entropy, some (use.turn g)⟩ := by
  cases use with
  | draw attempt => exact congrArg Prod.snd (draw_of_some made attempt)
  | fill n =>
    rw [Use.turn, ← made]
    rfl

/-- Draws turn the generator and fills spend the entropy, each as if the others were not there. -/
theorem after_of_some (made : s.generator = some g) (uses : List Use) :
    s.after uses = ⟨s.cipher, spent s.entropy uses, some (turned g uses)⟩ := by
  induction uses generalizing s g with
  | nil =>
    change s = ⟨s.cipher, s.entropy, some g⟩
    rw [← made]
  | cons use uses ih =>
    change (use.perform s).after uses = _
    rw [perform_of_some made, ih rfl]
    rfl

/-! ### Until there is one -/

/-- Whether a source is another one after uses, by its cipher and its entropy. -/
structure Onward (s s' : RandomSource) : Prop where
  cipher : s.cipher = s'.cipher
  entropy : s.entropy.Further s'.entropy

theorem onward_perform (s : RandomSource) (use : Use) : s.Onward (use.perform s) := by
  cases use with
  | fill n => exact ⟨rfl, s.entropy.further_read n⟩
  | draw attempt =>
    change s.Onward (s.draw attempt).2
    cases made : s.generator with
    | some g =>
      rw [draw_of_some made]
      exact ⟨rfl, .refl _⟩
    | none =>
      by_cases yields : s.entropy.Yields
      · rw [draw_of_yields made yields]
        exact ⟨rfl, s.entropy.further_behind⟩
      · rw [draw_of_not_yields made yields]
        exact ⟨rfl, s.entropy.further_wasted⟩

theorem onward_after (s : RandomSource) (uses : List Use) : s.Onward (s.after uses) := by
  induction uses generalizing s with
  | nil => exact ⟨rfl, .refl _⟩
  | cons use uses ih =>
    have first := onward_perform s use
    have rest := ih (use.perform s)
    exact ⟨first.cipher.trans rest.cipher, first.entropy.trans rest.entropy⟩

/-- The use that makes a generator is a draw whose two reads get through. -/
theorem yields_of_perform {use : Use} (unmade : s.generator = none)
    (made : (use.perform s).generator = some g) :
    s.entropy.Yields ∧ ∃ (α : Type) (attempt : Generator.Attempt α), use = .draw attempt := by
  cases use with
  | fill n => exact nomatch unmade.symm.trans made
  | draw attempt =>
    refine ⟨?_, _, attempt, rfl⟩
    by_contra fails
    rw [Use.perform, draw_of_not_yields unmade fails] at made
    exact nomatch unmade.symm.trans made

theorem exists_making {uses : List Use} (unmade : s.generator = none)
    (made : (s.after uses).generator = some g) :
    ∃ (before : List Use) (α : Type) (attempt : Generator.Attempt α) (later : List Use),
      uses = before ++ .draw attempt :: later ∧ (s.after before).generator = none ∧
        (s.after before).entropy.Yields := by
  induction uses generalizing s with
  | nil => exact nomatch unmade.symm.trans made
  | cons use uses ih =>
    cases next : (use.perform s).generator with
    | none =>
      obtain ⟨before, α, attempt, later, rfl, still, yields⟩ := ih next made
      exact ⟨use :: before, α, attempt, later, rfl, still, yields⟩
    | some h =>
      obtain ⟨yields, α, attempt, rfl⟩ := yields_of_perform unmade next
      exact ⟨[], α, attempt, uses, rfl, unmade, yields⟩

/-! ### In another entropy -/

/-- The same source in another entropy, of which as much has been read. -/
def fedBy (s : RandomSource) (other : Entropy) : RandomSource :=
  { s with entropy := other.readAs s.entropy }

/-- Without a generator a use does not see what bytes there are, and only those reads that it makes
are its concern. -/
theorem perform_fedBy {other : Entropy} {use : Use} (unmade : s.generator = none)
    (still : (use.perform s).generator = none)
    (alike : ∀ i < (use.perform s).entropy.reads, other.failsAt i = s.entropy.failsAt i) :
    use.perform (s.fedBy other) = (use.perform s).fedBy other := by
  cases use with
  | fill n =>
    have read := Entropy.read_readAs (n := n) alike
    change { s with entropy := ((other.readAs s.entropy).read n).2 } = _
    rw [read]
    rfl
  | draw attempt =>
    have fails : ¬ s.entropy.Yields := by
      intro yields
      rw [Use.perform, draw_of_yields unmade yields] at still
      exact nomatch still
    have refused := congrArg Prod.snd (draw_of_not_yields unmade fails attempt)
    change (s.fedBy other |>.draw attempt).2 = (s.draw attempt).2.fedBy other
    rw [Use.perform, refused] at alike
    obtain ⟨fails', wasted⟩ := Entropy.wasted_readAs fails alike
    rw [refused, draw_of_not_yields (s := s.fedBy other) unmade fails']
    exact congrArg (RandomSource.mk s.cipher · s.generator) wasted

theorem after_fedBy {other : Entropy} {uses : List Use} (unmade : s.generator = none)
    (still : (s.after uses).generator = none)
    (alike : ∀ i < (s.after uses).entropy.reads, other.failsAt i = s.entropy.failsAt i) :
    (s.fedBy other).after uses = (s.after uses).fedBy other := by
  induction uses generalizing s with
  | nil => rfl
  | cons use uses ih =>
    have next : (use.perform s).generator = none := by
      by_contra made
      obtain ⟨g, made⟩ := Option.ne_none_iff_exists'.mp made
      rw [after, List.foldl_cons] at still
      exact nomatch (congrArg generator (after_of_some made uses)).symm.trans still
    have here := (onward_perform s use).entropy
    have rest := (onward_after (use.perform s) uses).entropy
    change (use.perform (s.fedBy other)).after uses = _
    rw [perform_fedBy unmade next fun i within => alike i (within.trans_le rest.reads)]
    exact ih next still fun i within => (alike i within).trans (congrFun here.failsAt i)

/-! ### The making of a generator -/

theorem keyed_congr {cipher : Block → Block → Block} {e f : Entropy} {place : ℕ}
    (same : ∀ i < 32, e.byteAt (place + i) = f.byteAt (place + i)) :
    keyed cipher e place = keyed cipher f place := by
  have key : e.blockAt place = f.blockAt place :=
    Entropy.blockAt_congr fun i within => same i (by omega)
  have counter : e.blockAt (place + 16) = f.blockAt (place + 16) :=
    Entropy.blockAt_congr fun i within => by
      rw [Nat.add_assoc]
      exact same (16 + i) (by omega)
  rw [keyed, keyed, key, counter]

theorem keyed_after (s : RandomSource) (uses : List Use) :
    keyed (s.after uses).cipher (s.after uses).entropy = keyed s.cipher s.entropy := by
  have onward := onward_after s uses
  funext place
  rw [← onward.cipher]
  exact keyed_congr fun i _ => congrFun onward.entropy.byteAt.symm _

theorem draw_after_of_yields {uses : List Use} (unmade : (s.after uses).generator = none)
    (yields : (s.after uses).entropy.Yields) (attempt : Generator.Attempt α) :
    (s.after uses).draw attempt =
      let g := keyed s.cipher s.entropy (s.after uses).entropy.taken
      ((attempt g).1, ⟨s.cipher, (s.after uses).entropy.behind, some (attempt g).2⟩) := by
  rw [draw_of_yields unmade yields, keyed_after, ← (onward_after s uses).cipher]

theorem after_making {before : List Use} (unmade : (s.after before).generator = none)
    (yields : (s.after before).entropy.Yields) (attempt : Generator.Attempt α)
    (later : List Use) :
    s.after (before ++ .draw attempt :: later) =
      ⟨s.cipher, spent (s.after before).entropy.behind later,
        some (turned (keyed s.cipher s.entropy (s.after before).entropy.taken)
          (.draw attempt :: later))⟩ := by
  have drawn := congrArg Prod.snd (draw_after_of_yields unmade yields attempt)
  rw [after_append]
  change ((s.after before).draw attempt).2.after later = _
  rw [drawn]
  exact after_of_some rfl later

/-- A making comes to the same generator in any entropy that has the same bytes for it and has
failed in the same way until then. -/
theorem after_making_fedBy {before later : List Use} {attempt : Generator.Attempt α}
    {other : Entropy} (start : s.generator = none) (unmade : (s.after before).generator = none)
    (yields : (s.after before).entropy.Yields)
    (alike : ∀ i < (s.after before).entropy.reads + 2, other.failsAt i = s.entropy.failsAt i)
    (same : ∀ i < 32, other.byteAt ((s.after before).entropy.taken + i) =
      s.entropy.byteAt ((s.after before).entropy.taken + i)) :
    ((s.fedBy other).after (before ++ .draw attempt :: later)).generator =
      (s.after (before ++ .draw attempt :: later)).generator := by
  have onward := (onward_after s before).entropy
  have moved : (s.fedBy other).after before = (s.after before).fedBy other :=
    after_fedBy start unmade fun i within => alike i (Nat.lt_add_right 2 within)
  have ready : ((s.after before).fedBy other).entropy.Yields :=
    (Entropy.yields_readAs fun i within =>
      (alike i within).trans (congrFun onward.failsAt i)).mpr yields
  have bytes : keyed s.cipher (s.fedBy other).entropy (s.after before).entropy.taken =
      keyed s.cipher s.entropy (s.after before).entropy.taken := keyed_congr same
  rw [after_making unmade yields, after_making (by rwa [moved]) (by rwa [moved]), moved]
  exact congrArg (fun g => some (turned g _)) bytes

/-- Where the generator of a source comes from that began without one: it was made by a draw with
uses before it and uses behind. -/
structure Making (cipher : Block → Block → Block) (entropy : Entropy) (before : List Use)
    (attempt : Generator.Attempt α) (later : List Use) (g : Generator) : Prop where
  /-- There was none before, and both reads got through. -/
  unmade : (after { cipher, entropy } before).generator = none
  yields : (after { cipher, entropy } before).entropy.Yields
  /-- It was keyed from the bytes that came next, and draws alone have turned it since. -/
  keyed : g = turned (keyed cipher entropy (after { cipher, entropy } before).entropy.taken)
    (.draw attempt :: later)
  /-- All that had been handed out before lies below those bytes. -/
  fresh : ∀ earlier, earlier <+: before → (after { cipher, entropy } earlier).entropy.taken ≤
    (after { cipher, entropy } before).entropy.taken
  /-- Fills alone have spent the entropy since. -/
  spent : (after { cipher, entropy } (before ++ .draw attempt :: later)).entropy =
    spent (after { cipher, entropy } before).entropy.behind later
  /-- Any entropy that has those bytes and has failed in the same way until then leads to the
  same. -/
  apart : ∀ other : Entropy, other.taken = entropy.taken → other.reads = entropy.reads →
    (∀ i < (after { cipher, entropy } before).entropy.reads + 2,
      other.failsAt i = entropy.failsAt i) →
    (∀ i < 32, other.byteAt ((after { cipher, entropy } before).entropy.taken + i) =
      entropy.byteAt ((after { cipher, entropy } before).entropy.taken + i)) →
    (after { cipher, entropy := other } (before ++ .draw attempt :: later)).generator = some g

/-- What a source that began without a generator does after uses. -/
structure KeyedOnce (cipher : Block → Block → Block) (entropy : Entropy) (uses : List Use)
    (s : RandomSource) : Prop where
  /-- A draw without a generator is refused and leaves none where one of its reads fails. -/
  refused : s.generator = none → ¬ s.entropy.Yields → ∀ {α : Type} (attempt : Generator.Attempt α),
    s.draw attempt = (.error .entropy, { s with entropy := s.entropy.wasted })
  /-- It makes one where neither does. -/
  made : s.generator = none → s.entropy.Yields → ∀ {α : Type} (attempt : Generator.Attempt α),
    let g := keyed cipher entropy s.entropy.taken
    s.draw attempt = ((attempt g).1, ⟨cipher, s.entropy.behind, some (attempt g).2⟩)
  /-- Once it is there, a draw is made from it and leaves the entropy alone. -/
  drawn : ∀ g, s.generator = some g → ∀ {α : Type} (attempt : Generator.Attempt α),
    s.draw attempt = ((attempt g).1, { s with generator := some (attempt g).2 })
  /-- One of the uses has made it. -/
  making : ∀ g, s.generator = some g →
    ∃ (before : List Use) (α : Type) (attempt : Generator.Attempt α) (later : List Use),
      uses = before ++ .draw attempt :: later ∧ Making cipher entropy before attempt later g
  /-- Nothing is asked of the entropy by a fill of no bytes. -/
  empty : s.fill 0 = (.ok [], s)

theorem keyed_once (cipher : Block → Block → Block) (entropy : Entropy) (uses : List Use) :
    KeyedOnce cipher entropy uses (after { cipher, entropy } uses) where
  refused unmade fails _ attempt := draw_of_not_yields unmade fails attempt
  made unmade yields _ attempt := draw_after_of_yields unmade yields attempt
  drawn g made _ attempt := draw_of_some made attempt
  making g made := by
    obtain ⟨before, α, attempt, later, rfl, unmade, yields⟩ := exists_making rfl made
    have whole := after_making unmade yields attempt later
    refine ⟨before, α, attempt, later, rfl, unmade, yields, ?_, ?_, ?_, ?_⟩
    · rw [whole] at made
      exact (Option.some.inj made).symm
    · rintro earlier ⟨rest, rfl⟩
      rw [after_append]
      exact (onward_after _ rest).entropy.taken
    · rw [whole]
    · intro other taken reads alike same
      have start : fedBy { cipher, entropy } other = { cipher, entropy := other } := by
        rw [fedBy, Entropy.readAs, ← taken, ← reads]
      rw [← start, after_making_fedBy rfl unmade yields alike same, made]
  empty := rfl

/-- The key that was read before its counter failed is not used again. -/
example (cipher : Block → Block → Block) (byteAt : ℕ → UInt8) (attempt : Generator.Attempt α) :
    let entropy : Entropy := ⟨byteAt, (· == 1), 0, 0⟩
    (after { cipher, entropy } [.draw attempt]).generator = none ∧
      (after { cipher, entropy } [.draw attempt, .draw attempt]).generator =
        some (attempt (keyed cipher entropy 16)).2 :=
  ⟨rfl, rfl⟩

end RandomSource
end VesselRelay
