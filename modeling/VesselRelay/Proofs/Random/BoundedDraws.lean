import VesselRelay.Proofs.Random.Exact

/-!
What a caller may rely on when drawing from a range, whatever has been drawn before: the value lies
in the range, signed words are wide enough for all the arithmetic on the way, and a long range comes
down to one of 31 bits.
-/
namespace VesselRelay.Generator

structure KeepsBounds (g : Generator) : Prop where
  /-- What is returned lies in its range, here and where draws of other kinds return. -/
  ints_below : ∀ {bound v}, (intBelow bound g).1 = .ok v → 0 ≤ v ∧ v < bound
  ints_between : ∀ {least bound v}, (intBetween least bound g).1 = .ok v → least ≤ v ∧ v < bound
  longs_below : ∀ {bound v}, (longBelow bound g).1 = .ok v → 0 ≤ v ∧ v < bound
  longs_between : ∀ {least bound v}, (longBetween least bound g).1 = .ok v → least ≤ v ∧ v < bound
  identifiers_below : ∀ {bound v}, (identifierBelow bound g).1 = .ok v → v < bound
  identifiers_between : ∀ {least bound v},
    (identifierBetween least bound g).1 = .ok v → ¬ v < least ∧ v < bound
  /-- No result on the way leaves its type, here and in draws of other kinds. -/
  ints_below_fit : ∀ bound, Checked.intBelow bound g = some (intBelow bound g)
  ints_between_fit : ∀ least bound,
    Checked.intBetween least bound g = some (intBetween least bound g)
  longs_below_fit : ∀ bound, Checked.longBelow bound g = some (longBelow bound g)
  longs_between_fit : ∀ least bound,
    Checked.longBetween least bound g = some (longBetween least bound g)
  identifiers_below_fit : ∀ bound, Checked.identifierBelow bound g = some (identifierBelow bound g)
  identifiers_between_fit : ∀ least bound,
    Checked.identifierBetween least bound g = some (identifierBetween least bound g)
  /-- Halving ends for every bound, and what it leaves is a range that 31 bits hold. -/
  halving_ends : ∀ {bound : Int64}, 0 < bound → ∃ (s : Stretch) (h : Generator),
    Checked.halving 33 0 bound g = some (.ok (.ofNat s.offset, .ofNat s.length), h) ∧
      0 < s.length ∧ s.length < 2 ^ 31 ∧ (s.offset + s.length : Int) ≤ bound.toInt

theorem halving_below {bound : Int64} (positive : 0 < bound) (g : Generator) :
    ∃ (s : Stretch) (h : Generator),
      Checked.halving 33 0 bound g = some (.ok (.ofNat s.offset, .ofNat s.length), h) ∧
        0 < s.length ∧ s.length < 2 ^ 31 ∧ (s.offset + s.length : Int) ≤ bound.toInt := by
  have above : 0 < bound.toInt := Int64.lt_iff_toInt_lt.mp positive
  obtain ⟨n, nonzero, fits, same, number⟩ := Checked.exists_eq_ofNat above
  have halved := Checked.halving_exact 33 (s := ⟨0, n⟩) (by simpa using fits)
    (by dsimp only; omega) g
  obtain ⟨_, within, short⟩ := shorten_within ⟨0, n⟩ g
  have rest := shorten_pos (s := ⟨0, n⟩) nonzero g
  unfold shortLength at short
  dsimp only at within
  exact ⟨_, _, same ▸ halved, rest, by omega, by omega⟩

theorem keepsBounds (g : Generator) : g.KeepsBounds where
  ints_below := intBelow_range
  ints_between := intBetween_range
  longs_below := longBelow_range
  longs_between := longBetween_range
  identifiers_below := identifierBelow_range
  identifiers_between := identifierBetween_range
  ints_below_fit bound := Checked.intBelow_exact bound g
  ints_between_fit least bound := Checked.intBetween_exact least bound g
  longs_below_fit bound := Checked.longBelow_exact bound g
  longs_between_fit least bound := Checked.longBetween_exact least bound g
  identifiers_below_fit bound := Checked.identifierBelow_exact bound g
  identifiers_between_fit least bound := Checked.identifierBetween_exact least bound g
  halving_ends positive := halving_below positive g

end VesselRelay.Generator
