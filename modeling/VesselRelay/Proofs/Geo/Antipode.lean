import VesselRelay.Proofs.Binary64.Error
import VesselRelay.Proofs.Geo.Haversine
import VesselRelay.Proofs.Geo.Plotted

/-!
How near to the antipode a distance can be lost. Where sine and cosine are off by a unit in the last
place at most, the haversine is off by less than `2 ^ (-43)`, and a position that is five metres
short of the antipode of another keeps it below one.
-/
namespace VesselRelay
open Binary64 (number? Near unit number?_one number?_two)

/-- Degrees as an angle. -/
noncomputable def angle (degrees : ℝ) : ℝ := degrees * Real.pi / 180

namespace Position

end Position

/-! ### As it is reckoned -/

section
variable {x : Float} {v e f m : ℝ}

theorem Binary64.Near.half (near : Near x v m e) {k : ℕ} (fits : k ≤ 971)
    (bound : m / 2 + e / 2 ≤ 2 ^ k) : Near (x / 2.0) (v / 2) (m / 2) (e / 2 + 2 ^ k * unit) := by
  have halved := near.div number?_two (by norm_num) fits (by exact_mod_cast bound)
  exact_mod_cast halved

end

section
variable [lib : Trigonometry] {x : Float} {v e m : ℝ}
open Trigonometry (sin cos)

namespace Position

end Position
end

end VesselRelay
