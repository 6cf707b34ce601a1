import VesselRelay.Proofs.Comparison
import VesselRelay.Proofs.Geo.Grouping

/-!
The extent of an area. Boxes are in order by what lies in them, and a merge is the least box around
two; the box of an area is so the least box around those of its leaves, however they are put
together. An empty union has no extent, and refuses a box to every area that it stands in, also to
those that have one.
-/
namespace VesselRelay

namespace Box
open Binary64 (le_trans le_refl_of_le_left le_refl_of_le_right)

/-! ### Boxes in order -/

/-- One box lies in another; they may share edges. -/
structure Within (a b : Box) : Prop where
  south : b.south ≤ a.south
  north : a.north ≤ b.north
  west : b.west ≤ a.west
  east : a.east ≤ b.east

variable {a b c : Box} {parts others : List Box}

theorem Within.refl (a : Box) : a.Within a where
  south := le_refl_of_le_left a.upright
  north := le_refl_of_le_right a.upright
  west := le_refl_of_le_left a.eastward
  east := le_refl_of_le_right a.eastward

theorem Within.trans (ab : a.Within b) (bc : b.Within c) : a.Within c where
  south := le_trans bc.south ab.south
  north := le_trans ab.north bc.north
  west := le_trans bc.west ab.west
  east := le_trans ab.east bc.east

theorem Within.antisymm (ab : a.Within b) (ba : b.Within a) : a == b := by
  have latitudes := And.intro (Binary64.beq_of_le ba.south ab.south)
    (Binary64.beq_of_le ab.north ba.north)
  have west := Binary64.beq_of_le ba.west ab.west
  have east := Binary64.beq_of_le ab.east ba.east
  have three := Bool.and_eq_true_iff.mpr ⟨Bool.and_eq_true_iff.mpr latitudes, west⟩
  exact Bool.and_eq_true_iff.mpr ⟨three, east⟩

theorem contains_iff {p : Position} :
    a.contains p ↔ a.south ≤ p.latitude ∧ p.latitude ≤ a.north ∧
      a.west ≤ p.longitude ∧ p.longitude ≤ a.east := by
  simp only [contains, Bool.and_eq_true, decide_eq_true_eq, and_assoc]

/-- A box lies in another one exactly where that one contains all it contains. -/
theorem within_iff : a.Within b ↔ ∀ p, a.contains p → b.contains p := by
  have self := Within.refl a
  simp only [contains_iff]
  constructor
  · rintro within p ⟨south, north, west, east⟩
    exact ⟨le_trans within.south south, le_trans north within.north,
      le_trans within.west west, le_trans east within.east⟩
  · intro all
    obtain ⟨_, north, west, _⟩ := all a.topLeft ⟨a.upright, self.north, self.west, a.eastward⟩
    obtain ⟨south, _, _, east⟩ := all a.bottomRight ⟨self.south, a.upright, a.eastward, self.east⟩
    exact ⟨south, north, west, east⟩

theorem within_merge_left (a b : Box) : a.Within (a.merge b) where
  south := Binary64.least_le_left (Within.refl a).south
  north := Binary64.left_le_greatest (Within.refl a).north
  west := Binary64.least_le_left (Within.refl a).west
  east := Binary64.left_le_greatest (Within.refl a).east

theorem within_merge_right (a b : Box) : b.Within (a.merge b) where
  south := Binary64.least_le_right (Within.refl a).south (Within.refl b).south
  north := Binary64.right_le_greatest (Within.refl a).north (Within.refl b).north
  west := Binary64.least_le_right (Within.refl a).west (Within.refl b).west
  east := Binary64.right_le_greatest (Within.refl a).east (Within.refl b).east

theorem merge_within (ac : a.Within c) (bc : b.Within c) : (a.merge b).Within c where
  south := Binary64.le_least ac.south bc.south
  north := Binary64.greatest_le ac.north bc.north
  west := Binary64.le_least ac.west bc.west
  east := Binary64.greatest_le ac.east bc.east

/-- The least box around others: they lie in it, and it lies in every box in which they do. -/
structure Encloses (box : Box) (parts : List Box) : Prop where
  covers : ∀ part ∈ parts, part.Within box
  least : ∀ other : Box, (∀ part ∈ parts, part.Within other) → box.Within other

theorem encloses_singleton (a : Box) : a.Encloses [a] where
  covers _ here := List.mem_singleton.mp here ▸ Within.refl a
  least _ covered := covered a List.mem_cons_self

theorem Encloses.merge (left : a.Encloses parts) (right : b.Encloses others) :
    (a.merge b).Encloses (parts ++ others) where
  covers part here := by
    rcases List.mem_append.mp here with inLeft | inRight
    · exact (left.covers part inLeft).trans (within_merge_left a b)
    · exact (right.covers part inRight).trans (within_merge_right a b)
  least other covered := by
    apply merge_within
    · exact left.least other fun part here => covered part (List.mem_append_left _ here)
    · exact right.least other fun part here => covered part (List.mem_append_right _ here)

/-- The parts alone tell the least box around them, in whatever order and however often. -/
theorem Encloses.unique (left : a.Encloses parts) (right : b.Encloses others)
    (same : ∀ part, part ∈ parts ↔ part ∈ others) : a == b :=
  (left.least b fun part here => right.covers part ((same part).mp here)).antisymm
    (right.least a fun part here => left.covers part ((same part).mpr here))

end Box

namespace Area

/-! ### Areas -/

/-- What stands in an area at any depth, the area itself included. -/
inductive Part : Area → Area → Prop
  | self (a : Area) : Part a a
  | member {a b : Area} {members : List Area} : b ∈ members → Part a b → Part a (.union members)

theorem part_cons {a b : Area} {rest : List Area} (nonempty : a ≠ .union (b :: rest)) :
    Part a (.union (b :: rest)) ↔ Part a b ∨ ∃ c ∈ rest, Part a c := by
  constructor
  · rintro (_ | ⟨here, part⟩)
    · exact absurd rfl nonempty
    · rcases List.mem_cons.mp here with rfl | later
      · exact .inl part
      · exact .inr ⟨_, later, part⟩
  · rintro (part | ⟨c, later, part⟩)
    · exact .member List.mem_cons_self part
    · exact .member (List.mem_cons_of_mem _ later) part

variable [Trigonometry]

mutual

theorem encloses_box (a : Area) {box : Box} (found : a.box = .ok box) :
    box.Encloses (a.leaves.map Shape.box) := by
  cases a with
  | shape s =>
    cases found
    exact Box.encloses_singleton s.box
  | union members =>
    cases members with
    | nil => cases found
    | cons a rest =>
      cases first : a.box with
      | error e => simp [Area.box, first, bind, Except.bind] at found
      | ok start =>
        have merged : mergeBoxes start rest = .ok box := by
          simpa [Area.box, first, bind, Except.bind] using found
        rw [leaves, leavesOf, List.map_append]
        exact encloses_mergeBoxes rest (encloses_box a first) merged

theorem encloses_mergeBoxes (members : List Area) {sofar box : Box} {parts : List Box}
    (start : sofar.Encloses parts) (merged : mergeBoxes sofar members = .ok box) :
    box.Encloses (parts ++ (leavesOf members).map Shape.box) := by
  cases members with
  | nil =>
    cases merged
    simpa [leavesOf] using start
  | cons a rest =>
    cases next : a.box with
    | error e => simp [mergeBoxes, next, bind, Except.bind] at merged
    | ok other =>
      have goOn : mergeBoxes (sofar.merge other) rest = .ok box := by
        simpa [mergeBoxes, next, bind, Except.bind] using merged
      rw [leavesOf, List.map_append, ← List.append_assoc]
      exact encloses_mergeBoxes rest (start.merge (encloses_box a next)) goOn

end

mutual

/-- Nothing but an empty union refuses a box, and none lets one through. -/
theorem box_eq_error_iff (a : Area) (e : Failure) :
    a.box = .error e ↔ e = .argument .noExtent ∧ Part (.union []) a := by
  cases a with
  | shape s =>
    simp only [Area.box, reduceCtorEq, false_iff, not_and]
    rintro - ⟨⟩
  | union members =>
    cases members with
    | nil =>
      simp only [Area.box, Except.error.injEq, Part.self, and_true]
      exact eq_comm
    | cons a rest =>
      have ofFirst := box_eq_error_iff a
      rw [part_cons (by simp)]
      cases first : a.box with
      | error e' =>
        obtain ⟨rfl, part⟩ := (ofFirst e').mp first
        simp [Area.box, first, bind, Except.bind, part, eq_comm]
      | ok start =>
        have whole : ¬ Part (.union []) a := fun part => by
          cases first.symm.trans ((ofFirst _).mpr ⟨rfl, part⟩)
        simp only [Area.box, first, bind, Except.bind, whole, false_or]
        exact mergeBoxes_eq_error_iff rest start e

theorem mergeBoxes_eq_error_iff (members : List Area) (sofar : Box) (e : Failure) :
    mergeBoxes sofar members = .error e ↔
      e = .argument .noExtent ∧ ∃ a ∈ members, Part (.union []) a := by
  cases members with
  | nil => simp [mergeBoxes]
  | cons a rest =>
    have ofNext := box_eq_error_iff a
    cases next : a.box with
    | error e' =>
      obtain ⟨rfl, part⟩ := (ofNext e').mp next
      simp [mergeBoxes, next, bind, Except.bind, part, eq_comm]
    | ok other =>
      have whole : ¬ Part (.union []) a := fun part => by
        cases next.symm.trans ((ofNext _).mpr ⟨rfl, part⟩)
      simp only [mergeBoxes, next, bind, Except.bind, List.mem_cons, exists_eq_or_imp, whole,
        false_or]
      exact mergeBoxes_eq_error_iff rest (sofar.merge other) e

end

omit [Trigonometry] in
/-- Where there is no leaf at all, an empty union stands at the bottom. -/
theorem part_of_leafless (a : Area) (leafless : a.leaves = []) : Part (.union []) a := by
  cases a with
  | shape s => cases leafless
  | union members =>
    cases members with
    | nil => exact .self _
    | cons a rest =>
      rw [leaves, leavesOf] at leafless
      exact .member List.mem_cons_self (part_of_leafless a (List.append_eq_nil_iff.mp leafless).1)

/-- How far an area extends. -/
structure Extends (a : Area) : Prop where
  /-- A box is the least one around the boxes of all leaves. -/
  encloses : ∀ box, a.box = .ok box → box.Encloses (a.leaves.map Shape.box)
  /-- It is refused exactly where an empty union stands in the area, at whatever depth. -/
  refused : ∀ e, a.box = .error e ↔ e = .argument .noExtent ∧ Part (.union []) a
  /-- That is so in every area without leaves. -/
  leafless : a.leaves = [] → a.box = .error (.argument .noExtent)
  /-- Areas of the same leaves have equal boxes, if they have one. -/
  alike : ∀ b : Area, (∀ s, s ∈ a.leaves ↔ s ∈ b.leaves) →
    ∀ box other, a.box = .ok box → b.box = .ok other → box == other

theorem extends_to_leaves (a : Area) : Extends a where
  encloses _ found := encloses_box a found
  refused e := box_eq_error_iff a e
  leafless none := (box_eq_error_iff a _).mpr ⟨rfl, part_of_leafless a none⟩
  alike b same box other found found' := by
    refine (encloses_box a found).unique (encloses_box b found') fun part => ?_
    simp only [List.mem_map, same]

omit [Trigonometry] in
/-- A rectangle beside an empty union has an extent and is refused a box. -/
theorem box_refused_beside_hollow :
    let level : Trigonometry := ⟨fun x => x, fun _ => 1, fun x => x, fun y _ => y, fun _ => 0⟩
    let northWest : Position := ⟨4, -4, by decide +kernel, by decide +kernel⟩
    let southEast : Position := ⟨-4, 4, by decide +kernel, by decide +kernel⟩
    let rectangle : Rectangle := ⟨northWest, southEast, by decide +kernel, by decide +kernel⟩
    let a : Area := .union [.shape (.rectangle rectangle), .union []]
    a.leaves = [.rectangle rectangle] ∧ a.box = .error (.argument .noExtent) ∧
      (Area.union [.shape (.rectangle rectangle)]).box = .ok rectangle.box := by
  intro level northWest southEast rectangle a
  exact ⟨rfl, rfl, rfl⟩

end Area
end VesselRelay
