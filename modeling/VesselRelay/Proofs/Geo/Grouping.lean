import VesselRelay.Proofs.Geo.Meeting

/-!
A union means the shapes that stand in it at any depth: it contains a position when one of them
does, and meets an area when one of them meets a shape of it. How the shapes are put together, in
what order, how often and among how many empty unions changes neither answer; only the box of an
area may tell, since an empty union has none.
-/
namespace VesselRelay.Area

/-! ### Leaves -/

section
variable [Trigonometry]

mutual

theorem contains_eq (a : Area) (p : Position) :
    a.contains p = a.leaves.any fun s => s.contains p := by
  cases a with
  | shape s => simp [contains, leaves]
  | union members => exact anyContains_eq members p

theorem anyContains_eq (members : List Area) (p : Position) :
    anyContains members p = (leavesOf members).any fun s => s.contains p := by
  cases members with
  | nil => rfl
  | cons a rest =>
    rw [anyContains, leavesOf, List.any_append, contains_eq a p, anyContains_eq rest p]

end

theorem contains_iff (a : Area) (p : Position) :
    a.contains p ↔ ∃ s ∈ a.leaves, s.contains p := by
  simp only [contains_eq, List.any_eq_true]

end

theorem leavesOf_eq (members : List Area) : leavesOf members = members.flatMap leaves := by
  induction members with
  | nil => rfl
  | cons a rest ih => rw [leavesOf, List.flatMap_cons, ih]

theorem mem_leaves_union {members : List Area} {s : Shape} :
    s ∈ (union members).leaves ↔ ∃ a ∈ members, s ∈ a.leaves := by
  rw [leaves, leavesOf_eq, List.mem_flatMap]

theorem mem_leaves_cons {a : Area} {rest : List Area} {s : Shape} :
    s ∈ (union (a :: rest)).leaves ↔ s ∈ a.leaves ∨ s ∈ (union rest).leaves := by
  rw [leaves, leavesOf, List.mem_append, leaves]

/-! ### Rearrangements -/

/-- Areas that put the same shapes together in different ways: one may be turned into the other by
changes to unions at any depth. -/
inductive Regrouped : Area → Area → Prop
  | refl (a : Area) : Regrouped a a
  | symm {a b : Area} : Regrouped a b → Regrouped b a
  | trans {a b c : Area} : Regrouped a b → Regrouped b c → Regrouped a c
  | reorder {members others : List Area} :
      members.Perm others → Regrouped (.union members) (.union others)
  | duplicate {a : Area} {members : List Area} :
      a ∈ members → Regrouped (.union members) (.union (a :: members))
  | pad (members : List Area) : Regrouped (.union members) (.union (.union [] :: members))
  | regroup (inner outer : List Area) :
      Regrouped (.union (inner ++ outer)) (.union (.union inner :: outer))
  | wrap (a : Area) : Regrouped a (.union [a])
  | within {a b : Area} (rest : List Area) :
      Regrouped a b → Regrouped (.union (a :: rest)) (.union (b :: rest))

theorem Regrouped.mem_leaves {a b : Area} (same : Regrouped a b) (s : Shape) :
    s ∈ a.leaves ↔ s ∈ b.leaves := by
  induction same with
  | refl a => rfl
  | symm _ ih => exact ih.symm
  | trans _ _ first second => exact first.trans second
  | reorder perm => simp only [mem_leaves_union, perm.mem_iff]
  | duplicate member =>
    rw [mem_leaves_cons, mem_leaves_union]
    constructor
    · exact .inr
    · rintro (leaf | leaf)
      · exact ⟨_, member, leaf⟩
      · exact leaf
  | pad members => simp [leaves, leavesOf]
  | regroup inner outer =>
    rw [mem_leaves_cons]
    simp only [mem_leaves_union, List.mem_append, or_and_right, exists_or]
  | wrap a => simp [leaves, leavesOf]
  | within rest _ ih => rw [mem_leaves_cons, mem_leaves_cons, ih]

/-- Uniting areas one after the other is uniting them at once. -/
theorem regrouped_foldl_unionWith (a : Area) (rest : List Area) :
    Regrouped (rest.foldl unionWith a) (.union (a :: rest)) := by
  induction rest generalizing a with
  | nil => exact .wrap a
  | cons b rest ih =>
    have united := ih (a.unionWith b)
    exact united.trans (Regrouped.regroup [a, b] rest).symm

/-! ### What rearrangements leave alone -/

variable [Trigonometry]

/-- No position and no area tells the two apart. -/
structure Alike (a b : Area) : Prop where
  contains : ∀ p, a.contains p = b.contains p
  intersects : ∀ c : Area, a.intersects c = b.intersects c
  intersected : ∀ c : Area, c.intersects a = c.intersects b

theorem alike_of_leaves {a b : Area} (same : ∀ s, s ∈ a.leaves ↔ s ∈ b.leaves) : Alike a b where
  contains p := by
    apply Bool.eq_iff_iff.mpr
    simp only [contains_iff, same]
  intersects c := by
    apply Bool.eq_iff_iff.mpr
    simp only [intersects_iff, same]
  intersected c := by
    apply Bool.eq_iff_iff.mpr
    simp only [intersects_iff, same]

/-- Both answers of an area are those of its leaves, so neither changes when they are grouped,
ordered or repeated in another way, and an area without leaves answers no to everything. -/
theorem answers_of_leaves :
    (∀ (a : Area) (p : Position), a.contains p ↔ ∃ s ∈ a.leaves, (shape s).contains p) ∧
    (∀ a b : Area, a.intersects b ↔
      ∃ s ∈ a.leaves, ∃ t ∈ b.leaves, (shape s).intersects (shape t)) ∧
    (∀ a b : Area, Regrouped a b → Alike a b) ∧
    (∀ (a : Area) (rest : List Area), Alike (rest.foldl unionWith a) (.union (a :: rest))) ∧
    (∀ a : Area, a.leaves = [] → (∀ p, a.contains p = false) ∧
      ∀ b : Area, a.intersects b = false ∧ b.intersects a = false) := by
  refine ⟨contains_iff, intersects_iff, ?_, ?_, ?_⟩
  · intro a b same
    exact alike_of_leaves same.mem_leaves
  · intro a rest
    exact alike_of_leaves (regrouped_foldl_unionWith a rest).mem_leaves
  · intro a leafless
    refine ⟨fun p => ?_, fun b => ⟨?_, ?_⟩⟩
    · simp [contains_eq, leafless]
    · simp [intersects_eq, leafless]
    · simp [intersects_eq, leafless]

omit [Trigonometry] in
/-- Two spellings of a rectangle and a circle, nested, reordered and repeated differently. -/
theorem answers_of_leaves_regrouped :
    let level : Trigonometry := ⟨fun x => x, fun _ => 1, fun x => x, fun y _ => y, fun _ => 0⟩
    let harbor : Position := ⟨0.5, 0.25, by decide +kernel, by decide +kernel⟩
    let northWest : Position := ⟨2, -2, by decide +kernel, by decide +kernel⟩
    let southEast : Position := ⟨-2, 2, by decide +kernel, by decide +kernel⟩
    let circle : Area := .shape (.circle ⟨harbor, 400, .geodesic, by decide +kernel⟩)
    let rectangle : Area :=
      .shape (.rectangle ⟨northWest, southEast, by decide +kernel, by decide +kernel⟩)
    let a : Area := .union [circle, rectangle]
    let b : Area := .union [.union [], .union [rectangle, circle], circle]
    Regrouped a b ∧ Alike a b ∧ a.contains harbor = true ∧ b.intersects circle = true := by
  intro level harbor northWest southEast circle rectangle a b
  have same : Regrouped a b := by
    have inner : Regrouped (.union [circle, rectangle, circle])
        (.union [.union [rectangle, circle], circle]) :=
      (Regrouped.reorder (List.Perm.swap rectangle circle [circle])).trans
        (.regroup [rectangle, circle] [circle])
    have twice : Regrouped a (.union [circle, rectangle, circle]) := by
      refine (Regrouped.duplicate (List.mem_cons_self (a := circle))).trans ?_
      exact .reorder (.cons circle (.swap rectangle circle []))
    exact (twice.trans inner).trans (.pad _)
  have alike : Alike a b := answers_of_leaves.2.2.1 a b same
  have held : a.contains harbor = true := by decide +kernel
  have met : a.intersects circle = true := by decide +kernel
  exact ⟨same, alike, held, alike.intersects circle ▸ met⟩

end VesselRelay.Area
