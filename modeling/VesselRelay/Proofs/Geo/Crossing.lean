import VesselRelay.Geo.Ring

/-!
A ring holds the positions on its edges and those from which an odd number of its edges is met on
the way east. Odd and even are kept along a ring: a mark set on its corners changes an even number
of times when the ring is gone round, so whatever the edges of a ring are counted by, what hangs on
their ends alone does not count.
-/
namespace VesselRelay.Ring

variable {ring : List Position} {es : List Edge} {h g : Edge → Bool}

/-- Whether an odd number of edges has a property. -/
def odd (h : Edge → Bool) : List Edge → Bool
  | [] => false
  | e :: rest => h e != odd h rest

theorem odd_congr (same : ∀ e ∈ es, h e = g e) : odd h es = odd g es := by
  induction es with
  | nil => rfl
  | cons e rest ih =>
    rw [odd, odd, same e List.mem_cons_self,
      ih fun e later => same e (List.mem_cons_of_mem _ later)]

theorem odd_of_none (none : ∀ e ∈ es, h e = false) : odd h es = false := by
  induction es with
  | nil => rfl
  | cons e rest ih =>
    rw [odd, none e List.mem_cons_self, ih fun e later => none e (List.mem_cons_of_mem _ later)]
    rfl

theorem odd_bne : odd (fun e => h e != g e) es = (odd h es != odd g es) := by
  induction es with
  | nil => rfl
  | cons e rest ih =>
    rw [odd, ih, odd, odd]
    generalize odd h rest = a
    generalize odd g rest = b
    cases h e <;> cases g e <;> cases a <;> cases b <;> rfl

/-! ### Round a ring -/

theorem odd_edgesFrom (mark : Position → Bool) (previous : Position) (points : List Position) :
    odd (fun e => mark e.1 != mark e.2) (edgesFrom previous points) =
      (mark previous != mark (points.getLast?.getD previous)) := by
  induction points generalizing previous with
  | nil => simp [odd, edgesFrom]
  | cons p rest ih =>
    rw [edgesFrom, odd, ih p, List.getLast?_cons, Option.getD_some]
    generalize mark (rest.getLast?.getD p) = last
    cases mark previous <;> cases mark p <;> cases last <;> rfl

/-- Round a ring a mark changes an even number of times. -/
theorem odd_edges (mark : Position → Bool) (ring : List Position) :
    odd (fun e => mark e.1 != mark e.2) (edges ring) = false := by
  unfold edges
  cases closing : ring.getLast? with
  | none => rfl
  | some last =>
    simp only [odd_edgesFrom, closing, Option.getD_some, bne_self_eq_false]

theorem ends_of_mem_edgesFrom {previous : Position} {points : List Position} {e : Edge}
    (edge : e ∈ edgesFrom previous points) : (e.1 = previous ∨ e.1 ∈ points) ∧ e.2 ∈ points := by
  induction points generalizing previous with
  | nil => cases edge
  | cons p rest ih =>
    rcases List.mem_cons.mp edge with rfl | later
    · exact ⟨.inl rfl, List.mem_cons_self⟩
    · obtain ⟨start, finish⟩ := ih later
      refine ⟨.inr ?_, List.mem_cons_of_mem _ finish⟩
      rcases start with rfl | start
      · exact List.mem_cons_self
      · exact List.mem_cons_of_mem _ start

/-- An edge joins corners of its ring. -/
theorem ends_of_mem_edges {e : Edge} (edge : e ∈ edges ring) : e.1 ∈ ring ∧ e.2 ∈ ring := by
  unfold edges at edge
  cases closing : ring.getLast? with
  | none =>
    rw [closing] at edge
    cases edge
  | some last =>
    rw [closing] at edge
    obtain ⟨start, finish⟩ := ends_of_mem_edgesFrom edge
    refine ⟨?_, finish⟩
    rcases start with same | start
    · exact same ▸ List.mem_of_getLast? closing
    · exact start

theorem eq_of_mem_edgesFrom {α : Type} {f : Position → α} {previous : Position}
    {points : List Position} (same : ∀ e ∈ edgesFrom previous points, f e.1 = f e.2) :
    ∀ p ∈ points, f p = f previous := by
  induction points generalizing previous with
  | nil => simp
  | cons q rest ih =>
    have first : f previous = f q := same (previous, q) List.mem_cons_self
    have later := ih fun e edge => same e (List.mem_cons_of_mem _ edge)
    intro p corner
    rcases List.mem_cons.mp corner with rfl | corner
    · exact first.symm
    · exact (later p corner).trans first.symm

/-- What does not change along an edge is the same at all corners of a ring. -/
theorem eq_of_mem_edges {α : Type} {f : Position → α} (same : ∀ e ∈ edges ring, f e.1 = f e.2)
    {p q : Position} (corner : p ∈ ring) (corner' : q ∈ ring) : f p = f q := by
  unfold edges at same
  cases closing : ring.getLast? with
  | none => simp [List.getLast?_eq_none_iff.mp closing] at corner
  | some last =>
    rw [closing] at same
    have all := eq_of_mem_edgesFrom same
    exact (all p corner).trans (all q corner').symm

theorem exists_edge_to {p : Position} (corner : p ∈ ring) : ∃ e ∈ edges ring, e.2 = p := by
  have reached (points : List Position) (previous : Position) (corner : p ∈ points) :
      ∃ e ∈ edgesFrom previous points, e.2 = p := by
    induction points generalizing previous with
    | nil => cases corner
    | cons q rest ih =>
      rcases List.mem_cons.mp corner with rfl | later
      · exact ⟨_, List.mem_cons_self, rfl⟩
      · obtain ⟨e, edge, ends⟩ := ih q later
        exact ⟨e, List.mem_cons_of_mem _ edge, ends⟩
  unfold edges
  cases closing : ring.getLast? with
  | none => simp [List.getLast?_eq_none_iff.mp closing] at corner
  | some last => exact reached ring last corner

/-! ### Holding a position -/

theorem walk_eq (p : Position) (inside : Bool) (es : List Edge) :
    walk p inside es =
      (es.any (fun e => touches e p) || (inside != odd (fun e => crossesEast e p) es)) := by
  induction es generalizing inside with
  | nil => simp [walk, odd]
  | cons e rest ih =>
    rw [walk, ih, odd, List.any_cons, Bool.or_assoc]
    generalize odd (fun e => crossesEast e p) rest = later
    cases inside <;> cases crossesEast e p <;> cases later <;> rfl

theorem contains_iff {p : Position} : contains ring p ↔
    (∃ e ∈ edges ring, touches e p) ∨ odd (fun e => crossesEast e p) (edges ring) := by
  rw [contains, walk_eq, Bool.false_bne, Bool.or_eq_true, List.any_eq_true]

end VesselRelay.Ring
