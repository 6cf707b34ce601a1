import VesselRelay.Proofs.Geo.Extent
import VesselRelay.Proofs.Geo.Sampled
import VesselRelay.Proofs.Random.Cipher

/-!
Random positions in unions of rectangles, put together in any way. A position is returned whatever
is drawn as long as each union has members, fewer than 31 bits can count. An empty union refuses,
and it is drawn like any other member: where one stands in an area, at any depth and beside whatever
rectangles, there are words that lead to it.
-/
namespace VesselRelay.Area
open Generator (Running Deals intBelow wordFor bind_apply)

variable {a : Area} {g : Generator}

/-- Whether all leaves of an area are rectangles. -/
def Rectangular (a : Area) : Prop := ∀ s ∈ a.leaves, ∃ r, s = .rectangle r

/-- Whether the members of each union in an area are fewer than 31 bits can count. -/
def Counted (a : Area) : Prop := ∀ members, Part (.union members) a → members.length < 2 ^ 31

theorem not_part_shape (members : List Area) (s : Shape) :
    ¬ Part (.union members) (.shape s) := by
  rintro ⟨⟩

theorem counted_shape (s : Shape) : Counted (.shape s) := fun members part =>
  absurd part (not_part_shape members s)

theorem counted_union {members : List Area} :
    Counted (.union members) ↔ members.length < 2 ^ 31 ∧ ∀ b ∈ members, Counted b := by
  constructor
  · exact fun counted => ⟨counted _ (.self _), fun b here others part =>
      counted others (.member here part)⟩
  · rintro ⟨few, each⟩ others (_ | ⟨here, part⟩)
    · exact few
    · exact each _ here _ part

variable [Trigonometry]

theorem sample_union {members : List Area} {v : ℕ} {h : Generator} (few : members.length < 2 ^ 31)
    (within : v < members.length)
    (drawn : intBelow (Int32.ofNat members.length) g = (.ok (Int32.ofNat v), h)) :
    (union members).sample g = sampleMember members v h := by
  have number : (Int32.ofNat v).toInt.toNat = v := by
    rw [Int32.toInt_ofNat_of_lt (within.trans few), Int.toNat_natCast]
  cases members with
  | nil => simp at within
  | cons b rest =>
    rw [sample, bind_apply]
    rw [List.length_cons] at drawn
    rw [drawn]
    exact congrArg (fun n => sampleMember (b :: rest) n h) number

theorem sampleMember_eq {members : List Area} {n : ℕ} (inside : n < members.length) :
    sampleMember members n = members[n].sample := by
  induction members generalizing n with
  | nil => simp at inside
  | cons b rest ih =>
    cases n with
    | zero => rfl
    | succ n => exact ih (Nat.lt_of_succ_lt_succ inside)

/-- Nothing but an empty union refuses a draw. -/
theorem sample_cases (a : Area) {g : Generator} (rectangular : a.Rectangular) (counted : a.Counted)
    (running : g.Running) :
    (∃ p, (a.sample g).1 = .ok p) ∨
      Part (.union []) a ∧ (a.sample g).1 = .error (.argument .nothingToSample) := by
  match a with
  | .shape s =>
    obtain ⟨r, rfl⟩ := rectangular s (by simp [leaves])
    obtain ⟨p, drawn, _⟩ := r.sample_spec g
    exact .inl ⟨p, drawn⟩
  | .union [] => exact .inr ⟨.self _, rfl⟩
  | .union (b :: rest) =>
    obtain ⟨few, each⟩ := counted_union.mp counted
    obtain ⟨v, within, drawn⟩ := running.exists_intBelow (Nat.succ_pos rest.length) few
    have further := running.draw (Generator.asks_intBelow (Int32.ofNat (rest.length + 1)))
    have here := List.getElem_mem (l := b :: rest) within
    have member : (b :: rest)[v].Rectangular := fun s leaf =>
      rectangular s (mem_leaves_union.mpr ⟨_, here, leaf⟩)
    rw [sample_union few within (Prod.ext drawn rfl), sampleMember_eq within]
    rcases sample_cases (b :: rest)[v] member (each _ here) further with
      returned | ⟨part, refused⟩
    · exact .inl returned
    · exact .inr ⟨.member here part, refused⟩
termination_by sizeOf a
decreasing_by
  have smaller := List.sizeOf_lt_of_mem here
  simp only [union.sizeOf_spec]
  omega

/-- To each empty union in an area words lead, a word for each union around it. -/
theorem exists_words (part : Part (.union []) a) (counted : a.Counted) :
    ∃ words, ∀ g, Deals words g → (a.sample g).1 = .error (.argument .nothingToSample) := by
  induction part with
  | self => exact ⟨[], fun g _ => rfl⟩
  | @member b members here _ ih =>
    obtain ⟨few, each⟩ := counted_union.mp counted
    obtain ⟨words, refused⟩ := ih (each b here)
    obtain ⟨v, within, rfl⟩ := List.getElem_of_mem here
    refine ⟨wordFor members.length v :: words, fun g deals => ?_⟩
    obtain ⟨h, drawn, rest⟩ := Generator.intBelow_of_deals within few deals
    rw [sample_union few within drawn, sampleMember_eq within]
    exact refused h rest

/-- How random positions are drawn from an area. -/
structure Draws (a : Area) : Prop where
  /-- A position of the area is returned, or it is refused that there is nothing to draw from. -/
  outcome : ∀ g : Generator, g.Running →
    (∃ p, (a.sample g).1 = .ok p ∧ a.contains p) ∨
      (a.sample g).1 = .error (.argument .nothingToSample)
  whole : ¬ Part (.union []) a → ∀ g : Generator, g.Running →
    ∃ p, (a.sample g).1 = .ok p ∧ a.contains p
  /-- Where an empty union stands in the area, it depends on the words whether it is refused. -/
  hollow : Part (.union []) a → ∃ words, (∃ g, Deals words g) ∧
    ∀ g, Deals words g → (a.sample g).1 = .error (.argument .nothingToSample)

theorem contains_of_rectangular {p : Position} (rectangular : a.Rectangular)
    (returned : (a.sample g).1 = .ok p) : a.contains p := by
  rcases holds_sample returned with held | ⟨c, leaf, _⟩
  · exact held
  · obtain ⟨r, other⟩ := rectangular _ leaf
    cases other

theorem draws_of_rectangular (rectangular : a.Rectangular) (counted : a.Counted) : Draws a where
  outcome g running := by
    rcases sample_cases a rectangular counted running with ⟨p, returned⟩ | ⟨_, refused⟩
    · exact .inl ⟨p, returned, contains_of_rectangular rectangular returned⟩
    · exact .inr refused
  whole solid g running := by
    rcases sample_cases a rectangular counted running with ⟨p, returned⟩ | ⟨part, _⟩
    · exact ⟨p, returned, contains_of_rectangular rectangular returned⟩
    · exact absurd part solid
  hollow part := by
    obtain ⟨words, refused⟩ := exists_words part counted
    exact ⟨words, ⟨_, Generator.deals_unread id .zero none words⟩, refused⟩

omit [Trigonometry] in
/-- A square and a union of it alone: whatever the words are, a position of the square is drawn. -/
theorem draws_of_rectangular_of_square :
    let _ : Trigonometry := ⟨fun _ => 0.0, fun _ => 1.0, fun _ => 1.0, fun _ _ => 0.0, fun _ => 0.0⟩
    let square : Area := .shape (.rectangle ⟨⟨17, 9, by decide +kernel, by decide +kernel⟩,
      ⟨15, 11, by decide +kernel, by decide +kernel⟩, by decide +kernel, by decide +kernel⟩)
    let a : Area := .union [square, .union [square]]
    a.Rectangular ∧ a.Counted ∧ ¬ Part (.union []) a ∧ Draws a := by
  intro _ square a
  have rectangular : a.Rectangular := by
    intro s leaf
    simp only [a, square, leaves, leavesOf, List.append_nil, List.cons_append, List.nil_append,
      List.mem_cons, List.not_mem_nil, or_false, or_self] at leaf
    exact ⟨_, leaf⟩
  have counted : a.Counted := by
    simp [a, square, counted_union, counted_shape]
  have solid : ¬ Part (.union []) a := by
    simp [a, square, part_cons, not_part_shape]
  exact ⟨rectangular, counted, solid, draws_of_rectangular rectangular counted⟩

/-- Where one member is an empty union, it is drawn under every key after some counter. -/
theorem exists_counter_refused {members : List Area} (here : .union [] ∈ members)
    (few : members.length < 2 ^ 31) (key : Block) :
    ∃ counter, ((union members).sample (.start (Aes.encrypt key) counter)).1 =
      .error (.argument .nothingToSample) := by
  obtain ⟨v, within, hollow⟩ := List.getElem_of_mem here
  obtain ⟨counter, deals⟩ := Aes.exists_counter_deals key (wordFor members.length v) 0 0 0
  obtain ⟨h, drawn, _⟩ := Generator.intBelow_of_deals within few deals
  refine ⟨counter, ?_⟩
  rw [sample_union few within drawn, sampleMember_eq within, hollow]
  rfl

omit [Trigonometry] in
/-- A square beside an empty union is refused under every key after some counter. -/
theorem sample_refused_beside_hollow :
    let _ : Trigonometry := ⟨fun _ => 0.0, fun _ => 1.0, fun _ => 1.0, fun _ _ => 0.0, fun _ => 0.0⟩
    let square : Rectangle := ⟨⟨17, 9, by decide +kernel, by decide +kernel⟩,
      ⟨15, 11, by decide +kernel, by decide +kernel⟩, by decide +kernel, by decide +kernel⟩
    let a : Area := .union [.shape (.rectangle square), .union []]
    a.leaves = [.rectangle square] ∧
      ∀ key, ∃ counter,
        Running (.start (Aes.encrypt key) counter) ∧
          (a.sample (.start (Aes.encrypt key) counter)).1 =
            .error (.argument .nothingToSample) := by
  intro _ square a
  have here : Area.union [] ∈ [.shape (.rectangle square), .union []] :=
    List.mem_cons_of_mem _ (List.mem_singleton_self _)
  refine ⟨rfl, fun key => ?_⟩
  obtain ⟨counter, refused⟩ := exists_counter_refused here (by decide) key
  exact ⟨counter, Generator.running_start (Aes.encrypt_injective key) counter, refused⟩

end VesselRelay.Area
