import Mathlib
import VesselRelay.Locator
import VesselRelay.Proofs.Identifier.Spelling
import VesselRelay.Proofs.Registry.Census

/-!
What the answer to a request holds: eligible targets alone and each once, the nearest first where
there is a sender, in the registry's order where there is none, and as many as there are and the
limit lets through. A target whose distance is not a number is out of reach, so the distances that
are sorted all compare.
-/
namespace VesselRelay

/-! ### Reach -/

section
open Float.Model (UnpackedFloat Format)

/-- A finite double has at most 53 bits of significand, and its exponent ends at 971. -/
theorem bounds_of_unpack {b : BitVec Format.binary64.numBits} {s : UnpackedFloat.Sign} {m : Nat}
    {e : Int} {positive : 0 < m}
    (finite : UnpackedFloat.unpack .binary64 b = .finite s m e positive) :
    m < 2 ^ 53 ∧ e ≤ 971 := by
  have fraction : (UnpackedFloat.unpackMantissa b).toNat < 2 ^ 52 := BitVec.isLt _
  have whole : (1#1 ++ UnpackedFloat.unpackMantissa b).toNat < 2 ^ 53 := BitVec.isLt _
  have biased : (UnpackedFloat.unpackExponent b).toNat < 2048 := BitVec.isLt _
  have bias : (Format.exponentBias .binary64 : Int) = 1023 := rfl
  unfold UnpackedFloat.unpack at finite
  dsimp only at finite
  split at finite
  · split at finite <;> cases finite
  · rename_i notTop
    have below : (UnpackedFloat.unpackExponent b).toNat ≠ 2047 := fun top =>
      notTop (BitVec.eq_of_toNat_eq top)
    split at finite
    · split at finite
      · cases finite
      · rename_i least _
        have zero : (UnpackedFloat.unpackExponent b).toNat = 0 := congrArg BitVec.toNat least
        cases finite
        omega
    · cases finite
      omega

def GreatestFinite (x : Float) : Prop := x.isFinite ∧ ∀ y : Float, y.isFinite → y ≤ x

theorem greatestFinite_unbounded : GreatestFinite LocateRequest.unbounded := by
  refine ⟨by decide +kernel, fun y finite => ?_⟩
  have last : Binary64.place LocateRequest.unbounded = some (1, 971, 2 ^ 53 - 1) := by
    decide +kernel
  rw [Binary64.le_iff]
  change y.toModel.unpack.isFinite = true at finite
  unfold Binary64.place at *
  cases given : y.toModel.unpack with
  | notANumber | infinity => simp [given, UnpackedFloat.isFinite] at finite
  | zero =>
    refine ⟨_, _, rfl, last, ?_⟩
    simp only [Binary64.RankLt]
    omega
  | finite s m e positive =>
    obtain ⟨short, low⟩ := bounds_of_unpack given
    cases s <;>
    · refine ⟨_, _, rfl, last, ?_⟩
      simp only [Binary64.RankLt]
      omega

end

namespace LocateRequest
variable {request : LocateRequest}

theorem reach_of_radius {radius : Int32} (given : request.radius = some radius)
    (positive : 0 < radius) : request.reach = Binary64.ofInt radius.toInt := by
  rw [reach, given]
  exact if_pos positive

theorem greatestFinite_reach (none : ∀ radius, request.radius = some radius → ¬ 0 < radius) :
    GreatestFinite request.reach := by
  have unlimited : request.reach = unbounded := by
    unfold reach
    split
    · rename_i radius given
      exact if_neg (none radius given)
    · rfl
  rw [unlimited]
  exact greatestFinite_unbounded

/-- How many of a number of candidates are given. -/
def kept (request : LocateRequest) (count : Nat) : Nat :=
  match request.limit with
  | some limit => if 0 < limit then min count limit.toInt.toNat else count
  | none => count

theorem cut_eq (located : List Located) :
    request.cut located = located.take (request.kept located.length) := by
  unfold cut kept
  cases request.limit with
  | none => exact List.take_length.symm
  | some limit =>
    by_cases positive : 0 < limit
    · simp only [if_pos positive, Nat.min_comm located.length]
      rw [← List.take_take, List.take_length]
    · simp only [if_neg positive, List.take_length]

theorem kept_le (request : LocateRequest) (count : Nat) : request.kept count ≤ count := by
  unfold kept
  split
  · split
    · exact Nat.min_le_left _ _
    · exact Nat.le_refl _
  · exact Nat.le_refl _

theorem place?_eq_some [Trigonometry] {t : Target} {fix : Fix} {e : Located} :
    request.place? t fix = some e ↔
      e = ⟨t.id, fix, request.sender.map fix.position.geodesicDistance⟩ ∧
      ∀ sender, request.sender = some sender →
        fix.position.geodesicDistance sender ≤ request.reach := by
  unfold place?
  cases request.sender with
  | none => simp [eq_comm]
  | some sender =>
    by_cases near : fix.position.geodesicDistance sender ≤ request.reach <;>
      simp [near, eq_comm]

end LocateRequest

/-! ### Distances in order -/

namespace Located
variable {a b c : Located}

/-- The distance is there, and it is a number. -/
def Measured (a : Located) : Prop := ∃ x, a.distance = some x ∧ x ≤ x

def Before (a b : Located) : Prop := ∃ x y, a.distance = some x ∧ b.distance = some y ∧ x ≤ y

theorem before_iff_notAfter (ha : a.Measured) (hb : b.Measured) : a.Before b ↔ a.notAfter b := by
  obtain ⟨x, atX, hx⟩ := ha
  obtain ⟨y, atY, hy⟩ := hb
  simp only [Before, notAfter, atX, atY, Bool.not_eq_true', decide_eq_false_iff_not]
  constructor
  · rintro ⟨_, _, ⟨⟩, ⟨⟩, le⟩
    exact Binary64.not_lt_of_le le
  · intro not
    exact ⟨x, y, rfl, rfl, Binary64.le_of_not_lt hx hy not⟩

theorem Before.trans (ab : a.Before b) (bc : b.Before c) : a.Before c := by
  obtain ⟨x, y, atX, atY, xy⟩ := ab
  obtain ⟨y', z, atY', atZ, yz⟩ := bc
  obtain rfl : y = y' := Option.some.inj (atY.symm.trans atY')
  exact ⟨x, z, atX, atZ, Binary64.le_trans xy yz⟩

theorem notAfter_total (a b : Located) : a.notAfter b || b.notAfter a := by
  unfold notAfter
  cases a.distance with
  | none => rfl
  | some x =>
    cases b.distance with
    | none => rfl
    | some y =>
      by_cases less : y < x
      · have notLess : ¬ x < y := Binary64.not_lt_of_le (Binary64.le_of_lt less)
        simp [notLess]
      · simp [less]

/-- Sorting puts measured entries in order: among them the comparison is one of numbers. -/
theorem pairwise_mergeSort {located : List Located} (measured : ∀ a ∈ located, a.Measured) :
    (located.mergeSort notAfter).Pairwise Before := by
  let among (a b : { a : Located // a.Measured }) : Bool := a.1.notAfter b.1
  have trans : ∀ a b c, among a b → among b c → among a c := by
    intro a b c ab bc
    apply (before_iff_notAfter a.2 c.2).mp
    exact ((before_iff_notAfter a.2 b.2).mpr ab).trans ((before_iff_notAfter b.2 c.2).mpr bc)
  have sorted := List.pairwise_mergeSort trans (fun a b => notAfter_total a.1 b.1)
    (located.attachWith Measured measured)
  have same : ((located.attachWith Measured measured).mergeSort among).map Subtype.val =
      located.mergeSort notAfter := by
    rw [List.map_mergeSort (f := Subtype.val) (s := notAfter) fun _ _ _ _ => rfl,
      List.attachWith_map_subtype_val]
  rw [← same, List.pairwise_map]
  exact sorted.imp fun {a b} => (before_iff_notAfter a.2 b.2).mpr

end Located

/-! ### Candidates -/

section
variable [Trigonometry]

/-- Whether a target may be given to a requester: it has a fix, offers the endpoint, is not the
requester and, where there is a sender, is within reach of it. -/
def Eligible (r : Registry) (requester : Identifier) (request : LocateRequest)
    (id : Identifier) : Prop :=
  id ≠ requester ∧ ∃ t fix, r.find? id = some t ∧ t.fix = some fix ∧ t.offers request.endpoint ∧
    ∀ sender, request.sender = some sender → fix.position.geodesicDistance sender ≤ request.reach

/-- What a request may be answered with, in the registry's order. -/
def candidates (r : Registry) (requester : Identifier) (request : LocateRequest) : List Located :=
  r.sightings.filterMap fun (t, fix) =>
    if t.id = requester || !t.offers request.endpoint then none else request.place? t fix

/-- The entry of an eligible target, as it is now. -/
def entry (request : LocateRequest) (id : Identifier) (fix : Fix) : Located :=
  ⟨id, fix, request.sender.map fix.position.geodesicDistance⟩

variable {r : Registry} {requester id : Identifier} {request : LocateRequest} {e : Located}

/-- There is one target under an identifier and it has one fix, so eligibility speaks of that. -/
theorem Eligible.of_fix {t : Target} {fix : Fix} (eligible : Eligible r requester request id)
    (found : r.find? id = some t) (fixed : t.fix = some fix) :
    t.offers request.endpoint ∧ ∀ sender, request.sender = some sender →
      fix.position.geodesicDistance sender ≤ request.reach := by
  obtain ⟨_, t', fix', found', fixed', offered, near⟩ := eligible
  obtain rfl : t = t' := Option.some.inj (found.symm.trans found')
  obtain rfl : fix = fix' := Option.some.inj (fixed.symm.trans fixed')
  exact ⟨offered, near⟩

theorem mem_candidates (placed : r.Placed) :
    e ∈ candidates r requester request ↔
      Eligible r requester request e.id ∧
      ∃ t, r.find? e.id = some t ∧ t.fix = some e.fix ∧ e = entry request e.id e.fix := by
  simp only [candidates, List.mem_filterMap, Prod.exists, Option.ite_none_left_eq_some,
    LocateRequest.place?_eq_some, Bool.or_eq_true, decide_eq_true_eq, Bool.not_eq_true', not_or,
    Bool.not_eq_false]
  constructor
  · rintro ⟨t, fix, seen, ⟨other, offered⟩, rfl, near⟩
    obtain ⟨found, fixed⟩ := placed.mem_sightings.mp seen
    exact ⟨⟨other, t, fix, found, fixed, offered, near⟩, t, found, fixed, rfl⟩
  · rintro ⟨eligible, t, found, fixed, same⟩
    obtain ⟨offered, near⟩ := eligible.of_fix found fixed
    have given := Registry.id_of_find? found
    refine ⟨t, e.fix, placed.mem_sightings.mpr ⟨given ▸ found, fixed⟩, ?_⟩
    rw [given]
    exact ⟨⟨eligible.1, offered⟩, same, near⟩

theorem exists_candidate (placed : r.Placed) :
    (∃ e ∈ candidates r requester request, e.id = id) ↔ Eligible r requester request id := by
  constructor
  · rintro ⟨e, member, rfl⟩
    exact ((mem_candidates placed).mp member).1
  · intro eligible
    have ⟨_, t, fix, found, fixed, _⟩ := eligible
    exact ⟨entry request id fix, (mem_candidates placed).mpr ⟨eligible, t, found, fixed, rfl⟩, rfl⟩

theorem candidates_sublist (r : Registry) (requester : Identifier) (request : LocateRequest) :
    ((candidates r requester request).map (·.id)).Sublist (r.sightings.map (·.1.id)) := by
  apply Registry.map_filterMap_sublist
  rintro ⟨t, fix⟩ e made
  obtain ⟨rfl, _⟩ := LocateRequest.place?_eq_some.mp (Option.ite_none_left_eq_some.mp made).2
  rfl

theorem measured_of_mem (placed : r.Placed) {sender : Position}
    (given : request.sender = some sender) (member : e ∈ candidates r requester request) :
    e.Measured := by
  obtain ⟨eligible, t, found, fixed, same⟩ := (mem_candidates placed).mp member
  obtain ⟨_, near⟩ := eligible.of_fix found fixed
  refine ⟨e.fix.position.geodesicDistance sender, ?_, ?_⟩
  · rw [same, entry, given]
    rfl
  · exact Binary64.le_refl_of_le_left (near sender given)

/-- The candidates in the order in which they are given. -/
def ranking (r : Registry) (requester : Identifier) (request : LocateRequest) : List Located :=
  if request.sender.isSome then (candidates r requester request).mergeSort Located.notAfter
  else candidates r requester request

theorem findServices_eq (r : Registry) (requester : Identifier) (request : LocateRequest) :
    r.findServices requester request =
      (ranking r requester request).take (request.kept (ranking r requester request).length) := by
  rw [← LocateRequest.cut_eq]
  rfl

theorem ranking_perm (r : Registry) (requester : Identifier) (request : LocateRequest) :
    (ranking r requester request).Perm (candidates r requester request) := by
  unfold ranking
  split
  · exact List.mergeSort_perm _ _
  · exact .rfl

/-! ### Answers -/

/-- An answer that serves a request. Of two targets the nearer is told by the distances of their
fixes to the sender. -/
structure Served (r : Registry) (requester : Identifier) (request : LocateRequest)
    (found : List Located) : Prop where
  once : (found.map (·.id)).Nodup
  eligible : ∀ e ∈ found, Eligible r requester request e.id
  current : ∀ e ∈ found, ∃ t, r.find? e.id = some t ∧ t.fix = some e.fix
  measured : ∀ e ∈ found, e.distance = request.sender.map e.fix.position.geodesicDistance
  counted : ∃ ids : Finset Identifier,
    (∀ id, id ∈ ids ↔ Eligible r requester request id) ∧ found.length = request.kept ids.card
  nearestFirst : ∀ sender, request.sender = some sender →
    found.Pairwise fun a b =>
      a.fix.position.geodesicDistance sender ≤ b.fix.position.geodesicDistance sender
  /-- What is left out is not nearer than anything given. -/
  nearest : ∀ sender, request.sender = some sender →
    ∀ id t fix, Eligible r requester request id → id ∉ found.map (·.id) →
      r.find? id = some t → t.fix = some fix →
      ∀ e ∈ found,
        e.fix.position.geodesicDistance sender ≤ fix.position.geodesicDistance sender
  /-- Without a sender the answer and what is left out stand in the order of a scan. -/
  visited : request.sender = none →
    ∃ rest : List Located,
      ((found ++ rest).map (·.id)).Sublist (r.visits.map (·.1.id)) ∧
      ∀ id, id ∈ (found ++ rest).map (·.id) ↔ Eligible r requester request id

theorem mem_ranking (placed : r.Placed) :
    e ∈ ranking r requester request ↔
      Eligible r requester request e.id ∧
      ∃ t, r.find? e.id = some t ∧ t.fix = some e.fix ∧ e = entry request e.id e.fix := by
  rw [(ranking_perm r requester request).mem_iff, mem_candidates placed]

theorem mem_map_ranking (placed : r.Placed) :
    id ∈ (ranking r requester request).map (·.id) ↔ Eligible r requester request id := by
  rw [List.mem_map, ← exists_candidate placed]
  simp only [(ranking_perm r requester request).mem_iff]

theorem nodup_ranking (placed : r.Placed) :
    ((ranking r requester request).map (·.id)).Nodup := by
  rw [((ranking_perm r requester request).map _).nodup_iff]
  exact placed.nodup_sightings.sublist (candidates_sublist r requester request)

theorem pairwise_ranking (requester : Identifier) (placed : r.Placed) {sender : Position}
    (given : request.sender = some sender) :
    (ranking r requester request).Pairwise fun a b =>
      a.fix.position.geodesicDistance sender ≤ b.fix.position.geodesicDistance sender := by
  have sorted : (ranking r requester request).Pairwise Located.Before := by
    rw [ranking, if_pos (by simp [given])]
    exact Located.pairwise_mergeSort fun _ member => measured_of_mem placed given member
  have distance (a) (member : a ∈ ranking r requester request) :
      a.distance = some (a.fix.position.geodesicDistance sender) := by
    obtain ⟨_, _, _, _, same⟩ := (mem_ranking placed).mp member
    rw [same, entry, given]
    rfl
  refine sorted.imp_of_mem ?_
  rintro a b ha hb ⟨x, y, atX, atY, le⟩
  obtain rfl := Option.some.inj ((distance a ha).symm.trans atX)
  obtain rfl := Option.some.inj ((distance b hb).symm.trans atY)
  exact le

/-- An eligible target that is not among the first of the ranking is among the rest. -/
theorem mem_drop_ranking (placed : r.Placed) (n : Nat) (eligible : Eligible r requester request id)
    (leftOut : id ∉ ((ranking r requester request).take n).map (·.id)) :
    ∃ e ∈ (ranking r requester request).drop n, e.id = id := by
  obtain ⟨e, member, rfl⟩ := List.mem_map.mp ((mem_map_ranking placed).mpr eligible)
  rw [← List.take_append_drop n (ranking r requester request), List.mem_append] at member
  rcases member with early | late
  · exact absurd (List.mem_map_of_mem early) leftOut
  · exact ⟨e, late, rfl⟩

theorem served_findServices (placed : r.Placed) (requester : Identifier) (request : LocateRequest) :
    Served r requester request (r.findServices requester request) := by
  rw [findServices_eq]
  generalize count : request.kept (ranking r requester request).length = n
  have among (e) (member : e ∈ (ranking r requester request).take n) :=
    (mem_ranking placed).mp (List.mem_of_mem_take member)
  have first := List.take_sublist n (ranking r requester request)
  have whole := List.take_append_drop n (ranking r requester request)
  constructor
  case once => exact (nodup_ranking placed).sublist (first.map _)
  case eligible => exact fun e member => (among e member).1
  case current =>
    intro e member
    obtain ⟨_, t, found, fixed, _⟩ := among e member
    exact ⟨t, found, fixed⟩
  case measured =>
    intro e member
    obtain ⟨_, _, _, _, same⟩ := among e member
    rw [same]
    rfl
  case counted =>
    refine ⟨((ranking r requester request).map (·.id)).toFinset, fun id => ?_, ?_⟩
    · rw [List.mem_toFinset]
      exact mem_map_ranking placed
    · rw [List.toFinset_card_of_nodup (nodup_ranking placed), List.length_map, List.length_take,
        count]
      have fewer := request.kept_le (ranking r requester request).length
      omega
  case nearestFirst =>
    intro sender given
    exact (pairwise_ranking requester placed given).sublist first
  case nearest =>
    intro sender given id t fix eligible leftOut found fixed e member
    obtain ⟨e', later, rfl⟩ := mem_drop_ranking placed n eligible leftOut
    obtain ⟨_, t', found', fixed', _⟩ := (mem_ranking placed).mp (List.mem_of_mem_drop later)
    obtain rfl : t = t' := Option.some.inj (found.symm.trans found')
    obtain rfl : fix = e'.fix := Option.some.inj (fixed.symm.trans fixed')
    have ordered := pairwise_ranking requester placed given
    rw [← whole, List.pairwise_append] at ordered
    exact ordered.2.2 e member e' later
  case visited =>
    intro without
    refine ⟨(ranking r requester request).drop n, ?_, ?_⟩
    · rw [whole, Registry.visits_eq placed, ranking, without]
      exact candidates_sublist r requester request
    · rw [whole]
      exact fun id => mem_map_ranking placed

/-- Without a sender there is no distance that a radius could bound. -/
theorem findServices_radius (r : Registry) (requester : Identifier) (request : LocateRequest)
    (without : request.sender = none) (radius : Option Int32) :
    r.findServices requester { request with radius } = r.findServices requester request := by
  have placed (t : Target) (fix : Fix) :
      LocateRequest.place? { request with radius } t fix = request.place? t fix := by
    simp [LocateRequest.place?, without]
  simp only [Registry.findServices, placed]
  rfl

end

/-! ### Texts -/

namespace Identifier

theorem length_text (id : Identifier) : id.text.length = 40 := by
  rw [text, String.length_ofList, chars, Hex.length_chars, id.size]

theorem digits_text (id : Identifier) : ∀ c ∈ id.text.toList, c ∈ Hex.lowerDigits := by
  intro c written
  rw [text, String.toList_ofList] at written
  exact Hex.mem_chars written

end Identifier

/-- Every request to a reachable registry is served, and the relay names those found in order. -/
theorem findServices_answers [Trigonometry] {r : Registry} (reachable : r.Reachable)
    (requester : Identifier) (request : LocateRequest) :
    Served r requester request (r.findServices requester request) ∧
    (∀ radius, request.radius = some radius → 0 < radius →
      request.reach = Binary64.ofInt radius.toInt) ∧
    ((∀ radius, request.radius = some radius → ¬ 0 < radius) →
      GreatestFinite request.reach) ∧
    (request.sender = none →
      ∀ radius, r.findServices requester { request with radius } =
        r.findServices requester request) ∧
    ∀ relay : Relay, relay.registry = r →
      (Relay.locate requester request relay).1 =
        (r.findServices requester request).map (·.id.text) ∧
      ∀ s ∈ (Relay.locate requester request relay).1,
        s.length = 40 ∧ ∀ c ∈ s.toList, c ∈ Hex.lowerDigits := by
  refine ⟨served_findServices reachable.placed requester request,
    fun _ => LocateRequest.reach_of_radius, LocateRequest.greatestFinite_reach,
    findServices_radius r requester request, ?_⟩
  rintro relay rfl
  refine ⟨rfl, fun s told => ?_⟩
  obtain ⟨e, _, rfl⟩ := List.mem_map.mp told
  exact ⟨e.id.length_text, e.id.digits_text⟩

/-! ### On the equator -/

/-- The functions as far as half a degree, a degree and a hundred and seventy degrees along the
equator ask for them. -/
@[reducible]
def onEquator : Trigonometry where
  sin x :=
    if x == -0.004363323129985824 then -0.004363309284746571
    else if x == -0.008726646259971648 then -0.008726535498373935
    else if x == -1.4835298641951802 then -0.9961946980917455
    else 0.0
  cos _ := 1.0
  tan x := x
  atan2 _ x :=
    if x == 0.9999904807207345 then 0.004363323129985824
    else if x == 0.9999619230641713 then 0.008726646259971648
    else if x == 0.08715574274765797 then 1.4835298641951804
    else 0.0 * x
  log x := x

/-- A target joins a registry where it stands. -/
def Registry.joined (r : Registry) (id : Identifier) (position : Position) : Registry :=
  (Operation.report id ⟨position, 7⟩ 9).apply ((Operation.register id "ais" 8).apply r)

theorem Registry.Reachable.joined {r : Registry} (reachable : r.Reachable) {id : Identifier}
    {position : Position} : (r.joined id position).Reachable :=
  .operate _ (.operate _ reachable)

theorem Located.mergeSort_of_later {a b c : Located} (ab : a.notAfter b = false)
    (bc : b.notAfter c) (ac : a.notAfter c = false) :
    [a, b, c].mergeSort notAfter = [b, c, a] := by
  simp [List.mergeSort, List.MergeSort.Internal.splitInTwo, ab, bc, ac]

/-- Of four targets one is out of reach. Of the others the two nearest, which are equally far, are
given in the order of the registry, which is neither that of their identifiers nor that in which
they came. -/
theorem findServices_answers_on_equator :
    let _ := onEquator
    let vessel (k : UInt8) : Identifier := ⟨List.replicate 19 0 ++ [k], by simp⟩
    let origin : Position := ⟨0.0, 0.0, by decide, by decide⟩
    let berth : Position := ⟨0.0, 0.5, by decide, by decide⟩
    let request : LocateRequest := ⟨"ais", some 200000, some 2, some origin⟩
    let r : Registry := (Registry.empty 4 (by decide))
      |>.joined (vessel 4) ⟨0.0, 170.0, by decide, by decide⟩
      |>.joined (vessel 3) berth
      |>.joined (vessel 6) berth
      |>.joined (vessel 1) ⟨0.0, 1.0, by decide, by decide⟩
    let nearest : List Located := [⟨vessel 6, ⟨berth, 7⟩, some 55597.46332227937⟩,
      ⟨vessel 3, ⟨berth, 7⟩, some 55597.46332227937⟩]
    r.Reachable ∧ r.findServices .max request = nearest ∧ Served r .max request nearest := by
  intro _ vessel origin berth request r nearest
  have empty : (Registry.empty 4 (by decide)).Reachable := .empty _ _
  have reachable : r.Reachable := empty.joined.joined.joined.joined
  let farther : Located :=
    ⟨vessel 1, ⟨⟨0.0, 1.0, by decide, by decide⟩, 7⟩, some 111194.92664455874⟩
  have found : r.findServices .max request = nearest := by
    have positioned : request.sender.isSome := rfl
    have hits : candidates r .max request = farther :: nearest := by decide +kernel
    rw [findServices_eq, ranking, if_pos positioned, hits,
      Located.mergeSort_of_later (by decide +kernel) (by decide +kernel) (by decide +kernel)]
    rfl
  have served := (findServices_answers reachable .max request).1
  rw [found] at served
  exact ⟨reachable, found, served⟩

end VesselRelay
