import VesselRelay.Proofs.Registry.Directory

/-!
A registry of any number of shards answers as a directory does. The two are compared by lookups
alone: an operation that keeps them alike needs only its lookup lemma, and the counts and scans
follow because lookups see every target once.
-/
namespace VesselRelay

/-! ### Endpoints in order and as a set -/

namespace Target

theorem mem_insertName {name x : String} {names : List String} :
    x ∈ insertName name names ↔ x = name ∨ x ∈ names := by
  induction names with
  | nil => simp [insertName]
  | cons n rest ih =>
    simp only [insertName]
    split
    · subst n
      simp
    · split
      · simp
      · rw [List.mem_cons, ih, List.mem_cons]
        exact or_left_comm

theorem pairwise_insertName {name : String} {names : List String}
    (ordered : names.Pairwise (· < ·)) : (insertName name names).Pairwise (· < ·) := by
  induction names with
  | nil => simp [insertName]
  | cons n rest ih =>
    obtain ⟨before, ordered'⟩ := List.pairwise_cons.mp ordered
    simp only [insertName]
    split
    · exact ordered
    · rename_i apart
      split
      · rename_i less
        refine List.pairwise_cons.mpr ⟨?_, ordered⟩
        rintro x (_ | ⟨_, member⟩)
        · exact less
        · exact less.trans (before x member)
      · rename_i notLess
        refine List.pairwise_cons.mpr ⟨?_, ih ordered'⟩
        intro x member
        rcases mem_insertName.mp member with rfl | member
        · exact lt_of_le_of_ne (not_lt.mp notLess) apart
        · exact before x member

end Target

namespace Profile

/-- A set of names is in order in one way only. -/
theorem sort_eq {names : List String} {s : Finset String} (ordered : names.Pairwise (· < ·))
    (same : ∀ x, x ∈ names ↔ x ∈ s) : names = s.sort := by
  have set : s = names.toFinset := by
    ext x
    rw [List.mem_toFinset, same]
  rw [set]
  exact ((List.toFinset_sort _ (ordered.imp ne_of_lt)).mpr (ordered.imp le_of_lt)).symm

theorem pairwise_sort (s : Finset String) : s.sort.Pairwise (· < ·) :=
  s.sortedLT_sort.pairwise

theorem insertName_sort (name : String) (s : Finset String) :
    Target.insertName name s.sort = (insert name s).sort := by
  apply sort_eq (Target.pairwise_insertName (pairwise_sort s))
  intro x
  rw [Target.mem_insertName, Finset.mem_sort, Finset.mem_insert]

theorem filter_sort (name : String) (s : Finset String) :
    s.sort.filter (· != name) = (s.erase name).sort := by
  apply sort_eq ((pairwise_sort s).filter _)
  intro x
  simp [Finset.mem_erase, and_comm]

theorem offers_target (id : Identifier) (name : String) (x : Profile) :
    (x.target id).offers name = decide (name ∈ x.endpoints) := by
  simp [target, Target.offers]

theorem target_fresh (id : Identifier) (now : Int64) : (fresh now).target id = .fresh id now := by
  simp [target, fresh, Target.fresh]

end Profile

/-! ### Alike -/

/-- A registry and a directory between which no lookup tells a difference. -/
structure Reflects (r : Registry) (d : Directory) : Prop where
  placed : r.Placed
  lookups : ∀ id, r.find? id = (d.find? id).map (·.target id)

namespace Reflects
open Registry (Answer Call Operation)

variable {r : Registry} {d : Directory}

theorem empty (shardCount : Nat) (positive : 0 < shardCount) :
    Reflects (.empty shardCount positive) .empty := by
  have placed := Registry.placed_empty shardCount positive
  refine ⟨placed, fun id => ?_⟩
  cases found : (Registry.empty shardCount positive).find? id with
  | none => rfl
  | some t =>
    have member := (placed.find?_eq_some.mp found).1
    simp only [Registry.shard, Registry.empty, Array.getD_eq_getD_getElem?,
      Array.getElem?_replicate] at member
    split at member <;> cases member

theorem known (alike : Reflects r d) (id : Identifier) :
    (r.find? id).isSome = decide (id ∈ d.known) := by
  rw [alike.lookups, Directory.find?]
  by_cases known : id ∈ d.known <;> simp [known]

theorem offers (alike : Reflects r d) (id : Identifier) (name : String) :
    (r.find? id).any (·.offers name) = d.offers id name := by
  rw [alike.lookups, Directory.offers]
  cases d.find? id with
  | none => rfl
  | some x => exact Profile.offers_target id name x

/-- What the registry does to a target the directory does to its profile. -/
theorem contact (id : Identifier) (now : Int64) (f : Target → Target) (change : Profile → Profile)
    (alike : Reflects r d) (keeps : ∀ t, (f t).id = t.id)
    (same : ∀ x, f (x.target id) = Profile.target id { change x with lastActivity := now }) :
    Reflects ((r.ensure id now).change id f) (d.contact id now change) := by
  refine ⟨Registry.placed_change (Registry.placed_ensure now alike.placed) keeps, fun other => ?_⟩
  rw [Registry.find?_contact now f keeps, Directory.find?, Directory.contact]
  by_cases here : other = id
  · subst here
    have noted : (r.find? other).getD (.fresh other now) =
        ((d.find? other).getD (.fresh now)).target other := by
      rw [alike.lookups]
      cases d.find? other with
      | none => exact (Profile.target_fresh other now).symm
      | some x => rfl
    rw [if_pos rfl, if_pos (Finset.mem_insert_self _ _), noted, same]
    simp
  · rw [if_neg here, alike.lookups, Directory.find?]
    simp [here]

theorem amend (id : Identifier) (now : Int64) (f : Target → Target) (change : Profile → Profile)
    (alike : Reflects r d) (keeps : ∀ t, (f t).id = t.id)
    (same : ∀ x, f (x.target id) = Profile.target id { change x with lastActivity := now }) :
    Reflects (r.change id f) (d.amend id now change) := by
  unfold Directory.amend
  split
  · rename_i known
    have ensured : r.ensure id now = r := by
      rw [Registry.ensure, if_pos (by simpa [known] using alike.known id)]
    rw [← ensured]
    exact alike.contact id now f change keeps same
  · rename_i unknown
    refine ⟨Registry.placed_change alike.placed keeps, fun other => ?_⟩
    rw [Registry.find?_change f keeps, ← alike.lookups]
    split
    · subst other
      rw [alike.lookups, Directory.find?, if_neg unknown]
      rfl
    · rfl

theorem remove (alike : Reflects r d) (id : Identifier) :
    Reflects (r.remove id).2 { d with known := d.known.erase id } := by
  refine ⟨Registry.placed_remove alike.placed, fun other => ?_⟩
  rw [Registry.find?_remove, alike.lookups, Directory.find?, Directory.find?]
  by_cases here : other = id <;> simp [here]

theorem sweep (alike : Reflects r d) (now : Int64) (timeout : Float) :
    Reflects (r.sweep now timeout).2
      { d with known := d.known \ d.gone now (Registry.timeoutMillis timeout) } := by
  refine ⟨Registry.placed_sweep now timeout alike.placed, fun id => ?_⟩
  have expiry (x : Profile) : (x.target id).expired now (Registry.timeoutMillis timeout) =
    x.expired now (Registry.timeoutMillis timeout) := rfl
  rw [Registry.find?_sweep now timeout alike.placed, alike.lookups, Directory.find?,
    Directory.find?]
  by_cases known : id ∈ d.known
  · cases expired : (d.noted id).expired now (Registry.timeoutMillis timeout) <;>
      simp [known, expiry, expired, Directory.gone]
  · simp [known, Directory.gone]

/-! ### Counts and scans -/

theorem known_val (alike : Reflects r d) : d.known.val = (r.targets.map Target.id : List _) := by
  have once := Multiset.coe_nodup.mpr alike.placed.nodup_targets
  apply (Multiset.Nodup.ext d.known.nodup once).mpr
  intro id
  rw [Multiset.mem_coe, List.mem_map]
  have known := alike.known id
  constructor
  · intro member
    rw [Finset.mem_val] at member
    obtain ⟨t, found⟩ := Option.isSome_iff_exists.mp (known.trans (by simpa using member))
    have given := Registry.id_of_find? found
    exact ⟨t, alike.placed.mem_targets.mpr (given ▸ found), given⟩
  · rintro ⟨t, member, rfl⟩
    have found := alike.placed.mem_targets.mp member
    rw [found] at known
    simpa using known.symm

theorem size (alike : Reflects r d) : r.size = d.known.card := by
  rw [Registry.size_eq, Finset.card_def, alike.known_val, Multiset.coe_card, List.length_map]

theorem swept (alike : Reflects r d) (now : Int64) (timeout : Float) :
    (r.sweep now timeout).1 = (d.gone now (Registry.timeoutMillis timeout)).card := by
  have after := (alike.sweep now timeout).size
  have within : d.gone now (Registry.timeoutMillis timeout) ⊆ d.known := Finset.filter_subset _ _
  have fewer := Finset.card_le_card within
  change r.size - (r.sweep now timeout).2.size = _
  rw [after, alike.size, Finset.card_sdiff_of_subset within]
  omega

theorem visits (alike : Reflects r d) :
    ((r.scan Registry.observer []).1 : Multiset (Target × Fix)) =
      d.known.val.filterMap d.visit? := by
  have noted (t : Target) (member : t ∈ r.targets) : t = (d.noted t.id).target t.id := by
    have found := alike.placed.mem_targets.mp member
    rw [alike.lookups, Directory.find?] at found
    split at found
    · exact (Option.some.inj found).symm
    · cases found
  rw [Registry.scan_observer alike.placed, Registry.sightings_eq, alike.known_val,
    Multiset.filterMap_coe, List.filterMap_map]
  congr 1
  apply List.filterMap_congr
  intro t member
  have fix : t.fix = (d.noted t.id).fix := congrArg Target.fix (noted t member)
  rw [Function.comp_apply, Directory.visit?, ← noted t member, fix]

/-! ### Steps and runs -/

theorem operate (alike : Reflects r d) (op : Operation) :
    op.answer r = (d.operate op).1 ∧ Reflects (op.apply r) (d.operate op).2 := by
  cases op with
  | register id name now =>
    refine ⟨congrArg (fun held => Answer.flag !held) (alike.offers id name), ?_⟩
    apply alike.contact id now (.addEndpoint name now) (.addEndpoint name) (fun _ => rfl)
    intro x
    simp [Target.addEndpoint, Profile.target, Profile.addEndpoint, Profile.insertName_sort]
  | unregister id name now =>
    refine ⟨congrArg Answer.flag (alike.offers id name), ?_⟩
    apply alike.amend id now (.removeEndpoint name now) (.removeEndpoint name) (fun _ => rfl)
    intro x
    simp [Target.removeEndpoint, Profile.target, Profile.removeEndpoint, Profile.filter_sort]
  | report id fix now =>
    refine ⟨rfl, ?_⟩
    exact alike.contact id now (.report fix now) (.report fix) (fun _ => rfl) fun _ => rfl
  | setConnected id value now =>
    cases value with
    | true =>
      refine ⟨rfl, ?_⟩
      exact alike.contact id now (.setConnected true now) (.setConnected true) (fun _ => rfl)
        fun _ => rfl
    | false =>
      refine ⟨congrArg Answer.flag (alike.known id), ?_⟩
      exact alike.amend id now (.setConnected false now) (.setConnected false) (fun _ => rfl)
        fun _ => rfl
  | remove id => exact ⟨congrArg Answer.flag (alike.known id), alike.remove id⟩
  | sweep now timeout =>
    exact ⟨congrArg Answer.count (alike.swept now timeout), alike.sweep now timeout⟩

theorem step (alike : Reflects r d) (call : Call) :
    (Registry.step call r).1 = (Directory.step call d).1 ∧
    Reflects (Registry.step call r).2 (Directory.step call d).2 := by
  cases call with
  | operate op => exact alike.operate op
  | find id => exact ⟨congrArg Answer.target (alike.lookups id), alike⟩
  | size => exact ⟨congrArg Answer.count alike.size, alike⟩
  | scan =>
    refine ⟨congrArg Answer.visits alike.visits, ?_⟩
    simp only [Registry.step, Registry.scan_observer alike.placed]
    exact alike

theorem run (alike : Reflects r d) (calls : List Call) :
    (runCalls Registry.step calls r).1 = (runCalls Directory.step calls d).1 ∧
    Reflects (runCalls Registry.step calls r).2 (runCalls Directory.step calls d).2 := by
  induction calls generalizing r d with
  | nil => exact ⟨rfl, alike⟩
  | cons call rest ih =>
    obtain ⟨answer, after⟩ := alike.step call
    obtain ⟨answers, last⟩ := ih after
    exact ⟨congrArg₂ List.cons answer answers, last⟩

end Reflects
end VesselRelay
