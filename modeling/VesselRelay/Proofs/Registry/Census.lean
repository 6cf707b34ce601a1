import VesselRelay.Proofs.Registry.Placement

/-!
The targets of a registry taken together: their number, those with a fix, and a scan whose visitor
only looks.
-/
namespace VesselRelay.Registry

variable {r : Registry} {t : Target}

/-- All targets, shard after shard. -/
def targets (r : Registry) : List Target := (List.range r.shards.size).flatMap r.shard

theorem flatten_shards (r : Registry) : r.shards.toList.flatten = r.targets := by
  rw [targets, List.flatMap_def]
  congr 1
  apply List.ext_getElem
  · simp
  · intro i here there
    simp [shard, Array.getD_eq_getD_getElem?, Array.getElem?_eq_getElem (by simpa using here)]

theorem sightings_eq (r : Registry) :
    r.sightings = r.targets.filterMap fun t => t.fix.map fun fix => (t, fix) := by
  rw [sightings, flatten_shards]

theorem size_eq (r : Registry) : r.size = r.targets.length := by
  have counted (shards : List (List Target)) (total : Nat) :
      shards.foldl (fun total shard => total + shard.length) total =
        total + shards.flatten.length := by
    induction shards generalizing total with
    | nil => rfl
    | cons shard rest ih =>
      rw [List.foldl_cons, ih, List.flatten_cons, List.length_append]
      omega
  rw [size, ← Array.foldl_toList, counted, flatten_shards, Nat.zero_add]

theorem mem_targets : t ∈ r.targets ↔ ∃ i, t ∈ r.shard i := by
  rw [targets, List.mem_flatMap]
  constructor
  · rintro ⟨i, _, member⟩
    exact ⟨i, member⟩
  · rintro ⟨i, member⟩
    refine ⟨i, List.mem_range.mpr (Nat.lt_of_not_le fun beyond => ?_), member⟩
    rw [shard_of_size_le beyond] at member
    cases member

/-- The targets are what lookups find. -/
theorem Placed.mem_targets (placed : r.Placed) : t ∈ r.targets ↔ r.find? t.id = some t := by
  rw [Registry.mem_targets, placed.find?_eq_some]
  constructor
  · rintro ⟨i, member⟩
    exact ⟨placed.home i t member ▸ member, rfl⟩
  · rintro ⟨member, _⟩
    exact ⟨_, member⟩

theorem Placed.nodup_targets (placed : r.Placed) : (r.targets.map Target.id).Nodup := by
  rw [targets, List.map_flatMap, List.nodup_flatMap]
  refine ⟨fun i _ => placed.once i, List.nodup_range.imp ?_⟩
  intro i j apart id here there
  obtain ⟨s, hs, rfl⟩ := List.mem_map.mp here
  obtain ⟨t, ht, same⟩ := List.mem_map.mp there
  apply apart
  rw [← placed.home i s hs, ← placed.home j t ht, same]

/-- A sighting is a known target with the fix that it has. -/
theorem Placed.mem_sightings {fix : Fix} (placed : r.Placed) :
    (t, fix) ∈ r.sightings ↔ r.find? t.id = some t ∧ t.fix = some fix := by
  rw [sightings_eq, ← placed.mem_targets, List.mem_filterMap]
  constructor
  · rintro ⟨s, member, shown⟩
    obtain ⟨_, held, same⟩ := Option.map_eq_some_iff.mp shown
    obtain ⟨rfl, rfl⟩ := Prod.mk.inj same
    exact ⟨member, held⟩
  · rintro ⟨member, held⟩
    exact ⟨t, member, by rw [held, Option.map_some]⟩

/-- What is kept of a list stands under the keys of what it is made from, in their order. -/
theorem map_filterMap_sublist {α β κ : Type} {f : α → Option β} {key : α → κ} {key' : β → κ}
    (keeps : ∀ a b, f a = some b → key' b = key a) (l : List α) :
    ((l.filterMap f).map key').Sublist (l.map key) := by
  induction l with
  | nil => exact .slnil
  | cons a rest ih =>
    cases made : f a with
    | none => simpa [made] using ih.cons (key a)
    | some b => simpa [made, keeps a b made] using ih.cons_cons (key a)

theorem Placed.nodup_sightings (placed : r.Placed) : (r.sightings.map (·.1.id)).Nodup := by
  rw [sightings_eq]
  refine placed.nodup_targets.sublist (map_filterMap_sublist ?_ r.targets)
  intro t shown made
  obtain ⟨fix, _, rfl⟩ := Option.map_eq_some_iff.mp made
  rfl

/-! ### Scans that only look -/

/-- The visitor that leaves the registry alone and keeps what it is shown. -/
def observer : Visitor (List (Target × Fix)) := fun _ t fix seen => (seen ++ [(t, fix)], [])

/-- What a scan shows of the registry. -/
def visits (r : Registry) : List (Target × Fix) := (r.scan observer []).1

theorem visitPending_observer (members : List Target) (seen : List (Target × Fix))
    (known : ∀ t ∈ members, r.find? t.id = some t) :
    visitPending observer members.length (members.map fun t => .known t.id) r seen =
      (seen ++ members.filterMap fun t => t.fix.map fun fix => (t, fix), r) := by
  induction members generalizing seen with
  | nil => simp [visitPending]
  | cons t rest ih =>
    have others := fun s member => known s (List.mem_cons_of_mem t member)
    simp only [List.map_cons, List.length_cons, visitPending, Pending.current?,
      known t List.mem_cons_self]
    cases held : t.fix with
    | none =>
      rw [List.filterMap_cons, held]
      exact ih seen others
    | some fix =>
      have shown := ih (seen ++ [(t, fix)]) others
      rw [List.append_assoc, List.singleton_append] at shown
      simpa only [observer, applyAll, List.filterMap_cons, held, Option.map_some] using shown

theorem scanShard_observer (placed : r.Placed) (index : Nat) (seen : List (Target × Fix)) :
    scanShard observer index r seen =
      (seen ++ (r.shard index).filterMap fun t => t.fix.map fun fix => (t, fix), r) := by
  apply visitPending_observer
  intro t member
  exact placed.mem_targets.mp (mem_targets.mpr ⟨index, member⟩)

/-- A scan that only looks goes through the shards in turn and shows each target with its fix. -/
theorem scan_observer (placed : r.Placed) : r.scan observer [] = (r.sightings, r) := by
  have shards (indices : List Nat) (seen : List (Target × Fix)) :
      indices.foldl (fun (s, r) index => scanShard observer index r s) (seen, r) =
        (seen ++ (indices.flatMap r.shard).filterMap fun t => t.fix.map fun fix => (t, fix),
          r) := by
    induction indices generalizing seen with
    | nil => simp
    | cons index rest ih =>
      rw [List.foldl_cons, List.flatMap_cons, List.filterMap_append, ← List.append_assoc]
      exact (congrArg (rest.foldl _) (scanShard_observer placed index seen)).trans (ih _)
  rw [sightings_eq]
  exact (shards _ []).trans (by rw [List.nil_append, targets])

theorem visits_eq (placed : r.Placed) : r.visits = r.sightings := by
  rw [visits, scan_observer placed]

end VesselRelay.Registry
