import Mathlib.Data.List.Nodup
import VesselRelay.Registry.Scan

/-!
Every target stands in the shard that the digest of its identifier selects, and once there. While
this holds a lookup sees the whole registry, and each operation is told by what later lookups find.
-/
namespace VesselRelay.Registry

variable {r : Registry} {id other : Identifier} {t : Target}

theorem shardOf_lt (r : Registry) (id : Identifier) : r.shardOf id < r.shards.size :=
  Nat.mod_lt _ r.nonempty

theorem shard_of_size_le {i : Nat} (beyond : r.shards.size ≤ i) : r.shard i = [] := by
  simp [shard, Array.getD_eq_getD_getElem?, Array.getElem?_eq_none beyond]

@[simp] theorem shardOf_mapShard (f : List Target → List Target) :
    (r.mapShard id f).shardOf other = r.shardOf other := by
  simp [shardOf, mapShard]

theorem shard_mapShard (f : List Target → List Target) (i : Nat) :
    (r.mapShard id f).shard i = if i = r.shardOf id then f (r.shard i) else r.shard i := by
  simp only [shard, mapShard, Array.getD_eq_getD_getElem?, Array.getElem?_modify]
  by_cases here : i = r.shardOf id
  · subst here
    simp [Array.getElem?_eq_getElem (shardOf_lt r id)]
  · simp [here, Ne.symm here]

/-! ### The invariant -/

structure Placed (r : Registry) : Prop where
  once : ∀ i, ((r.shard i).map Target.id).Nodup
  home : ∀ i, ∀ t ∈ r.shard i, r.shardOf t.id = i

theorem placed_empty (shardCount : Nat) (positive : 0 < shardCount) :
    (empty shardCount positive).Placed := by
  have vacant (i : Nat) : (empty shardCount positive).shard i = [] := by
    simp only [shard, empty, Array.getD_eq_getD_getElem?, Array.getElem?_replicate]
    split <;> rfl
  constructor
  · intro i
    simp [vacant]
  · intro i t member
    simp [vacant] at member

/-- Only the shard that changes has to be looked at again. -/
theorem Placed.mapShard {f : List Target → List Target} (placed : r.Placed)
    (once : ((f (r.shard (r.shardOf id))).map Target.id).Nodup)
    (home : ∀ t ∈ f (r.shard (r.shardOf id)), r.shardOf t.id = r.shardOf id) :
    (r.mapShard id f).Placed := by
  constructor
  · intro i
    rw [shard_mapShard]
    split
    · subst i
      exact once
    · exact placed.once i
  · intro i t member
    rw [shardOf_mapShard]
    rw [shard_mapShard] at member
    split at member
    · subst i
      exact home t member
    · exact placed.home i t member

theorem Placed.eq_of_id {i : Nat} {s t : Target} (placed : r.Placed) (hs : s ∈ r.shard i)
    (ht : t ∈ r.shard i) (same : s.id = t.id) : s = t :=
  List.inj_on_of_nodup_map (placed.once i) hs ht same

/-- A lookup finds the one target that goes by the identifier. -/
theorem Placed.find?_eq_some (placed : r.Placed) :
    r.find? id = some t ↔ t ∈ r.shard (r.shardOf id) ∧ t.id = id := by
  constructor
  · intro found
    exact ⟨List.mem_of_find?_eq_some found, by simpa using List.find?_some found⟩
  · rintro ⟨member, rfl⟩
    cases found : r.find? t.id with
    | none => simpa using List.find?_eq_none.mp found t member
    | some s =>
      have same : s.id = t.id := by simpa using List.find?_some found
      rw [placed.eq_of_id (List.mem_of_find?_eq_some found) member same]

theorem id_of_find? (found : r.find? id = some t) : t.id = id := by
  simpa using List.find?_some found

/-! ### What later lookups find -/

theorem find?_change (f : Target → Target) (keeps : ∀ t, (f t).id = t.id) :
    (r.change id f).find? other = if other = id then (r.find? other).map f else r.find? other := by
  have mapped (shard : List Target) :
      (shard.map fun t => if t.id = id then f t else t).find? (·.id = other) =
        (shard.find? (·.id = other)).map fun t => if t.id = id then f t else t := by
    rw [List.find?_map]
    congr 2
    funext t
    dsimp only [Function.comp_apply]
    split
    · rw [keeps]
    · rfl
  simp only [change, find?, shardOf_mapShard, shard_mapShard]
  by_cases same : other = id
  · subst same
    rw [if_pos rfl, if_pos rfl, mapped]
    apply Option.map_congr
    intro t found
    rw [if_pos (by simpa using List.find?_some found)]
  · rw [if_neg same]
    split
    · rw [mapped]
      cases found : (r.shard (r.shardOf other)).find? (·.id = other) with
      | none => rfl
      | some t =>
        have given : t.id = other := by simpa using List.find?_some found
        simp [given, same]
    · rfl

theorem find?_ensure (now : Int64) :
    (r.ensure id now).find? other =
      if other = id then some ((r.find? other).getD (.fresh id now)) else r.find? other := by
  unfold ensure
  cases known : r.find? id with
  | some t =>
    rw [Option.isSome_some, if_pos rfl]
    split
    · subst other
      rw [known, Option.getD_some]
    · rfl
  | none =>
    rw [Option.isSome_none, if_neg Bool.false_ne_true, find?, shardOf_mapShard, shard_mapShard]
    by_cases same : other = id
    · subst same
      simp [known, Target.fresh]
    · rw [if_neg same]
      split
      · rw [List.find?_cons_of_neg (by simp [Target.fresh, Ne.symm same])]
        rfl
      · rfl

/-- A target that is heard of on first contact is made and then treated like a known one. -/
theorem find?_contact (now : Int64) (f : Target → Target) (keeps : ∀ t, (f t).id = t.id) :
    ((r.ensure id now).change id f).find? other =
      if other = id then some (f ((r.find? other).getD (.fresh id now))) else r.find? other := by
  rw [find?_change f keeps, find?_ensure]
  split <;> rfl

theorem find?_remove :
    (r.remove id).2.find? other = if other = id then none else r.find? other := by
  simp only [remove, find?, shardOf_mapShard, shard_mapShard]
  by_cases same : other = id
  · subst same
    simp
  · rw [if_neg same]
    split
    · rw [List.find?_filter]
      congr 1
      funext t
      by_cases given : t.id = other <;> simp [given, same]
    · rfl

/-! ### The invariant is kept -/

theorem placed_change {f : Target → Target} (placed : r.Placed) (keeps : ∀ t, (f t).id = t.id) :
    (r.change id f).Placed := by
  have same (t : Target) : (if t.id = id then f t else t).id = t.id := by
    split
    · exact keeps t
    · rfl
  apply placed.mapShard
  · rw [List.map_map]
    simpa only [Function.comp_def, same] using placed.once (r.shardOf id)
  · intro t member
    obtain ⟨s, held, rfl⟩ := List.mem_map.mp member
    rw [same]
    exact placed.home _ s held

theorem placed_ensure (now : Int64) (placed : r.Placed) : (r.ensure id now).Placed := by
  unfold ensure
  split
  · exact placed
  · rename_i unknown
    apply placed.mapShard
    · rw [List.map_cons, List.nodup_cons]
      refine ⟨?_, placed.once _⟩
      rintro held
      obtain ⟨t, member, given⟩ := List.mem_map.mp held
      apply unknown
      rw [placed.find?_eq_some.mpr ⟨member, given⟩]
      rfl
    · rintro t (_ | ⟨_, member⟩)
      · rfl
      · exact placed.home _ t member

theorem placed_remove (placed : r.Placed) : (r.remove id).2.Placed := by
  apply placed.mapShard
  · exact (placed.once _).sublist (List.filter_sublist.map _)
  · intro t member
    exact placed.home _ t (List.mem_filter.mp member).1

/-! ### Sweeps -/

theorem shard_sweep (now : Int64) (timeout : Float) (i : Nat) :
    (r.sweep now timeout).2.shard i =
      (r.shard i).filter fun t => !t.expired now (timeoutMillis timeout) := by
  simp only [sweep, shard, Array.getD_eq_getD_getElem?, Array.getElem?_map]
  cases r.shards[i]? <;> rfl

@[simp] theorem shardOf_sweep (now : Int64) (timeout : Float) :
    (r.sweep now timeout).2.shardOf id = r.shardOf id := by
  simp [sweep, shardOf]

theorem placed_sweep (now : Int64) (timeout : Float) (placed : r.Placed) :
    (r.sweep now timeout).2.Placed := by
  constructor
  · intro i
    rw [shard_sweep]
    exact (placed.once i).sublist (List.filter_sublist.map _)
  · intro i t member
    rw [shard_sweep] at member
    rw [shardOf_sweep]
    exact placed.home i t (List.mem_filter.mp member).1

theorem find?_sweep (now : Int64) (timeout : Float) (placed : r.Placed) :
    (r.sweep now timeout).2.find? id =
      (r.find? id).filter fun t => !t.expired now (timeoutMillis timeout) := by
  apply Option.ext
  intro t
  rw [(placed_sweep now timeout placed).find?_eq_some, Option.filter_eq_some_iff,
    placed.find?_eq_some, shardOf_sweep, shard_sweep, List.mem_filter, and_right_comm]

theorem placed_apply (op : Operation) (placed : r.Placed) : (op.apply r).Placed := by
  cases op with
  | register id name now => exact placed_change (placed_ensure now placed) fun _ => rfl
  | unregister id name now => exact placed_change placed fun _ => rfl
  | report id fix now => exact placed_change (placed_ensure now placed) fun _ => rfl
  | setConnected id value now =>
    simp only [Operation.apply, setConnected]
    split
    · exact placed_change (placed_ensure now placed) fun _ => rfl
    · exact placed_change placed fun _ => rfl
  | remove id => exact placed_remove placed
  | sweep now timeout => exact placed_sweep now timeout placed

/-! ### Reachable registries -/

/-- A registry that operations lead to from an empty one. -/
inductive Reachable : Registry → Prop
  | empty (shardCount : Nat) (positive : 0 < shardCount) : Reachable (.empty shardCount positive)
  | operate {r : Registry} (op : Operation) : Reachable r → Reachable (op.apply r)

theorem Reachable.placed (reachable : r.Reachable) : r.Placed := by
  induction reachable with
  | empty shardCount positive => exact placed_empty shardCount positive
  | operate op _ ih => exact placed_apply op ih

theorem Reachable.applyAll (reachable : r.Reachable) (pending : List Pending)
    (operations : List Operation) : (applyAll pending r operations).2.Reachable := by
  induction operations generalizing r pending with
  | nil => exact reachable
  | cons op rest ih => exact ih (reachable.operate op) _

theorem Reachable.visitPending {σ : Type} (visit : Visitor σ) (n : Nat) (pending : List Pending)
    (s : σ) (reachable : r.Reachable) : (visitPending visit n pending r s).2.Reachable := by
  induction n generalizing r pending s with
  | zero => exact reachable
  | succ n ih =>
    cases pending with
    | nil => exact reachable
    | cons member rest =>
      unfold Registry.visitPending
      split
      · exact ih rest s reachable
      · split
        · exact ih rest s reachable
        · exact ih _ _ (reachable.applyAll rest _)

/-- A scan leads to a reachable registry, whatever its visitor does. -/
theorem Reachable.scan {σ : Type} (visit : Visitor σ) (s : σ) (reachable : r.Reachable) :
    (r.scan visit s).2.Reachable := by
  unfold Registry.scan
  induction List.range r.shards.size generalizing r s with
  | nil => exact reachable
  | cons index rest ih => exact ih _ (reachable.visitPending visit _ _ s)

end VesselRelay.Registry
