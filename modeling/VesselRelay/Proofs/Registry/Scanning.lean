import VesselRelay.Proofs.Registry.Bookkeeping

/-!
Scans under the hands of their visitors. A visitor may change the registry at every visit, so the
run of a scan is told by the visits themselves: each is made to the registry that the operations of
the earlier ones have led to. Whatever the visitor does, no target is visited twice, one that has a
fix and is not lost on the way is visited, one that was not lost before its visit is shown as a
lookup finds it, and the visits come in one round a shard, none longer than the shard is by then.
-/
namespace VesselRelay.Registry

variable {σ : Type} {r : Registry} {id : Identifier}

/-! ### Operations in a row -/

def after (r : Registry) (operations : List Operation) : Registry :=
  operations.foldl (fun r op => op.apply r) r

/-- Whether a target is lost to one of the operations: it is known before and unknown afterwards. -/
def Loses (id : Identifier) : Registry → List Operation → Prop
  | _, [] => False
  | r, op :: rest =>
    ((r.find? id).isSome ∧ (op.apply r).find? id = none) ∨ Loses id (op.apply r) rest

instance decidableLoses (id : Identifier) :
    (r : Registry) → (operations : List Operation) → Decidable (Loses id r operations)
  | _, [] => inferInstanceAs (Decidable False)
  | r, op :: rest =>
    have := decidableLoses id (op.apply r) rest
    inferInstanceAs (Decidable (_ ∨ _))

/-- The fix that a lookup finds. -/
def fix? (r : Registry) (id : Identifier) : Option Fix := (r.find? id).bind Target.fix

theorem after_append (r : Registry) (first second : List Operation) :
    r.after (first ++ second) = (r.after first).after second :=
  List.foldl_append

theorem loses_append (first second : List Operation) :
    Loses id r (first ++ second) ↔ Loses id r first ∨ Loses id (r.after first) second := by
  induction first generalizing r with
  | nil => simp [Loses, after]
  | cons op rest ih => rw [List.cons_append, Loses, Loses, ih, or_assoc, after, after,
      List.foldl_cons]

@[simp] theorem shardOf_apply (op : Operation) : (op.apply r).shardOf id = r.shardOf id := by
  have ensured (other : Identifier) (now : Int64) :
      (r.ensure other now).shardOf id = r.shardOf id := by
    unfold ensure
    split
    · rfl
    · exact shardOf_mapShard _
  have changed (s : Registry) (other : Identifier) (f : Target → Target) :
      (s.change other f).shardOf id = s.shardOf id := shardOf_mapShard _
  cases op with
  | register other name now => exact (changed _ _ _).trans (ensured other now)
  | unregister other name now => exact changed _ _ _
  | report other fix now => exact (changed _ _ _).trans (ensured other now)
  | setConnected other value now =>
    cases value with
    | true => exact (changed _ _ _).trans (ensured other now)
    | false => exact changed _ _ _
  | remove other => exact shardOf_mapShard _
  | sweep now timeout => exact shardOf_sweep now timeout

theorem shardOf_after (operations : List Operation) :
    (r.after operations).shardOf id = r.shardOf id := by
  induction operations generalizing r with
  | nil => rfl
  | cons op rest ih => exact ih.trans (shardOf_apply op)

theorem Placed.after (placed : r.Placed) (operations : List Operation) :
    (r.after operations).Placed := by
  induction operations generalizing r with
  | nil => exact placed
  | cons op rest ih => exact ih (placed_apply op placed)

/-- No operation takes the fix from a target that stays known. -/
theorem Operation.fix_outcome {op : Operation} {t after : Target} (fixed : t.fix.isSome)
    (known : op.outcome id (some t) = some after) : after.fix.isSome := by
  cases op with
  | register other name now | unregister other name now =>
    simp only [outcome] at known
    split at known <;> cases known <;> exact fixed
  | report other fix now =>
    simp only [outcome] at known
    split at known <;> cases known
    · rfl
    · exact fixed
  | setConnected other value now =>
    cases value <;> simp only [outcome] at known <;> split at known <;> cases known <;> exact fixed
  | remove other =>
    simp only [outcome] at known
    split at known <;> cases known
    exact fixed
  | sweep now timeout =>
    simp only [outcome] at known
    cases (Option.filter_eq_some_iff.mp known).1
    exact fixed

theorem Placed.fix?_after (placed : r.Placed) {operations : List Operation}
    (fixed : (r.fix? id).isSome) (kept : ¬ Loses id r operations) :
    ((r.after operations).fix? id).isSome := by
  induction operations generalizing r with
  | nil => exact fixed
  | cons op rest ih =>
    obtain ⟨held, later⟩ := not_or.mp kept
    refine ih (placed_apply op placed) ?_ later
    obtain ⟨fix, shown⟩ := Option.isSome_iff_exists.mp fixed
    obtain ⟨t, found, fixOf⟩ := Option.bind_eq_some_iff.mp shown
    have known : (op.apply r).find? id ≠ none := fun lost => held ⟨by rw [found]; rfl, lost⟩
    obtain ⟨t', found'⟩ := Option.ne_none_iff_exists'.mp known
    have outcome := find?_apply placed op id
    rw [found, found'] at outcome
    rw [fix?, found']
    exact Operation.fix_outcome (by rw [fixOf]; rfl) outcome.symm

/-! ### Pending members -/

namespace Pending

def identifier : Pending → Identifier
  | known id => id
  | removed last => last.id

/-- A pending member after operations in a row. -/
def through (r : Registry) : List Operation → Pending → Pending
  | [], member => member
  | op :: rest, member => through (op.apply r) rest (member.after r (op.apply r))

theorem identifier_after (before after : Registry) (member : Pending) :
    (member.after before after).identifier = member.identifier := by
  cases member with
  | removed last => rfl
  | known id =>
    simp only [Pending.after]
    split
    · rename_i last found _
      exact id_of_find? found
    · rfl

theorem identifier_through (operations : List Operation) (member : Pending) :
    (member.through r operations).identifier = member.identifier := by
  induction operations generalizing r member with
  | nil => rfl
  | cons op rest ih => exact (ih _).trans (identifier_after r _ member)

theorem through_known {operations : List Operation} (kept : ¬ Loses id r operations) :
    (known id).through r operations = known id := by
  induction operations generalizing r with
  | nil => rfl
  | cons op rest ih =>
    obtain ⟨held, later⟩ := not_or.mp kept
    have same : (known id).after r (op.apply r) = known id := by
      simp only [Pending.after]
      split
      · rename_i last found lost
        exact absurd ⟨by rw [found]; rfl, lost⟩ held
      · rfl
    rw [through, same, ih later]

theorem eq_removed_of_through {operations : List Operation} {member : Pending} {last : Target}
    (gone : member.through r operations = removed last) :
    member = removed last ∨ Loses member.identifier r operations := by
  cases member with
  | known id =>
    right
    by_contra kept
    cases (through_known kept).symm.trans gone
  | removed earlier =>
    left
    rw [← gone]
    clear gone
    induction operations generalizing r with
    | nil => rfl
    | cons op rest ih => exact ih

theorem id_of_current? {member : Pending} {t : Target} (shown : member.current? r = some t) :
    t.id = member.identifier := by
  cases member with
  | known id => exact id_of_find? shown
  | removed last =>
    cases shown
    rfl

end Pending

theorem applyAll_eq (pending : List Pending) (operations : List Operation) :
    applyAll pending r operations =
      (pending.map fun member => member.through r operations, r.after operations) := by
  induction operations generalizing r pending with
  | nil => simp [applyAll, Pending.through, after]
  | cons op rest ih => simp [applyAll, ih, Pending.through, after, Function.comp_def]

/-! ### Runs of a scan -/

/-- A visit: the registry and the target as the visitor sees them, and what it does. -/
structure Visit where
  registry : Registry
  target : Target
  fix : Fix
  operations : List Operation

/-- All that visitors do at visits in a row. -/
def operationsOf (log : List Visit) : List Operation := log.flatMap (·.operations)

theorem after_operationsOf_cons (v : Visit) (log : List Visit) :
    r.after (operationsOf (v :: log)) = (r.after v.operations).after (operationsOf log) := by
  rw [operationsOf, List.flatMap_cons, after_append, operationsOf]

theorem loses_operationsOf_cons (v : Visit) (log : List Visit) :
    Loses id r (operationsOf (v :: log)) ↔
      Loses id r v.operations ∨ Loses id (r.after v.operations) (operationsOf log) := by
  rw [operationsOf, List.flatMap_cons, loses_append, operationsOf]

/-- What visits in a row make of the state of their visitor. -/
def stateOf (visit : Visitor σ) (s : σ) (log : List Visit) : σ :=
  log.foldl (fun s v => (visit v.registry v.target v.fix s).1) s

/-- A visitor that keeps a log of its visits. -/
def logging (visit : Visitor σ) : Visitor (σ × List Visit) := fun r t fix (s, log) =>
  let (s, operations) := visit r t fix s
  ((s, log ++ [⟨r, t, fix, operations⟩]), operations)

/-- The visits that a scan makes. -/
def log (visit : Visitor σ) (r : Registry) (s : σ) : List Visit :=
  (r.scan (logging visit) (s, [])).1.2

/-- A scan with members to visit and shards to come to, from its registry and the state of its
visitor: the visits that it makes, and what it leaves. -/
inductive Runs (visit : Visitor σ) :
    List Pending → List Nat → Registry → σ → List Visit → σ × Registry → Prop
  | done (r : Registry) (s : σ) : Runs visit [] [] r s [] (s, r)
  | turn {index indices r s log out} :
      Runs visit ((r.shard index).map fun t => .known t.id) indices r s log out →
      Runs visit [] (index :: indices) r s log out
  | pass {member rest indices r s log out} : (member.current? r).bind Target.fix = none →
      Runs visit rest indices r s log out → Runs visit (member :: rest) indices r s log out
  | call {member : Pending} {rest indices r s t fix log out} :
      member.current? r = some t → t.fix = some fix →
      Runs visit (rest.map fun m => m.through r (visit r t fix s).2) indices
        (r.after (visit r t fix s).2) (visit r t fix s).1 log out →
      Runs visit (member :: rest) indices r s (⟨r, t, fix, (visit r t fix s).2⟩ :: log) out

theorem visitPending_pass {visit : Visitor σ} {n : Nat} {member : Pending} {rest : List Pending}
    {s : σ} (vain : (member.current? r).bind Target.fix = none) :
    visitPending visit (n + 1) (member :: rest) r s = visitPending visit n rest r s := by
  rw [visitPending]
  cases shown : member.current? r with
  | none => rfl
  | some t =>
    rw [shown, Option.bind_some] at vain
    simp only [vain]

theorem visitPending_call {visit : Visitor σ} {n : Nat} {member : Pending} {rest : List Pending}
    {s : σ} {t : Target} {fix : Fix} (shown : member.current? r = some t)
    (fixed : t.fix = some fix) :
    visitPending visit (n + 1) (member :: rest) r s =
      visitPending visit n (rest.map fun m => m.through r (visit r t fix s).2)
        (r.after (visit r t fix s).2) (visit r t fix s).1 := by
  simp only [visitPending, shown, fixed, applyAll_eq]

theorem runs_visitPending (visit : Visitor σ) (pending : List Pending) (r : Registry) (s : σ)
    (earlier : List Visit) :
    ∃ log, visitPending (logging visit) pending.length pending r (s, earlier) =
        (((visitPending visit pending.length pending r s).1, earlier ++ log),
          (visitPending visit pending.length pending r s).2) ∧
      ∀ {indices later out},
        Runs visit [] indices (visitPending visit pending.length pending r s).2
          (visitPending visit pending.length pending r s).1 later out →
        Runs visit pending indices r s (log ++ later) out := by
  generalize size : pending.length = n
  induction n generalizing pending r s earlier with
  | zero =>
    cases List.length_eq_zero_iff.mp size
    exact ⟨[], by simp [visitPending], fun later => later⟩
  | succ n ih =>
    obtain ⟨member, rest, rfl⟩ := List.exists_cons_of_length_eq_add_one size
    have shorter : rest.length = n := by simpa using size
    cases seen : (member.current? r).bind Target.fix with
    | none =>
      rw [visitPending_pass seen, visitPending_pass seen]
      obtain ⟨log, same, runs⟩ := ih rest r s earlier shorter
      exact ⟨log, same, fun later => .pass seen (runs later)⟩
    | some fix =>
      obtain ⟨t, shown, fixed⟩ := Option.bind_eq_some_iff.mp seen
      rw [visitPending_call shown fixed, visitPending_call shown fixed]
      obtain ⟨log, same, runs⟩ := ih (rest.map fun m => m.through r (visit r t fix s).2)
        (r.after (visit r t fix s).2) (visit r t fix s).1
        (earlier ++ [⟨r, t, fix, (visit r t fix s).2⟩]) (by rw [List.length_map, shorter])
      rw [List.append_assoc, List.singleton_append] at same
      exact ⟨_ :: log, same, fun later => .call shown fixed (runs later)⟩

/-- A scan of the shards that are still to come. -/
def scanShards (visit : Visitor σ) (indices : List Nat) (r : Registry) (s : σ) : σ × Registry :=
  indices.foldl (fun (s, r) index => scanShard visit index r s) (s, r)

theorem runs_scanShards (visit : Visitor σ) (indices : List Nat) (r : Registry) (s : σ)
    (earlier : List Visit) :
    ∃ log, (scanShards (logging visit) indices r (s, earlier)).1.2 = earlier ++ log ∧
      Runs visit [] indices r s log (scanShards visit indices r s) := by
  induction indices generalizing r s earlier with
  | nil => exact ⟨[], by simp [scanShards], .done r s⟩
  | cons index rest ih =>
    obtain ⟨here, same, runs⟩ :=
      runs_visitPending visit ((r.shard index).map fun t => .known t.id) r s earlier
    rw [List.length_map] at same runs
    obtain ⟨later, whole, others⟩ := ih _ _ (earlier ++ here)
    refine ⟨here ++ later, ?_, .turn (runs others)⟩
    rw [← List.append_assoc, ← whole]
    exact congrArg (fun state => state.1.2) (congrArg (rest.foldl _) same)

/-- A log changes nothing of a scan, and tells its run. -/
theorem runs_scan (visit : Visitor σ) (r : Registry) (s : σ) :
    Runs visit [] (List.range r.shards.size) r s (log visit r s) (r.scan visit s) := by
  obtain ⟨visits, same, runs⟩ := runs_scanShards visit (List.range r.shards.size) r s []
  rw [List.nil_append] at same
  rwa [log, scan, ← scanShards, same]

namespace Runs

variable {visit : Visitor σ} {pending : List Pending} {indices : List Nat} {s : σ}
  {log : List Visit} {out : σ × Registry}

/-! ### What a run keeps -/

/-- The visits are those that the visitor makes, each to what the earlier ones leave. -/
theorem replayed (runs : Runs visit pending indices r s log out) :
    out = (stateOf visit s log, r.after (operationsOf log)) ∧
      ∀ before v later, log = before ++ v :: later →
        v.registry = r.after (operationsOf before) ∧ v.target.fix = some v.fix ∧
          v.operations = (visit v.registry v.target v.fix (stateOf visit s before)).2 := by
  induction runs with
  | done r s => exact ⟨rfl, fun before v later split => by simp at split⟩
  | turn _ ih | pass _ _ ih => exact ih
  | call shown fixed _ ih =>
    obtain ⟨left, each⟩ := ih
    refine ⟨?_, fun before v later split => ?_⟩
    · rw [left, after_operationsOf_cons]
      rfl
    · cases before with
      | nil =>
        cases split
        exact ⟨rfl, fixed, rfl⟩
      | cons first before =>
        obtain ⟨rfl, others⟩ := List.cons.inj split
        rw [after_operationsOf_cons]
        exact each before v later others

/-- Only members that are pending or kept in a shard to come are visited. -/
theorem ahead (runs : Runs visit pending indices r s log out) (placed : r.Placed) {v : Visit}
    (made : v ∈ log) :
    v.target.id ∈ pending.map Pending.identifier ∨ r.shardOf v.target.id ∈ indices := by
  induction runs with
  | done r s => cases made
  | @turn index _ r _ _ _ _ ih =>
    rcases ih placed made with member | later
    · rw [List.map_map] at member
      obtain ⟨t, held, same⟩ := List.mem_map.mp member
      right
      rw [← same]
      exact List.mem_cons.mpr (.inl (placed.home index t held))
    · exact .inr (List.mem_cons_of_mem _ later)
  | pass _ _ ih => exact (ih placed made).imp_left (List.mem_cons_of_mem _)
  | call shown _ _ ih =>
    rcases List.mem_cons.mp made with rfl | made
    · left
      rw [List.map_cons, Pending.id_of_current? shown]
      exact List.mem_cons_self
    · rcases ih (placed.after _) made with member | later
      · left
        rw [List.map_map] at member
        simp only [Function.comp_def, Pending.identifier_through] at member
        exact List.mem_cons_of_mem _ member
      · exact .inr (shardOf_after _ ▸ later)

/-- The members of a shard stand for themselves once and in no shard to come. -/
theorem once (runs : Runs visit pending indices r s log out) (placed : r.Placed)
    (distinct : (pending.map Pending.identifier).Nodup) (turns : indices.Nodup)
    (apart : ∀ member ∈ pending, r.shardOf member.identifier ∉ indices) :
    (log.map fun v => v.target.id).Nodup := by
  induction runs with
  | done r s => exact List.nodup_nil
  | @turn index indices r _ _ _ _ ih =>
    obtain ⟨fresh, turns⟩ := List.nodup_cons.mp turns
    refine ih placed ?_ turns fun member held => ?_
    · rw [List.map_map]
      exact placed.once index
    · obtain ⟨t, kept, rfl⟩ := List.mem_map.mp held
      rw [Pending.identifier, placed.home index t kept]
      exact fresh
  | pass _ _ ih =>
    exact ih placed (List.nodup_cons.mp distinct).2 turns fun member held =>
      apart member (List.mem_cons_of_mem _ held)
  | @call member rest _ r _ _ _ _ _ shown _ later ih =>
    obtain ⟨first, distinct⟩ := List.nodup_cons.mp distinct
    have same (operations : List Operation) :
        ((rest.map fun m => m.through r operations).map Pending.identifier) =
          rest.map Pending.identifier := by
      rw [List.map_map]
      exact List.map_congr_left fun m _ => Pending.identifier_through operations m
    have others (m : Pending) (held : m ∈ rest) := apart m (List.mem_cons_of_mem _ held)
    refine List.nodup_cons.mpr
      ⟨fun again => ?_, ih (placed.after _) ((same _).symm ▸ distinct) turns ?_⟩
    · obtain ⟨v, made, twice⟩ := List.mem_map.mp again
      replace twice := twice.trans (Pending.id_of_current? shown)
      rcases later.ahead (placed.after _) made with held | later
      · rw [same, twice] at held
        exact first held
      · rw [shardOf_after, twice] at later
        exact apart member List.mem_cons_self later
    · intro _ moved
      obtain ⟨m, held, rfl⟩ := List.mem_map.mp moved
      rw [Pending.identifier_through, shardOf_after]
      exact others m held

/-- A target that has a fix and is not lost is visited when its turn comes. -/
theorem complete (runs : Runs visit pending indices r s log out) (placed : r.Placed)
    (fixed : (r.fix? id).isSome) (kept : ¬ Loses id r (operationsOf log))
    (due : .known id ∈ pending ∨ r.shardOf id ∈ indices) :
    id ∈ log.map fun v => v.target.id := by
  induction runs with
  | done r s => simp at due
  | @turn index _ r _ _ _ _ ih =>
    refine ih placed fixed kept ?_
    rcases List.mem_cons.mp (due.resolve_left List.not_mem_nil) with here | later
    · obtain ⟨fix, shown⟩ := Option.isSome_iff_exists.mp fixed
      obtain ⟨t, found, _⟩ := Option.bind_eq_some_iff.mp shown
      obtain ⟨held, rfl⟩ := placed.find?_eq_some.mp found
      exact .inl (List.mem_map.mpr ⟨t, here ▸ held, rfl⟩)
    · exact .inr later
  | pass vain _ ih =>
    refine ih placed fixed kept (due.imp_left fun member => ?_)
    rcases List.mem_cons.mp member with rfl | member
    · rw [fix?] at fixed
      rw [Pending.current?] at vain
      rw [vain] at fixed
      cases fixed
    · exact member
  | @call member rest _ r _ _ _ _ _ shown _ _ ih =>
    rw [loses_operationsOf_cons] at kept
    obtain ⟨held, later⟩ := not_or.mp kept
    have goOn := ih (placed.after _) (placed.fix?_after fixed held) later
    rw [shardOf_after] at goOn
    rcases due with member | turn
    · rcases List.mem_cons.mp member with rfl | member
      · rw [List.map_cons, Pending.id_of_current? shown]
        exact List.mem_cons_self
      · refine List.mem_cons_of_mem _ (goOn (.inl (List.mem_map.mpr ⟨_, member, ?_⟩)))
        exact Pending.through_known held
    · exact List.mem_cons_of_mem _ (goOn (.inr turn))

/-- A visit shows what a lookup finds, unless the target was lost before. -/
theorem current (runs : Runs visit pending indices r s log out) {before later : List Visit}
    {v : Visit} (split : log = before ++ v :: later) :
    v.registry.find? v.target.id = some v.target ∨ Loses v.target.id r (operationsOf before) ∨
      ∃ last, .removed last ∈ pending ∧ last.id = v.target.id := by
  induction runs generalizing before with
  | done r s => simp at split
  | turn _ ih =>
    refine (ih split).imp_right (Or.imp_right ?_)
    rintro ⟨last, gone, _⟩
    obtain ⟨t, _, ⟨⟩⟩ := List.mem_map.mp gone
  | pass _ _ ih =>
    refine (ih split).imp_right (Or.imp_right ?_)
    rintro ⟨last, gone, same⟩
    exact ⟨last, List.mem_cons_of_mem _ gone, same⟩
  | @call member _ _ r _ t _ _ _ shown _ _ ih =>
    cases before with
    | nil =>
      cases split
      cases member with
      | known id => exact .inl (id_of_find? shown ▸ shown)
      | removed last =>
        cases shown
        exact .inr (.inr ⟨t, List.mem_cons_self, rfl⟩)
    | cons first before =>
      obtain ⟨rfl, others⟩ := List.cons.inj split
      rw [loses_operationsOf_cons]
      rcases ih others with found | lost | ⟨last, gone, same⟩
      · exact .inl found
      · exact .inr (.inl (.inr lost))
      · obtain ⟨m, held, gone⟩ := List.mem_map.mp gone
        have known : m.identifier = v.target.id := by
          rw [← same, ← Pending.identifier_through _ m, gone, Pending.identifier]
        rcases Pending.eq_removed_of_through gone with rfl | lost
        · exact .inr (.inr ⟨last, List.mem_cons_of_mem _ held, same⟩)
        · exact .inr (.inl (.inl (known ▸ lost)))

end Runs

/-- Visits in one round a shard, none longer than the shard is when the round begins. -/
inductive Rounds : List Nat → Registry → List (List Visit) → Prop
  | nil (r : Registry) : Rounds [] r []
  | cons {index indices r round rounds} : round.length ≤ (r.shard index).length →
      Rounds indices (r.after (operationsOf round)) rounds →
      Rounds (index :: indices) r (round :: rounds)

theorem Runs.rounds {visit : Visitor σ} {pending : List Pending} {indices : List Nat} {s : σ}
    {log : List Visit} {out : σ × Registry} (runs : Runs visit pending indices r s log out) :
    ∃ first rounds, log = first ++ rounds.flatten ∧ first.length ≤ pending.length ∧
      Rounds indices (r.after (operationsOf first)) rounds := by
  induction runs with
  | done r s => exact ⟨[], [], rfl, Nat.le_refl 0, .nil r⟩
  | turn _ ih =>
    obtain ⟨first, rounds, rfl, short, others⟩ := ih
    rw [List.length_map] at short
    exact ⟨[], first :: rounds, rfl, Nat.le_refl 0, .cons short others⟩
  | pass _ _ ih =>
    obtain ⟨first, rounds, rfl, short, others⟩ := ih
    exact ⟨first, rounds, rfl, Nat.le_succ_of_le short, others⟩
  | call _ _ _ ih =>
    obtain ⟨first, rounds, rfl, short, others⟩ := ih
    rw [List.length_map] at short
    refine ⟨_ :: first, rounds, rfl, Nat.succ_le_succ short, ?_⟩
    rw [after_operationsOf_cons]
    exact others

/-! ### Scans -/

/-- What holds of the visits of a scan, whatever its visitor does. -/
structure Steady (visit : Visitor σ) (r : Registry) (s : σ) (log : List Visit) : Prop where
  /-- They are what happens in the scan, and all that happens in it. -/
  whole : r.scan visit s = (stateOf visit s log, r.after (operationsOf log))
  made : ∀ before v later, log = before ++ v :: later →
    v.registry = r.after (operationsOf before) ∧ v.target.fix = some v.fix ∧
      v.operations = (visit v.registry v.target v.fix (stateOf visit s before)).2
  once : (log.map fun v => v.target.id).Nodup
  complete : ∀ id, (r.fix? id).isSome → ¬ Loses id r (operationsOf log) →
    (log.map fun v => v.target.id).count id = 1
  current : ∀ before v later, log = before ++ v :: later →
    ¬ Loses v.target.id r (operationsOf before) →
      v.registry.find? v.target.id = some v.target ∧ v.registry.fix? v.target.id = some v.fix
  ends : ∃ rounds, rounds.flatten = log ∧ Rounds (List.range r.shards.size) r rounds

theorem steady_scan (reachable : r.Reachable) (visit : Visitor σ) (s : σ) :
    Steady visit r s (log visit r s) := by
  have placed := reachable.placed
  have runs := runs_scan visit r s
  have once := runs.once placed List.nodup_nil List.nodup_range fun _ none => by cases none
  obtain ⟨whole, made⟩ := runs.replayed
  refine ⟨whole, made, once, fun id fixed kept => ?_, fun before v later split kept => ?_, ?_⟩
  · have turn := List.mem_range.mpr (shardOf_lt r id)
    exact List.count_eq_one_of_mem once (runs.complete placed fixed kept (.inr turn))
  · have found : v.registry.find? v.target.id = some v.target := by
      rcases runs.current split with found | lost | ⟨last, none, _⟩
      · exact found
      · exact absurd lost kept
      · cases none
    obtain ⟨_, fixed, _⟩ := made before v later split
    exact ⟨found, by rw [fix?, found, Option.bind_some, fixed]⟩
  · obtain ⟨first, rounds, split, short, each⟩ := runs.rounds
    cases List.length_eq_zero_iff.mp (Nat.le_zero.mp short)
    exact ⟨rounds, split.symm, each⟩

/-- A visitor that makes a target anew and moves another one, both in the shard to come: each is
shown once, with its new fix. -/
theorem steady_scan_of_meddler :
    let harbor : Position := ⟨51.5, 3.5, by decide +kernel, by decide +kernel⟩
    let buoy : Identifier := ⟨List.replicate 19 0 ++ [1], rfl⟩
    let r : Registry := (Operation.report buoy ⟨harbor, 3⟩ 3).apply
      ((Operation.report .max ⟨harbor, 2⟩ 2).apply
        ((Operation.report .zero ⟨harbor, 1⟩ 1).apply (.empty 2 (by decide))))
    let meddler : Visitor Nat := fun _ _ _ count =>
      (count + 1, [.remove .zero, .report .zero ⟨harbor, 8⟩ 8, .report .max ⟨harbor, 9⟩ 9])
    r.Reachable ∧ Steady meddler r 0 (log meddler r 0) ∧
      (log meddler r 0).map (fun v => (v.target.id, v.fix.time)) =
        [(buoy, 3), (.zero, 8), (.max, 9)] ∧
      Loses .zero r (operationsOf (log meddler r 0)) ∧
      ¬ Loses .max r (operationsOf (log meddler r 0)) := by
  intro harbor buoy r meddler
  have reachable : r.Reachable := .operate _ (.operate _ (.operate _ (.empty _ _)))
  exact ⟨reachable, steady_scan reachable meddler 0, by decide +kernel, by decide +kernel,
    by decide +kernel⟩

end VesselRelay.Registry
