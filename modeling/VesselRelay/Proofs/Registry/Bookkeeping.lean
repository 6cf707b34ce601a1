import VesselRelay.Proofs.Registry.Refinement

/-!
The books of a registry that calls have led to: which operations open an entry and with what, what
is written into an entry that is open, and that each is counted and shown once. The answers to the
calls are those of a directory, whatever the number of shards.
-/
namespace VesselRelay
namespace Registry

/-- Which target an operation has heard of, and when. -/
def Operation.contact? : Operation → Option (Identifier × Int64)
  | register id _ now | unregister id _ now | report id _ now | setConnected id _ now =>
    some (id, now)
  | remove _ | sweep _ _ => none

/-- The operations that make an unknown target known, with the target that they make. -/
inductive Operation.Makes : Operation → Target → Prop
  | endpoint (id : Identifier) (name : String) (now : Int64) :
      Makes (.register id name now) ⟨id, none, [name], false, now⟩
  | fix (id : Identifier) (fix : Fix) (now : Int64) :
      Makes (.report id fix now) ⟨id, some fix, [], false, now⟩
  | connection (id : Identifier) (now : Int64) :
      Makes (.setConnected id true now) ⟨id, none, [], true, now⟩

/-- What an operation leaves under an identifier, given what it finds there. -/
def Operation.outcome (id : Identifier) (held : Option Target) : Operation → Option Target
  | register i name now =>
    if id = i then some ((held.getD (.fresh i now)).addEndpoint name now) else held
  | unregister i name now => if id = i then held.map (.removeEndpoint name now) else held
  | report i fix now => if id = i then some ((held.getD (.fresh i now)).report fix now) else held
  | setConnected i true now =>
    if id = i then some ((held.getD (.fresh i now)).setConnected true now) else held
  | setConnected i false now => if id = i then held.map (.setConnected false now) else held
  | remove i => if id = i then none else held
  | sweep now timeout => held.filter fun t => !t.expired now (timeoutMillis timeout)

structure Bookkeeping (r : Registry) : Prop where
  made : ∀ (op : Operation) id (t : Target), r.find? id = none →
    ((op.apply r).find? id = some t ↔ op.Makes t ∧ t.id = id)
  /-- An endpoint offered already is no news, and only the time is noted. -/
  offeredAgain : ∀ id name now (t : Target), r.find? id = some t → t.offers name →
    (r.register id name now).1 = false ∧
    (r.register id name now).2.find? id = some { t with lastActivity := now }
  withdrawnInVain : ∀ id name now (t : Target), r.find? id = some t → ¬ t.offers name →
    (r.unregister id name now).1 = false ∧
    (r.unregister id name now).2.find? id = some { t with lastActivity := now }
  stamped : ∀ (op : Operation) id now t, op.contact? = some (id, now) → r.find? id = some t →
    ∃ after : Target, (op.apply r).find? id = some after ∧ after.lastActivity = now
  apart : ∀ (op : Operation) id now other, op.contact? = some (id, now) → other ≠ id →
    (op.apply r).find? other = r.find? other
  forgotten : ∀ id other,
    (r.remove id).2.find? other = if other = id then none else r.find? other
  counted : ∃ known : Finset Identifier,
    (∀ id, id ∈ known ↔ (r.find? id).isSome) ∧ r.size = known.card
  /-- A scan shows every target that has a fix, with the fix it has, and none twice. -/
  shown : (r.visits.map (·.1.id)).Nodup ∧
    ∀ t fix, (t, fix) ∈ r.visits ↔ r.find? t.id = some t ∧ t.fix = some fix

variable {r : Registry}

theorem find?_apply (placed : r.Placed) (op : Operation) (id : Identifier) :
    (op.apply r).find? id = op.outcome id (r.find? id) := by
  cases op with
  | register i name now => exact find?_contact now (.addEndpoint name now) fun _ => rfl
  | unregister i name now => exact find?_change (.removeEndpoint name now) fun _ => rfl
  | report i fix now => exact find?_contact now (.report fix now) fun _ => rfl
  | setConnected i value now =>
    cases value with
    | true => exact find?_contact now (.setConnected true now) fun _ => rfl
    | false => exact find?_change (.setConnected false now) fun _ => rfl
  | remove i => exact find?_remove
  | sweep now timeout => exact find?_sweep now timeout placed

/-- Only contact makes a target, and it makes a fresh one. -/
theorem Operation.outcome_none {op : Operation} {id : Identifier} {t : Target} :
    op.outcome id none = some t ↔ op.Makes t ∧ t.id = id := by
  constructor
  · intro made
    cases op with
    | register i name now =>
      obtain ⟨rfl, ⟨⟩⟩ := Option.ite_none_right_eq_some.mp made
      exact ⟨.endpoint id name now, rfl⟩
    | report i fix now =>
      obtain ⟨rfl, ⟨⟩⟩ := Option.ite_none_right_eq_some.mp made
      exact ⟨.fix id fix now, rfl⟩
    | setConnected i value now =>
      cases value with
      | true =>
        obtain ⟨rfl, ⟨⟩⟩ := Option.ite_none_right_eq_some.mp made
        exact ⟨.connection id now, rfl⟩
      | false => simp [outcome] at made
    | unregister i name now => simp [outcome] at made
    | remove i => simp [outcome] at made
    | sweep now timeout => simp [outcome] at made
  · rintro ⟨made, rfl⟩
    cases made <;> simp [outcome, Target.fresh, Target.addEndpoint, Target.insertName,
      Target.report, Target.setConnected]

theorem Operation.outcome_some {op : Operation} {id : Identifier} {now : Int64} {t : Target}
    (contact : op.contact? = some (id, now)) :
    ∃ after, op.outcome id (some t) = some after ∧ after.lastActivity = now := by
  cases op with
  | register i name at_ | unregister i name at_ | report i fix at_ =>
    cases contact
    exact ⟨_, if_pos rfl, rfl⟩
  | setConnected i value at_ =>
    cases contact
    cases value <;> exact ⟨_, if_pos rfl, rfl⟩
  | remove i | sweep _ _ => cases contact

theorem Operation.outcome_apart {op : Operation} {id other : Identifier} {now : Int64}
    {held : Option Target} (contact : op.contact? = some (id, now)) (apart : other ≠ id) :
    op.outcome other held = held := by
  cases op with
  | register i name at_ | unregister i name at_ | report i fix at_ =>
    cases contact
    exact if_neg apart
  | setConnected i value at_ =>
    cases contact
    cases value <;> exact if_neg apart
  | remove i | sweep _ _ => cases contact

end Registry

namespace Reflects
open Registry (Bookkeeping Operation)

variable {r : Registry} {d : Directory} {id : Identifier} {name : String} {t : Target}

theorem eq_target (alike : Reflects r d) (found : r.find? id = some t) :
    ∃ x : Profile, t = x.target id := by
  rw [alike.lookups] at found
  obtain ⟨x, _, shown⟩ := Option.map_eq_some_iff.mp found
  exact ⟨x, shown.symm⟩

theorem addEndpoint_offered (alike : Reflects r d) (now : Int64) (found : r.find? id = some t)
    (offered : t.offers name) : t.addEndpoint name now = { t with lastActivity := now } := by
  obtain ⟨x, rfl⟩ := alike.eq_target found
  have member : name ∈ x.endpoints := by simpa [Profile.offers_target] using offered
  simp [Target.addEndpoint, Profile.target, Profile.insertName_sort,
    Finset.insert_eq_of_mem member]

theorem removeEndpoint_absent (now : Int64) (absent : ¬ t.offers name) :
    t.removeEndpoint name now = { t with lastActivity := now } := by
  have kept : t.endpoints.filter (· != name) = t.endpoints := by
    apply List.filter_eq_self.mpr
    rintro n member
    have other : n ≠ name := by
      rintro rfl
      exact absent (by simpa [Target.offers] using member)
    simpa using other
  rw [Target.removeEndpoint, kept]

theorem bookkeeping (alike : Reflects r d) : Bookkeeping r where
  made op id t unknown := by
    rw [Registry.find?_apply alike.placed, unknown]
    exact Operation.outcome_none
  offeredAgain id name now t found offered := by
    constructor
    · simp [Registry.register, found, offered]
    · rw [← alike.addEndpoint_offered now found offered]
      refine (Registry.find?_apply alike.placed (.register id name now) id).trans ?_
      rw [found]
      exact if_pos rfl
  withdrawnInVain id name now t found absent := by
    constructor
    · simpa [Registry.unregister, found] using absent
    · rw [← removeEndpoint_absent now absent]
      refine (Registry.find?_apply alike.placed (.unregister id name now) id).trans ?_
      rw [found]
      exact if_pos rfl
  stamped op id now t contact found := by
    rw [Registry.find?_apply alike.placed, found]
    exact Operation.outcome_some contact
  apart op id now other contact apart := by
    rw [Registry.find?_apply alike.placed]
    exact Operation.outcome_apart contact apart
  forgotten id other := Registry.find?_remove
  counted := by
    refine ⟨d.known, fun id => ?_, alike.size⟩
    rw [alike.known, decide_eq_true_eq]
  shown := by
    rw [Registry.visits_eq alike.placed]
    exact ⟨alike.placed.nodup_sightings, fun t fix => alike.placed.mem_sightings⟩

end Reflects

namespace Registry

/-- The answers to calls are those of a directory, so they do not depend on the number of shards,
and the books are in order when the calls are over. -/
theorem answers_as_directory (shardCount : Nat) (positive : 0 < shardCount) (calls : List Call) :
    (runCalls step calls (empty shardCount positive)).1 =
      (runCalls Directory.step calls .empty).1 ∧
    Bookkeeping (runCalls step calls (empty shardCount positive)).2 ∧
    ∀ otherCount (positive' : 0 < otherCount),
      (runCalls step calls (empty otherCount positive')).1 =
        (runCalls step calls (empty shardCount positive)).1 := by
  obtain ⟨answers, alike⟩ := (Reflects.empty shardCount positive).run calls
  refine ⟨answers, alike.bookkeeping, fun otherCount positive' => ?_⟩
  obtain ⟨others, _⟩ := (Reflects.empty otherCount positive').run calls
  rw [answers, others]

theorem answers_as_directory_over_three_shards :
    let calls : List Call :=
      [.operate (.register .zero "ais" 5), .operate (.register .zero "ais" 6),
        .operate (.setConnected .max false 7), .operate (.setConnected .max true 8),
        .operate (.sweep 100000 60.0), .find .max, .size]
    0 < 3 ∧
    (runCalls Directory.step calls .empty).1 =
      [.flag true, .flag false, .flag false, .flag true, .count 1,
        .target (some ⟨.max, none, [], true, 8⟩), .count 1] ∧
    (runCalls step calls (empty 1 Nat.one_pos)).1 =
      (runCalls step calls (empty 3 (by decide))).1 := by
  intro calls
  obtain ⟨answers, _, alike⟩ := answers_as_directory 3 (by decide) calls
  refine ⟨by decide, ?_, alike 1 Nat.one_pos⟩
  rw [← answers]
  decide +kernel

end Registry
end VesselRelay
