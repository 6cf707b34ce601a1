import Mathlib.Data.List.Forall2
import VesselRelay.Message.Reading

/-!
What reading a field gives, by the member that the field's name selects, and the one way in which a
reading fails. A reader made of readings is opened by `bind_eq_ok` where it succeeds and by
`OnlyDecodeFaults.bind` where it does not.
-/
namespace VesselRelay

theorem bind_eq_ok {α β : Type} {x : Except Failure α} {f : α → Except Failure β} {b : β} :
    (x >>= f) = .ok b ↔ ∃ a, x = .ok a ∧ f a = .ok b := by
  cases x <;> simp [bind, Except.bind]

theorem bind_ok {α β : Type} (a : α) (next : α → Except Failure β) :
    (Except.ok a >>= next) = next a :=
  rfl

theorem bind_error {α β : Type} (failure : Failure) (next : α → Except Failure β) :
    (Except.error failure >>= next) = .error failure :=
  rfl

theorem map_eq_ok {α β : Type} {x : Except Failure α} {f : α → β} {b : β} :
    x.map f = .ok b ↔ ∃ a, x = .ok a ∧ f a = b := by
  cases x <;> simp [Except.map]

theorem bind_eq_error {α β : Type} {x : Except Failure α} {f : α → Except Failure β}
    {failure : Failure} :
    (x >>= f) = .error failure ↔ x = .error failure ∨ ∃ a, x = .ok a ∧ f a = .error failure := by
  cases x <;> simp [bind, Except.bind]

theorem map_eq_error {α β : Type} {x : Except Failure α} {f : α → β} {failure : Failure} :
    x.map f = .error failure ↔ x = .error failure := by
  cases x <;> simp [Except.map]

/-- A row is read exactly when each of its members is, in order. -/
theorem mapM_eq_ok {α β : Type} {f : α → Except Failure β} {items : List α} {values : List β} :
    items.mapM f = .ok values ↔
      List.Forall₂ (fun item value => f item = .ok value) items values := by
  induction items generalizing values with
  | nil => cases values <;> simp [pure, Except.pure]
  | cons item rest ih =>
    rw [List.mapM_cons, bind_eq_ok]
    constructor
    · rintro ⟨value, head, read⟩
      obtain ⟨others, tail, same⟩ := bind_eq_ok.mp read
      cases same
      exact .cons head (ih.mp tail)
    · rintro (_ | ⟨head, tail⟩)
      exact ⟨_, head, bind_eq_ok.mpr ⟨_, ih.mpr tail, rfl⟩⟩

/-- Whatever goes wrong is a fault of the encoding. -/
def OnlyDecodeFaults {α : Type} (result : Except Failure α) : Prop :=
  ∀ failure, result = .error failure → ∃ fault, failure = .decode fault

namespace OnlyDecodeFaults

theorem ok {α : Type} (a : α) : OnlyDecodeFaults (.ok a) := by
  intro failure fails
  cases fails

theorem decodeFault {α : Type} (fault : DecodeFault) :
    OnlyDecodeFaults (Json.decodeFault fault : Except Failure α) := by
  intro failure fails
  cases fails
  exact ⟨fault, rfl⟩

theorem bind {α β : Type} {x : Except Failure α} {f : α → Except Failure β}
    (first : OnlyDecodeFaults x) (next : ∀ a, x = .ok a → OnlyDecodeFaults (f a)) :
    OnlyDecodeFaults (x >>= f) := by
  intro failure fails
  cases read : x with
  | error earlier =>
    rw [read] at fails
    cases fails
    exact first failure read
  | ok a =>
    rw [read] at fails
    exact next a read failure fails

theorem map {α β : Type} {x : Except Failure α} (f : α → β) (only : OnlyDecodeFaults x) :
    OnlyDecodeFaults (x.map f) := by
  intro failure fails
  cases x with
  | error earlier => cases fails; exact only failure rfl
  | ok a => cases fails

theorem mapM {α β : Type} {f : α → Except Failure β} (items : List α)
    (each : ∀ item ∈ items, OnlyDecodeFaults (f item)) : OnlyDecodeFaults (items.mapM f) := by
  induction items with
  | nil => exact ok []
  | cons item rest ih =>
    rw [List.mapM_cons]
    apply bind (each item (by simp))
    intro value _
    apply bind (ih fun other member => each other (by simp [member]))
    intro others _
    exact ok _

end OnlyDecodeFaults

namespace Json

/-- The member of an object under a name; what is no object has none. -/
def member? (name : String) : Json → Option Json
  | .object members => find? name members
  | _ => none

/-- The double that a number stands for. -/
def number? : Json → Option Float
  | .float x => some x
  | .int n => some (Binary64.ofInt n)
  | _ => none

variable {source : Json} {field : Field}

theorem carries_eq : source.carries field = (source.member? field.name).isSome := by
  cases source <;> rfl

theorem field_eq_ok {value : Json} :
    source.field field = .ok value ↔ source.member? field.name = some value := by
  cases source with
  | object members =>
    simp only [Json.field, member?]
    cases find? field.name members <;> simp [decodeFault]
  | _ => simp [Json.field, member?, decodeFault]

theorem readDouble_eq_ok {x : Float} :
    source.readDouble field = .ok x ↔ (source.member? field.name).bind number? = some x := by
  simp only [readDouble, bind_eq_ok, field_eq_ok, Option.bind_eq_some_iff]
  refine exists_congr fun value => and_congr_right fun _ => ?_
  cases value <;> simp [number?, pure, Except.pure, decodeFault]

theorem readInt64_eq_ok {n : Int64} :
    source.readInt64 field = .ok n ↔
      ∃ whole, source.member? field.name = some (.int whole) ∧ Int64.ofInt whole = n := by
  simp only [readInt64, bind_eq_ok, field_eq_ok]
  constructor
  · rintro ⟨value, found, read⟩
    cases value <;> simp [pure, Except.pure, decodeFault] at read
    exact ⟨_, found, read⟩
  · rintro ⟨whole, found, rfl⟩
    exact ⟨_, found, rfl⟩

theorem readInt64Or_eq_ok {n fallback : Int64} :
    source.readInt64Or field fallback = .ok n ↔
      source.member? field.name = none ∧ n = fallback ∨
      ∃ whole, source.member? field.name = some (.int whole) ∧ Int64.ofInt whole = n := by
  rw [readInt64Or, carries_eq]
  cases found : source.member? field.name with
  | none => simp [pure, Except.pure, eq_comm]
  | some value => simp [readInt64_eq_ok, found]

theorem toInt64_toInt32 {n : Int64} (low : Int32.minValue.toInt64 ≤ n)
    (high : n ≤ Int32.maxValue.toInt64) : n.toInt32.toInt64 = n := by
  rw [Int64.le_iff_toInt_le, Int32.toInt_toInt64, Int32.toInt_minValue] at low
  rw [Int64.le_iff_toInt_le, Int32.toInt_toInt64, Int32.toInt_maxValue] at high
  rw [← Int64.toInt_inj, Int32.toInt_toInt64, Int64.toInt_toInt32]
  apply Int.bmod_eq_of_le <;> omega

/-- A whole number of 32 bits is read as itself; a wider one is refused, after it has wrapped round
to 64 bits. -/
theorem readInt32_eq_ok {n : Int32} :
    source.readInt32 field = .ok n ↔
      ∃ whole, source.member? field.name = some (.int whole) ∧ Int64.ofInt whole = n.toInt64 := by
  simp only [readInt32, bind_eq_ok, readInt64_eq_ok]
  constructor
  · rintro ⟨value, ⟨whole, found, wrapped⟩, read⟩
    refine ⟨whole, found, wrapped.trans ?_⟩
    split at read
    · cases read
    · rename_i within
      cases read
      rw [not_or, Int64.not_lt, Int64.not_lt] at within
      exact (toInt64_toInt32 within.1 within.2).symm
  · rintro ⟨whole, found, wrapped⟩
    refine ⟨n.toInt64, ⟨whole, found, wrapped⟩, ?_⟩
    rw [if_neg]
    · simp [pure, Except.pure]
    · rintro (below | above)
      · exact Int64.not_lt.mpr (Int32.toInt64_le.mpr (Int32.minValue_le n)) below
      · exact Int64.not_lt.mpr (Int32.toInt64_le.mpr (Int32.le_maxValue n)) above

theorem readMessage_eq_ok {nested : Json} :
    source.readMessage field = .ok nested ↔
      source.member? field.name = some nested ∧ ∃ members, nested = .object members := by
  simp only [readMessage, bind_eq_ok, field_eq_ok]
  constructor
  · rintro ⟨value, found, read⟩
    cases value <;> simp [pure, Except.pure, decodeFault] at read
    exact ⟨read ▸ found, _, read.symm⟩
  · rintro ⟨found, members, rfl⟩
    exact ⟨_, found, rfl⟩

/-- A reader that takes nothing but objects reads a nested message as the member that holds it. -/
theorem readMessageAs_eq_ok {α : Type} {read : Json → Except Failure α} {a : α}
    (object : ∀ node, read node = .ok a → ∃ members, node = .object members) :
    source.readMessageAs read field = .ok a ↔
      ∃ node, source.member? field.name = some node ∧ read node = .ok a := by
  simp only [readMessageAs, bind_eq_ok, readMessage_eq_ok]
  constructor
  · rintro ⟨node, ⟨found, _⟩, reads⟩
    exact ⟨node, found, reads⟩
  · rintro ⟨node, found, reads⟩
    exact ⟨node, ⟨found, object node reads⟩, reads⟩

theorem readList_eq_ok {items : List Json} :
    source.readList field = .ok items ↔ source.member? field.name = some (.array items) := by
  simp only [readList, bind_eq_ok, field_eq_ok]
  constructor
  · rintro ⟨value, found, read⟩
    cases value <;> simp [pure, Except.pure, decodeFault] at read
    exact read ▸ found
  · intro found
    exact ⟨_, found, rfl⟩

theorem onlyDecodeFaults_field (source : Json) (field : Field) :
    OnlyDecodeFaults (source.field field) := by
  unfold Json.field
  repeat' split
  · exact .ok _
  all_goals exact .decodeFault _

theorem onlyDecodeFaults_readDouble (source : Json) (field : Field) :
    OnlyDecodeFaults (source.readDouble field) := by
  apply OnlyDecodeFaults.bind (onlyDecodeFaults_field source field)
  intro value _
  cases value
  case float => exact .ok _
  case int => exact .ok _
  all_goals exact .decodeFault _

theorem onlyDecodeFaults_readInt64 (source : Json) (field : Field) :
    OnlyDecodeFaults (source.readInt64 field) := by
  apply OnlyDecodeFaults.bind (onlyDecodeFaults_field source field)
  intro value _
  cases value
  case int => exact .ok _
  all_goals exact .decodeFault _

theorem onlyDecodeFaults_readInt64Or (source : Json) (field : Field) (fallback : Int64) :
    OnlyDecodeFaults (source.readInt64Or field fallback) := by
  unfold readInt64Or
  split
  · exact onlyDecodeFaults_readInt64 source field
  · exact .ok _

theorem onlyDecodeFaults_readInt32 (source : Json) (field : Field) :
    OnlyDecodeFaults (source.readInt32 field) := by
  apply OnlyDecodeFaults.bind (onlyDecodeFaults_readInt64 source field)
  intro value _
  split
  · exact .decodeFault _
  · exact .ok _

theorem onlyDecodeFaults_readMessage (source : Json) (field : Field) :
    OnlyDecodeFaults (source.readMessage field) := by
  apply OnlyDecodeFaults.bind (onlyDecodeFaults_field source field)
  intro value _
  cases value
  case object => exact .ok _
  all_goals exact .decodeFault _

theorem onlyDecodeFaults_readMessageAs {α : Type} {read : Json → Except Failure α}
    (only : ∀ node, OnlyDecodeFaults (read node)) (source : Json) (field : Field) :
    OnlyDecodeFaults (source.readMessageAs read field) :=
  OnlyDecodeFaults.bind (onlyDecodeFaults_readMessage source field) fun node _ => only node

theorem onlyDecodeFaults_readList (source : Json) (field : Field) :
    OnlyDecodeFaults (source.readList field) := by
  apply OnlyDecodeFaults.bind (onlyDecodeFaults_field source field)
  intro value _
  cases value
  case array => exact .ok _
  all_goals exact .decodeFault _

end Json
end VesselRelay
