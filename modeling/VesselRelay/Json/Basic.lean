/-!
JSON values. The members of an object are kept in order of their names, each name once, so two
objects with the same members are the same value. Whole numbers and doubles are told apart: `1` is
not `1.0`.
-/
namespace VesselRelay

inductive Json where
  | null
  | bool (value : Bool)
  /-- A whole number of 64 bits, signed or unsigned. -/
  | int (value : Int)
  | float (value : Float)
  | string (value : String)
  | array (items : List Json)
  | object (members : List (String × Json))
  deriving Repr

namespace Json

abbrev Members := List (String × Json)

/-- The value under a name. -/
def find? (name : String) : Members → Option Json
  | [] => none
  | (key, value) :: rest => if key = name then some value else find? name rest

/-- Puts a value under a name, in place of the one that was there. -/
def insert (name : String) (value : Json) : Members → Members
  | [] => [(name, value)]
  | (key, old) :: rest =>
    if key = name then (name, value) :: rest
    else if name < key then (name, value) :: (key, old) :: rest
    else (key, old) :: insert name value rest

/-- The members that a row of assignments leaves, later ones winning. -/
def assign (pairs : List (String × Json)) : Members :=
  pairs.foldl (fun members pair => insert pair.1 pair.2 members) []

def record (pairs : List (String × Json)) : Json := object (assign pairs)

theorem find?_insert_self (name : String) (value : Json) (members : Members) :
    find? name (insert name value members) = some value := by
  induction members with
  | nil => simp [insert, find?]
  | cons member rest ih =>
    obtain ⟨key, old⟩ := member
    by_cases same : key = name
    · simp [insert, same, find?]
    · by_cases less : name < key <;> simp [insert, same, less, find?, ih]

theorem find?_insert_of_ne {name other : String} (value : Json) (members : Members)
    (ne : name ≠ other) : find? other (insert name value members) = find? other members := by
  induction members with
  | nil => simp [insert, find?, ne]
  | cons member rest ih =>
    obtain ⟨key, old⟩ := member
    by_cases same : key = name
    · subst same; simp [insert, find?, ne]
    · by_cases less : name < key <;> simp [insert, same, less, find?, ih, ne]

/-- A value that is found is smaller than the object that holds it. -/
theorem sizeOf_find? {name : String} {members : Members} {value : Json}
    (found : find? name members = some value) : sizeOf value < sizeOf members := by
  induction members with
  | nil => simp [find?] at found
  | cons member rest ih =>
    obtain ⟨key, old⟩ := member
    simp only [find?] at found
    split at found
    · cases found; simp; omega
    · have := ih found; simp; omega

end Json
end VesselRelay
