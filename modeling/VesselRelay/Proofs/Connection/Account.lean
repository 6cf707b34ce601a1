import VesselRelay.Proofs.Connection.Watch

/-!
What the surroundings of a dispatcher go through. They change when the callback runs, when a
listener does something to them and when a listener that has thrown is reported; what is seen of a
dispatch, with what listeners do in between, accounts for the state it leaves.
-/
namespace VesselRelay.Wiring

variable {L ω σ : Type} {w : Wiring L ω σ}

/-- What surroundings go through where a listener does something to them, and where something is
seen. -/
def undergo (w : Wiring L ω σ) (host : σ) : ω ⊕ Mark L → σ
  | .inl op => w.perform op host
  | .inr mark =>
    match mark.sight with
    | .notified up _ => (w.notify up host).2
    | .ended _ event (some thrown) => w.report event thrown host
    | _ => host

/-- Surroundings change by what is seen, in its order, by what listeners do to them in between, and
by nothing else. -/
def Accounts (w : Wiring L ω σ) (marks : List (Mark L)) (before after : σ) : Prop :=
  ∃ story : List (ω ⊕ Mark L),
    story.filterMap Sum.getRight? = marks ∧ story.foldl w.undergo before = after

namespace Accounts
variable {marks later : List (Mark L)} {before between after : σ}

theorem refl (host : σ) : w.Accounts [] host host := ⟨[], rfl, rfl⟩

theorem append (first : w.Accounts marks before between)
    (second : w.Accounts later between after) : w.Accounts (marks ++ later) before after := by
  obtain ⟨story, rfl, rfl⟩ := first
  obtain ⟨rest, rfl, rfl⟩ := second
  exact ⟨story ++ rest, List.filterMap_append, List.foldl_append⟩

theorem performed (op : ω) (rest : w.Accounts marks (w.perform op before) after) :
    w.Accounts marks before after := by
  obtain ⟨story, rfl, rfl⟩ := rest
  exact ⟨.inl op :: story, rfl, rfl⟩

theorem seen (mark : Mark L) (rest : w.Accounts marks (w.undergo before (.inr mark)) after) :
    w.Accounts (mark :: marks) before after := by
  obtain ⟨story, rfl, rfl⟩ := rest
  exact ⟨.inr mark :: story, rfl, rfl⟩

/-- What is seen last is the last that the surroundings go through. -/
theorem snoc (first : w.Accounts marks before between) (mark : Mark L) :
    w.Accounts (marks ++ [mark]) before (w.undergo between (.inr mark)) :=
  first.append ((refl _).seen mark)

end Accounts
end VesselRelay.Wiring
