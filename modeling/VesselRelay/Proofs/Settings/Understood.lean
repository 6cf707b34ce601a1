import VesselRelay.Proofs.Settings.Denoted
import VesselRelay.Proofs.Settings.Loaded
import VesselRelay.Relay

/-!
How the numbers in environment variables are understood. What counts is the longest numeral at the
start of a text, behind its blanks: it is used if it means a number above zero that fits, and
refused with a warning if not. What stands behind it does not count.
-/
namespace VesselRelay

/-- The entry that a notice makes if its level is admitted. -/
def Journal.entered? (journal : Journal) (notice : Notice) : Option Entry :=
  if journal.admits notice.1 then some ⟨notice.1, Json.record notice.2⟩ else none

/-- Notices are entered behind what stands in a journal, in their order. -/
theorem Journal.entries_logAll (notices : List Notice) (journal : Journal) :
    (journal.logAll notices).entries =
      journal.entries ++ (notices.filterMap journal.entered?).toArray := by
  induction notices generalizing journal with
  | nil => simp [logAll]
  | cons notice rest ih =>
    have step : (journal.log notice.1 notice.2).entries =
        journal.entries ++ (journal.entered? notice).toList.toArray := by
      unfold log entered?
      split <;> simp
    have same : (journal.log notice.1 notice.2).entered? = journal.entered? := by
      unfold log
      split <;> rfl
    change ((journal.log notice.1 notice.2).logAll rest).entries = _
    rw [ih, step, same]
    cases entered : journal.entered? notice <;> simp [entered]

namespace Settings

/-! ### Kinds of numbers -/

/-- A kind of number that a variable may hold: its numerals, which of them can be used, and what
they mean. -/
structure Kind (α : Type) where
  Numeral : Type
  text : Numeral → List Char
  Usable : Numeral → Prop
  Means : Numeral → α → Prop

def wholes : Kind ℕ where
  Numeral := Whole
  text := Whole.text
  Usable w := 0 < w.value ∧ w.value < 2 ^ 31
  Means w n := (n : ℤ) = w.value

def reals : Kind Float where
  Numeral := Numeral
  text := Numeral.text
  Usable := Numeral.Usable
  Means r := r.body.quantity.Means

namespace Kind
variable {α : Type} {kind : Kind α} {n : kind.Numeral} {cs : List Char}

def IsText (kind : Kind α) (word : List Char) : Prop := ∃ n, kind.text n = word

/-- Whether a numeral is the longest at the start of a text, behind its blanks. -/
def Leads (n : kind.Numeral) (cs : List Char) : Prop :=
  Longest kind.IsText (kind.text n) (cs.dropWhile isSpace)

/-- Whether a text is a numeral between blanks. -/
def Fills (n : kind.Numeral) (cs : List Char) : Prop :=
  ∃ front back, (∀ c ∈ front, isSpace c) ∧ (∀ c ∈ back, isSpace c) ∧
    cs = front ++ kind.text n ++ back

/-- Whether numbers of a kind are read as their longest numerals tell. -/
structure ReadBy (kind : Kind α) (read : List Char → Option α) : Prop where
  solid : ∀ n, Solid (kind.text n)
  usable : ∀ (n : kind.Numeral) cs, Leads n cs → kind.Usable n →
    ∃ x, read cs = some x ∧ kind.Means n x
  unusable : ∀ (n : kind.Numeral) cs, Leads n cs → ¬ kind.Usable n → read cs = none
  absent : ∀ cs, (∀ n : kind.Numeral, ¬ kind.text n <+: cs.dropWhile isSpace) → read cs = none

theorem leads_of_fills (solid : ∀ n, Solid (kind.text n)) (fills : Fills n cs) : Leads n cs := by
  obtain ⟨front, back, before, behind, rfl⟩ := fills
  refine longest_of_solid ?_ ⟨n, rfl⟩ before behind
  rintro _ ⟨m, rfl⟩
  exact solid m

/-- Where none of its beginnings is the longest numeral, a text begins with none. -/
theorem absent_of_not_leads (without : ∀ n : kind.Numeral, ¬ Leads n cs) (n : kind.Numeral) :
    ¬ kind.text n <+: cs.dropWhile isSpace := by
  intro start
  obtain ⟨longest, leads⟩ := exists_longest (p := kind.IsText) start ⟨n, rfl⟩
  obtain ⟨m, rfl⟩ := leads.has
  exact without m leads

end Kind

/-! ### Reading -/

def readWhole (cs : List Char) : Option ℕ := ((int? cs).filter (0 < ·)).map Int.toNat

def readReal (cs : List Char) : Option Float := (real? cs).filter (0.0 < ·)

theorem readWhole_of_usable {w : Whole} {cs : List Char}
    (longest : Longest Whole.IsText w.text (cs.dropWhile isSpace)) (positive : 0 < w.value)
    (small : w.value < 2 ^ 31) : readWhole cs = some w.value.toNat := by
  rw [readWhole, int?_of_longest longest, if_pos ⟨by omega, small⟩]
  simp [positive]

theorem readWhole_of_unusable {w : Whole} {cs : List Char}
    (longest : Longest Whole.IsText w.text (cs.dropWhile isSpace))
    (unusable : ¬ (0 < w.value ∧ w.value < 2 ^ 31)) : readWhole cs = none := by
  rw [readWhole, int?_of_longest longest]
  split
  · rename_i fits
    have nonpos : ¬ 0 < w.value := fun positive => unusable ⟨positive, fits.2⟩
    simpa using nonpos
  · rfl

theorem readBy_readWhole : wholes.ReadBy readWhole where
  solid := Whole.solid
  usable _ _ leads usable :=
    ⟨_, readWhole_of_usable leads usable.1 usable.2, Int.toNat_of_nonneg usable.1.le⟩
  unusable _ _ leads unusable := readWhole_of_unusable leads unusable
  absent cs absent := by
    rw [readWhole, int?_of_absent]
    · rfl
    · rintro _ start ⟨w, rfl⟩
      exact absent w start

theorem readBy_readReal : reals.ReadBy readReal where
  solid := Numeral.solid
  usable _ _ leads usable := filter_real?_of_usable leads usable
  unusable _ _ leads unusable := filter_real?_of_unusable leads unusable
  absent cs absent := by
    rw [readReal, real?_of_absent]
    · rfl
    · rintro _ start ⟨r, rfl⟩
      exact absent r start

/-! ### Variables -/

section
variable {α : Type} {kind : Kind α} {read : List Char → Option α}

/-- What a variable comes to: a setting and the complaints about it. -/
structure Settled (kind : Kind α) (complaint : String → Notice) (fallback : α)
    (raw : Option String) (setting : α) (complaints : List Notice) : Prop where
  unset : raw = none → setting = fallback ∧ complaints = []
  /-- Whatever stands behind the longest numeral is passed over. -/
  usable : ∀ text n, raw.map beforeNul = some text → Kind.Leads n text.toList → kind.Usable n →
    kind.Means n setting ∧ complaints = []
  unusable : ∀ text (n : kind.Numeral), raw.map beforeNul = some text →
    Kind.Leads n text.toList → ¬ kind.Usable n → setting = fallback ∧ complaints = [complaint text]
  without : ∀ text, raw.map beforeNul = some text →
    (∀ n : kind.Numeral, ¬ Kind.Leads n text.toList) →
    setting = fallback ∧ complaints = [complaint text]
  /-- A text that is a numeral between blanks has no other longest one. -/
  filled : ∀ text (n : kind.Numeral), raw.map beforeNul = some text → Kind.Fills n text.toList →
    Kind.Leads n text.toList

/-- The complaints about a variable. -/
def complaintsOf (read : List Char → Option α) (complaint : String → Notice)
    (raw : Option String) : List Notice :=
  match raw.map beforeNul with
  | none => []
  | some text => if (read text.toList).isSome then [] else [complaint text]

def settingOf (read : List Char → Option α) (fallback : α) (raw : Option String) : α :=
  ((raw.map beforeNul).bind fun text => read text.toList).getD fallback

theorem settled (reads : kind.ReadBy read) (complaint : String → Notice) (fallback : α)
    (raw : Option String) :
    Settled kind complaint fallback raw (settingOf read fallback raw)
      (complaintsOf read complaint raw) where
  unset := by
    rintro rfl
    exact ⟨rfl, rfl⟩
  usable text n held leads usable := by
    obtain ⟨x, same, means⟩ := reads.usable n _ leads usable
    simp [settingOf, complaintsOf, held, same, means]
  unusable text n held leads unusable := by
    simp [settingOf, complaintsOf, held, reads.unusable n _ leads unusable]
  without text held without := by
    simp [settingOf, complaintsOf, held, reads.absent _ (Kind.absent_of_not_leads without)]
  filled _ _ _ := Kind.leads_of_fills reads.solid

end

/-! ### All of them -/

/-- The warning of a text that is refused. -/
def refusal (variableName : String) (fallback : Json) (text : String) : Notice :=
  (.warning,
    [("component", .string "configuration"), ("event", .string "invalid_value"),
     ("variable", .string variableName), ("value", .string text), ("fallback", fallback)])

section
variable (variableName : String) (raw : Option String) (journal : Journal)

theorem positiveInt_eq (fallback : ℕ) :
    positiveInt variableName raw fallback journal =
      (whole raw fallback,
        journal.logAll (complaintsOf readWhole (refusal variableName (.int fallback)) raw)) := by
  refine Prod.ext (positiveInt_fst variableName journal fallback) ?_
  unfold positiveInt complaintsOf readWhole
  cases raw.map beforeNul with
  | none => rfl
  | some text =>
    dsimp only
    cases (int? text.toList).filter (0 < ·) <;> rfl

theorem positiveReal_eq (fallback : Float) :
    positiveReal variableName raw fallback journal =
      (real raw fallback,
        journal.logAll (complaintsOf readReal (refusal variableName (.float fallback)) raw)) := by
  refine Prod.ext (positiveReal_fst variableName journal fallback) ?_
  unfold positiveReal complaintsOf readReal
  cases raw.map beforeNul with
  | none => rfl
  | some text =>
    dsimp only
    cases (real? text.toList).filter (0.0 < ·) <;> rfl

theorem whole_eq (fallback : ℕ) : whole raw fallback = settingOf readWhole fallback raw := by
  simp only [whole, settingOf, readWhole, Option.bind_map, Option.map_bind, Function.comp_def]

theorem real_eq (fallback : Float) : real raw fallback = settingOf readReal fallback raw := by
  simp only [real, settingOf, readReal, Option.bind_map, Function.comp_def]

end

/-- Complaints, each about one variable. -/
structure Complaints where
  shards : List Notice
  timeout : List Notice
  sweepRate : List Notice
  vessels : List Notice
  regionRadius : List Notice

def Complaints.all (c : Complaints) : List Notice :=
  c.shards ++ c.timeout ++ c.sweepRate ++ c.vessels ++ c.regionRadius

def loading : Notice :=
  (.info, [("component", .string "configuration"), ("event", .string "loading")])

def loaded (s : Settings) : Notice :=
  (.info,
    [("component", .string "configuration"), ("event", .string "loaded"),
     ("registry_shards", .int s.shards), ("target_timeout_s", .float s.timeout),
     ("sweep_hz", .float s.sweepRate), ("sim_vessels", .int s.vessels),
     ("sim_region_radius_m", .float s.regionRadius)])

/-- Whether settings and complaints are what the variables of an environment come to. -/
structure Understood (env : Environment) (s : Settings) (c : Complaints) : Prop where
  shards : Settled wholes (refusal "MARITIME_RELAY_REGISTRY_SHARDS" (.int 16)) 16
    env.shards s.shards c.shards
  timeout : Settled reals (refusal "MARITIME_RELAY_TARGET_TIMEOUT_S" (.float 300.0)) 300.0
    env.timeout s.timeout c.timeout
  sweepRate : Settled reals (refusal "MARITIME_RELAY_SWEEP_HZ" (.float 1.0)) 1.0
    env.sweepRate s.sweepRate c.sweepRate
  vessels : Settled wholes (refusal "MARITIME_RELAY_SIM_VESSELS" (.int 25)) 25
    env.vessels s.vessels c.vessels
  regionRadius : Settled reals
    (refusal "MARITIME_RELAY_SIM_REGION_RADIUS_M" (.float 20000.0)) 20000.0
    env.regionRadius s.regionRadius c.regionRadius

section
variable (env : Environment) (journal : Journal)

/-- The complaints about an environment. -/
def complaints : Complaints where
  shards :=
    complaintsOf readWhole (refusal "MARITIME_RELAY_REGISTRY_SHARDS" (.int 16)) env.shards
  timeout :=
    complaintsOf readReal (refusal "MARITIME_RELAY_TARGET_TIMEOUT_S" (.float 300.0)) env.timeout
  sweepRate :=
    complaintsOf readReal (refusal "MARITIME_RELAY_SWEEP_HZ" (.float 1.0)) env.sweepRate
  vessels :=
    complaintsOf readWhole (refusal "MARITIME_RELAY_SIM_VESSELS" (.int 25)) env.vessels
  regionRadius :=
    complaintsOf readReal (refusal "MARITIME_RELAY_SIM_REGION_RADIUS_M" (.float 20000.0))
      env.regionRadius

theorem understood_load : Understood env (load env journal).1 (complaints env) := by
  rw [load_fst]
  simp only [whole_eq, real_eq]
  exact
    { shards := settled readBy_readWhole ..
      timeout := settled readBy_readReal ..
      sweepRate := settled readBy_readReal ..
      vessels := settled readBy_readWhole ..
      regionRadius := settled readBy_readReal .. }

theorem load_snd : (load env journal).2 =
    journal.logAll (loading :: (complaints env).all ++ [loaded (load env journal).1]) := by
  rw [load_fst]
  unfold load Journal.logAll Complaints.all
  simp only [bind, StateT.bind, modify, positiveInt_eq, positiveReal_eq, List.foldl_append,
    List.cons_append, List.foldl_cons, List.foldl_nil]
  rfl

/-- The numbers in an environment are used, or refused with a warning, as their longest numerals
tell, and nothing else is entered about them. -/
theorem load_understood : ∃ c, Understood env (load env journal).1 c ∧
    (load env journal).2.entries = journal.entries ++
      ((loading :: c.all ++ [loaded (load env journal).1]).filterMap journal.entered?).toArray := by
  rw [load_snd]
  exact ⟨complaints env, understood_load env journal, Journal.entries_logAll _ journal⟩

end

/-- A text that is no numeral between blanks is used for what it begins with, without a warning. -/
theorem ships_taken :
    let text := "12 ships"
    let env : Environment := ⟨none, none, none, none, none, some text, none⟩
    (∀ w : wholes.Numeral, ¬ Kind.Fills w text.toList) ∧
      (load env .opened).1.vessels = 12 ∧
      ∀ e ∈ (load env .opened).2.entries, e.level = .info := by
  refine ⟨?_, by decide +kernel, by decide +kernel⟩
  rintro ⟨sign, digits, all, filled⟩ ⟨front, back, before, behind, same⟩
  have letter : 's' ∈ front ++ (sign.text ++ digits) ++ back := by
    rw [show front ++ (sign.text ++ digits) ++ back = "12 ships".toList from same.symm]
    decide
  simp only [List.mem_append] at letter
  rcases letter with (blank | sign' | digit) | blank
  · exact absurd (before 's' blank) (by decide)
  · cases sign <;> simp [Sign.text] at sign'
  · exact absurd (all 's' digit) (by decide)
  · exact absurd (behind 's' blank) (by decide)

end Settings
end VesselRelay
