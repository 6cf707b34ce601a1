import VesselRelay.Geo.Wire
import VesselRelay.Proofs.Reading
import VesselRelay.Proofs.WordSized

/-!
The grammar of encoded positions and areas, stated on JSON values without a reader: which values
spell which area. Only the members that the grammar names count; an object may carry any others.
Reading gives an area exactly where the grammar does, and fails with a decode fault everywhere else.
-/
namespace VesselRelay

/-- Two coordinates that are numbers; being those of a position they are in range. -/
structure Position.SpelledBy (p : Position) (source : Json) : Prop where
  latitude : (source.member? "latitude").bind Json.number? = some p.latitude
  longitude : (source.member? "longitude").bind Json.number? = some p.longitude

/-- A position, and a whole number for its time; without one the time is the epoch. -/
structure Fix.SpelledBy (fix : Fix) (source : Json) : Prop where
  position : fix.position.SpelledBy source
  time : source.member? "time" = none ∧ fix.time = 0 ∨
    source.member? "time" = some (.int fix.time.toInt)

/-- The code of a model is a whole number and never a double. -/
inductive DistanceModel.SpelledBy : DistanceModel → Option Json → Prop
  | absent : SpelledBy .cartesian none
  | cartesian : SpelledBy .cartesian (some (.int 0))
  | geodesic : SpelledBy .geodesic (some (.int 1))

structure Circle.SpelledBy (c : Circle) (source : Json) : Prop where
  center : ∃ node, source.member? "center" = some node ∧ c.center.SpelledBy node
  radius : (source.member? "radius").bind Json.number? = some c.radius
  model : c.model.SpelledBy (source.member? "coordinateSystem")

structure Rectangle.SpelledBy (r : Rectangle) (source : Json) : Prop where
  northWest : ∃ node, source.member? "topLeft" = some node ∧ r.northWest.SpelledBy node
  southEast : ∃ node, source.member? "bottomRight" = some node ∧ r.southEast.SpelledBy node

def Polygon.SpelledBy (g : Polygon) (source : Json) : Prop :=
  ∃ items, source.member? "points" = some (.array items) ∧
    List.Forall₂ (fun item p => p.SpelledBy item) items g.points

namespace Area

mutual

/-- The first of the four members that an object carries decides. -/
inductive SpelledBy : Area → Json → Prop
  | circle {c : Circle} {source node : Json} (found : source.member? "circle" = some node)
      (spelled : c.SpelledBy node) : SpelledBy (.shape (.circle c)) source
  | box {r : Rectangle} {source node : Json} (noCircle : source.member? "circle" = none)
      (found : source.member? "box" = some node) (spelled : r.SpelledBy node) :
      SpelledBy (.shape (.rectangle r)) source
  | polygon {g : Polygon} {source node : Json} (noCircle : source.member? "circle" = none)
      (noBox : source.member? "box" = none) (found : source.member? "polygon" = some node)
      (spelled : g.SpelledBy node) : SpelledBy (.shape (.polygon g)) source
  | areas {members : List Area} {source : Json} {items : List Json}
      (noCircle : source.member? "circle" = none) (noBox : source.member? "box" = none)
      (noPolygon : source.member? "polygon" = none)
      (found : source.member? "areas" = some (.array items))
      (spelled : SpelledByAll members items) : SpelledBy (.union members) source

inductive SpelledByAll : List Area → List Json → Prop
  | nil : SpelledByAll [] []
  | cons {a : Area} {item : Json} {members : List Area} {items : List Json}
      (head : SpelledBy a item) (tail : SpelledByAll members items) :
      SpelledByAll (a :: members) (item :: items)

end

end Area

/-! ### Positions and fixes -/

namespace Json

/-- A member is looked for in objects only. -/
theorem object_of_member? {source value : Json} {name : String}
    (found : source.member? name = some value) : ∃ members, source = .object members := by
  cases source <;> simp [member?] at found
  exact ⟨_, rfl⟩

theorem object_of_number? {source : Json} {name : String} {x : Float}
    (found : (source.member? name).bind number? = some x) :
    ∃ members, source = .object members := by
  obtain ⟨value, found, _⟩ := Option.bind_eq_some_iff.mp found
  exact object_of_member? found

end Json

theorem Position.ofJson_eq_ok {source : Json} {p : Position} :
    ofJson source = .ok p ↔ p.SpelledBy source := by
  simp only [ofJson, bind_eq_ok, Json.readDouble_eq_ok]
  constructor
  · rintro ⟨latitude, readLatitude, longitude, readLongitude, made⟩
    split at made
    · obtain ⟨rfl, rfl⟩ := make_eq_ok.mp made
      exact ⟨readLatitude, readLongitude⟩
    · cases made
  · intro spelled
    refine ⟨p.latitude, spelled.latitude, p.longitude, spelled.longitude, ?_⟩
    rw [if_pos ⟨p.validLatitude, p.validLongitude⟩, make_self]

/-- The range is checked before the constructor checks it, so the constructor refuses nothing. -/
theorem Position.onlyDecodeFaults_ofJson (source : Json) : OnlyDecodeFaults (ofJson source) := by
  apply OnlyDecodeFaults.bind (Json.onlyDecodeFaults_readDouble source _)
  intro latitude _
  apply OnlyDecodeFaults.bind (Json.onlyDecodeFaults_readDouble source _)
  intro longitude _
  split
  · rename_i valid
    rw [make_eq_ok (p := ⟨latitude, longitude, valid.1, valid.2⟩) |>.mpr ⟨rfl, rfl⟩]
    exact .ok _
  · exact .decodeFault _

theorem Position.readMessageAs_eq_ok {source : Json} {field : Field} {p : Position} :
    source.readMessageAs ofJson field = .ok p ↔
      ∃ node, source.member? field.name = some node ∧ p.SpelledBy node := by
  rw [Json.readMessageAs_eq_ok]
  · simp only [ofJson_eq_ok]
  · intro node read
    exact Json.object_of_number? (ofJson_eq_ok.mp read).latitude

theorem Fix.ofJson_of_spelledBy {source : Json} {fix : Fix} (spelled : fix.SpelledBy source) :
    ofJson source = .ok fix := by
  refine bind_eq_ok.mpr ⟨fix.position, Position.ofJson_eq_ok.mpr spelled.position,
    bind_eq_ok.mpr ⟨fix.time, Json.readInt64Or_eq_ok.mpr ?_, rfl⟩⟩
  rcases spelled.time with absent | present
  · exact .inl absent
  · exact .inr ⟨_, present, Int64.ofInt_toInt _⟩

/-! ### Shapes -/

theorem DistanceModel.ofCode_eq_ok {code : Int32} {model : DistanceModel} :
    ofCode code = .ok model ↔ code = model.code := by
  constructor
  · intro read
    unfold ofCode at read
    split at read <;> try split at read
    all_goals cases read
    all_goals assumption
  · rintro rfl
    cases model <;> rfl

/-- Of the whole numbers of 64 bits, signed or unsigned, only a code itself wraps round to it. -/
theorem DistanceModel.code_of_wrapped {n : Int} {model : DistanceModel}
    (sized : (Json.int n).wordSized) (wrapped : Int64.ofInt n = model.code.toInt64) :
    n = model.code.toInt := by
  simp only [Json.wordSized, decide_eq_true_eq] at sized
  have same := congrArg Int64.toInt wrapped
  rw [Int64.toInt_ofInt, Int32.toInt_toInt64] at same
  have small : model.code.toInt = 0 ∨ model.code.toInt = 1 := by cases model <;> decide
  simp only [Int.bmod_def, Int64.size] at same
  omega

theorem DistanceModel.spelledBy_iff {model : DistanceModel} {node : Option Json} :
    model.SpelledBy node ↔
      node = none ∧ model = .cartesian ∨ node = some (.int model.code.toInt) := by
  constructor
  · rintro (_ | _ | _)
    · exact .inl ⟨rfl, rfl⟩
    · exact .inr rfl
    · exact .inr rfl
  · rintro (⟨rfl, rfl⟩ | rfl)
    · exact .absent
    · cases model
      · exact .cartesian
      · exact .geodesic

theorem DistanceModel.ofJson_of_spelledBy {source : Json} {model : DistanceModel}
    (spelled : model.SpelledBy (source.member? "coordinateSystem")) :
    ofJson source = .ok model := by
  rw [ofJson, Json.carries_eq]
  change (if (source.member? "coordinateSystem").isSome then _ else _) = _
  rcases spelledBy_iff.mp spelled with ⟨absent, rfl⟩ | present
  · rw [absent]
    rfl
  · rw [present, Option.isSome_some, if_pos rfl]
    refine bind_eq_ok.mpr ⟨model.code, Json.readInt32_eq_ok.mpr ⟨_, present, ?_⟩,
      ofCode_eq_ok.mpr rfl⟩
    rw [← Int64.toInt_inj, Int32.toInt_toInt64]
    cases model <;> rfl

theorem DistanceModel.spelledBy_of_ofJson {source : Json} {model : DistanceModel}
    (sized : source.wordSized) (read : ofJson source = .ok model) :
    model.SpelledBy (source.member? "coordinateSystem") := by
  rw [ofJson, Json.carries_eq] at read
  change (if (source.member? "coordinateSystem").isSome then _ else _) = _ at read
  rw [spelledBy_iff]
  cases found : source.member? "coordinateSystem" with
  | none =>
    rw [found] at read
    cases read
    exact .inl ⟨rfl, rfl⟩
  | some node =>
    rw [found, Option.isSome_some, if_pos rfl] at read
    obtain ⟨code, readCode, known⟩ := bind_eq_ok.mp read
    obtain rfl := ofCode_eq_ok.mp known
    obtain ⟨whole, foundWhole, wrapped⟩ := Json.readInt32_eq_ok.mp readCode
    obtain rfl : node = .int whole := Option.some.inj (found.symm.trans foundWhole)
    rw [code_of_wrapped (Json.wordSized_member? sized found) wrapped]
    exact .inr rfl

theorem DistanceModel.onlyDecodeFaults_ofJson (source : Json) :
    OnlyDecodeFaults (ofJson source) := by
  unfold ofJson
  split
  · apply OnlyDecodeFaults.bind (Json.onlyDecodeFaults_readInt32 source _)
    intro code _
    unfold ofCode
    repeat' split
    · exact .ok _
    · exact .ok _
    · exact .decodeFault _
  · exact .ok _

theorem Circle.make_eq_ok {center : Position} {radius : Float} {model : DistanceModel}
    {c : Circle} :
    make center radius model = .ok c ↔
      center = c.center ∧ radius = c.radius ∧ model = c.model := by
  constructor
  · intro made
    unfold make at made
    split at made <;> cases made
    exact ⟨rfl, rfl, rfl⟩
  · rintro ⟨rfl, rfl, rfl⟩
    exact dif_pos c.positive

theorem Circle.ofJson_of_spelledBy {source : Json} {c : Circle} (spelled : c.SpelledBy source) :
    ofJson source = .ok c := by
  refine bind_eq_ok.mpr ⟨c.center, Position.readMessageAs_eq_ok.mpr spelled.center,
    bind_eq_ok.mpr ⟨c.radius, Json.readDouble_eq_ok.mpr spelled.radius, ?_⟩⟩
  rw [if_pos c.positive, DistanceModel.ofJson_of_spelledBy spelled.model]
  exact make_eq_ok.mpr ⟨rfl, rfl, rfl⟩

theorem Circle.spelledBy_of_ofJson {source : Json} {c : Circle} (sized : source.wordSized)
    (read : ofJson source = .ok c) : c.SpelledBy source := by
  obtain ⟨center, readCenter, read⟩ := bind_eq_ok.mp read
  obtain ⟨radius, readRadius, read⟩ := bind_eq_ok.mp read
  split at read
  · obtain ⟨model, readModel, made⟩ := bind_eq_ok.mp read
    obtain ⟨rfl, rfl, rfl⟩ := make_eq_ok.mp made
    exact ⟨Position.readMessageAs_eq_ok.mp readCenter, Json.readDouble_eq_ok.mp readRadius,
      DistanceModel.spelledBy_of_ofJson sized readModel⟩
  · cases read

theorem Circle.onlyDecodeFaults_ofJson (source : Json) : OnlyDecodeFaults (ofJson source) := by
  apply OnlyDecodeFaults.bind
    (Json.onlyDecodeFaults_readMessageAs Position.onlyDecodeFaults_ofJson source _)
  intro center _
  apply OnlyDecodeFaults.bind (Json.onlyDecodeFaults_readDouble source _)
  intro radius _
  split
  · rename_i positive
    apply OnlyDecodeFaults.bind (DistanceModel.onlyDecodeFaults_ofJson source)
    intro model _
    rw [make_eq_ok (c := ⟨center, radius, model, positive⟩) |>.mpr ⟨rfl, rfl, rfl⟩]
    exact .ok _
  · exact .decodeFault _

theorem Rectangle.make_eq_ok {northWest southEast : Position} {r : Rectangle} :
    make northWest southEast = .ok r ↔ northWest = r.northWest ∧ southEast = r.southEast := by
  constructor
  · intro made
    unfold make at made
    split at made <;> cases made
    exact ⟨rfl, rfl⟩
  · rintro ⟨rfl, rfl⟩
    exact dif_pos (show Ordered _ _ from ⟨r.upright, r.eastward⟩)

theorem Rectangle.ofJson_eq_ok {source : Json} {r : Rectangle} :
    ofJson source = .ok r ↔ r.SpelledBy source := by
  simp only [ofJson, bind_eq_ok, Position.readMessageAs_eq_ok]
  constructor
  · rintro ⟨northWest, readNorthWest, southEast, readSouthEast, made⟩
    split at made
    · obtain ⟨rfl, rfl⟩ := make_eq_ok.mp made
      exact ⟨readNorthWest, readSouthEast⟩
    · cases made
  · intro spelled
    refine ⟨r.northWest, spelled.northWest, r.southEast, spelled.southEast, ?_⟩
    rw [if_pos (show Ordered _ _ from ⟨r.upright, r.eastward⟩)]
    exact make_eq_ok.mpr ⟨rfl, rfl⟩

theorem Rectangle.onlyDecodeFaults_ofJson (source : Json) : OnlyDecodeFaults (ofJson source) := by
  apply OnlyDecodeFaults.bind
    (Json.onlyDecodeFaults_readMessageAs Position.onlyDecodeFaults_ofJson source _)
  intro northWest _
  apply OnlyDecodeFaults.bind
    (Json.onlyDecodeFaults_readMessageAs Position.onlyDecodeFaults_ofJson source _)
  intro southEast _
  split
  · rename_i order
    rw [make_eq_ok (r := ⟨northWest, southEast, order.1, order.2⟩) |>.mpr ⟨rfl, rfl⟩]
    exact .ok _
  · exact .decodeFault _

theorem Polygon.make_eq_ok {points : List Position} {g : Polygon} :
    make points = .ok g ↔ points = g.points := by
  constructor
  · intro made
    unfold make at made
    split at made <;> cases made
    rfl
  · rintro rfl
    exact dif_pos g.enough

theorem Polygon.ofJson_eq_ok {source : Json} {g : Polygon} :
    ofJson source = .ok g ↔ g.SpelledBy source := by
  simp only [ofJson, bind_eq_ok, Json.readList_eq_ok, mapM_eq_ok, Position.ofJson_eq_ok]
  constructor
  · rintro ⟨items, found, points, spelled, made⟩
    split at made
    · obtain rfl := make_eq_ok.mp made
      exact ⟨items, found, spelled⟩
    · cases made
  · rintro ⟨items, found, spelled⟩
    refine ⟨items, found, g.points, spelled, ?_⟩
    rw [if_pos g.enough]
    exact make_eq_ok.mpr rfl

theorem Polygon.onlyDecodeFaults_ofJson (source : Json) : OnlyDecodeFaults (ofJson source) := by
  apply OnlyDecodeFaults.bind (Json.onlyDecodeFaults_readList source _)
  intro items _
  apply OnlyDecodeFaults.bind
    (OnlyDecodeFaults.mapM items fun item _ => Position.onlyDecodeFaults_ofJson item)
  intro points _
  split
  · rename_i enough
    rw [make_eq_ok (g := ⟨points, enough⟩) |>.mpr rfl]
    exact .ok _
  · exact .decodeFault _

/-! ### Areas -/

theorem Circle.readMessageAs_eq_ok {source : Json} {field : Field} {c : Circle} :
    source.readMessageAs ofJson field = .ok c ↔
      ∃ node, source.member? field.name = some node ∧ ofJson node = .ok c := by
  apply Json.readMessageAs_eq_ok
  intro node read
  obtain ⟨center, readCenter, _⟩ := bind_eq_ok.mp read
  obtain ⟨held, found, _⟩ := Position.readMessageAs_eq_ok.mp readCenter
  exact Json.object_of_member? found

theorem Rectangle.readMessageAs_eq_ok {source : Json} {field : Field} {r : Rectangle} :
    source.readMessageAs ofJson field = .ok r ↔
      ∃ node, source.member? field.name = some node ∧ r.SpelledBy node := by
  rw [Json.readMessageAs_eq_ok]
  · simp only [ofJson_eq_ok]
  · intro node read
    obtain ⟨held, found, _⟩ := (ofJson_eq_ok.mp read).northWest
    exact Json.object_of_member? found

theorem Polygon.readMessageAs_eq_ok {source : Json} {field : Field} {g : Polygon} :
    source.readMessageAs ofJson field = .ok g ↔
      ∃ node, source.member? field.name = some node ∧ g.SpelledBy node := by
  rw [Json.readMessageAs_eq_ok]
  · simp only [ofJson_eq_ok]
  · intro node read
    obtain ⟨items, found, _⟩ := ofJson_eq_ok.mp read
    exact Json.object_of_member? found

namespace Area

/-- Reading an area without the bookkeeping that shows the recursion to end. -/
theorem ofJson_eq (source : Json) : ofJson source =
    if (source.member? "circle").isSome then
      (source.readMessageAs Circle.ofJson Wire.circle).map fun c => .shape (.circle c)
    else if (source.member? "box").isSome then
      (source.readMessageAs Rectangle.ofJson Wire.box).map fun r => .shape (.rectangle r)
    else if (source.member? "polygon").isSome then
      (source.readMessageAs Polygon.ofJson Wire.polygon).map fun g => .shape (.polygon g)
    else if (source.member? "areas").isSome then
      source.readList Wire.areas >>= fun items => (ofJsonAll items).map .union
    else Json.decodeFault .unknownShape := by
  rw [ofJson]
  simp only [Json.carries_eq]
  congr 4
  cases source.readList Wire.areas <;> rfl

theorem ofJsonAll_cons (item : Json) (rest : List Json) :
    ofJsonAll (item :: rest) =
      (ofJson item >>= fun a => (ofJsonAll rest).map fun members => a :: members) := by
  rw [ofJsonAll]
  rfl

mutual

theorem ofJson_of_spelledBy {a : Area} {source : Json} :
    SpelledBy a source → ofJson source = .ok a
  | .circle found spelled => by
    rw [ofJson_eq, found, Option.isSome_some, if_pos rfl]
    exact map_eq_ok.mpr ⟨_, Circle.readMessageAs_eq_ok.mpr
      ⟨_, found, Circle.ofJson_of_spelledBy spelled⟩, rfl⟩
  | .box noCircle found spelled => by
    rw [ofJson_eq, noCircle, found]
    exact map_eq_ok.mpr ⟨_, Rectangle.readMessageAs_eq_ok.mpr ⟨_, found, spelled⟩, rfl⟩
  | .polygon noCircle noBox found spelled => by
    rw [ofJson_eq, noCircle, noBox, found]
    exact map_eq_ok.mpr ⟨_, Polygon.readMessageAs_eq_ok.mpr ⟨_, found, spelled⟩, rfl⟩
  | .areas noCircle noBox noPolygon found spelled => by
    rw [ofJson_eq, noCircle, noBox, noPolygon, found]
    exact bind_eq_ok.mpr ⟨_, Json.readList_eq_ok.mpr found,
      map_eq_ok.mpr ⟨_, ofJsonAll_of_spelledByAll spelled, rfl⟩⟩

theorem ofJsonAll_of_spelledByAll {members : List Area} {items : List Json} :
    SpelledByAll members items → ofJsonAll items = .ok members
  | .nil => by rw [ofJsonAll]
  | .cons head tail => by
    rw [ofJsonAll_cons]
    exact bind_eq_ok.mpr ⟨_, ofJson_of_spelledBy head,
      map_eq_ok.mpr ⟨_, ofJsonAll_of_spelledByAll tail, rfl⟩⟩

end

mutual

theorem spelledBy_of_ofJson {source : Json} {a : Area} (sized : source.wordSized)
    (read : ofJson source = .ok a) : SpelledBy a source := by
  rw [ofJson_eq] at read
  split at read
  · obtain ⟨c, readCircle, rfl⟩ := map_eq_ok.mp read
    obtain ⟨node, found, readNode⟩ := Circle.readMessageAs_eq_ok.mp readCircle
    have sizedNode := Json.wordSized_member? sized found
    exact .circle found (Circle.spelledBy_of_ofJson sizedNode readNode)
  rename_i noCircle
  rw [Option.not_isSome_iff_eq_none] at noCircle
  split at read
  · obtain ⟨r, readBox, rfl⟩ := map_eq_ok.mp read
    obtain ⟨node, found, spelled⟩ := Rectangle.readMessageAs_eq_ok.mp readBox
    exact .box noCircle found spelled
  rename_i noBox
  rw [Option.not_isSome_iff_eq_none] at noBox
  split at read
  · obtain ⟨g, readPolygon, rfl⟩ := map_eq_ok.mp read
    obtain ⟨node, found, spelled⟩ := Polygon.readMessageAs_eq_ok.mp readPolygon
    exact .polygon noCircle noBox found spelled
  rename_i noPolygon
  rw [Option.not_isSome_iff_eq_none] at noPolygon
  split at read
  · obtain ⟨items, readItems, read⟩ := bind_eq_ok.mp read
    obtain ⟨members, readAll, rfl⟩ := map_eq_ok.mp read
    have found := Json.readList_eq_ok.mp readItems
    have smaller := sizeOf_readList readItems
    have sizedItems : Json.itemsWordSized items := Json.wordSized_member? sized found
    exact .areas noCircle noBox noPolygon found (spelledByAll_of_ofJsonAll sizedItems readAll)
  · cases read
termination_by sizeOf source

theorem spelledByAll_of_ofJsonAll {items : List Json} {members : List Area}
    (sized : Json.itemsWordSized items) (read : ofJsonAll items = .ok members) :
    SpelledByAll members items := by
  cases items with
  | nil =>
    rw [ofJsonAll] at read
    cases read
    exact .nil
  | cons item rest =>
    rw [ofJsonAll_cons] at read
    rw [Json.itemsWordSized, Bool.and_eq_true] at sized
    obtain ⟨a, readItem, read⟩ := bind_eq_ok.mp read
    obtain ⟨others, readRest, rfl⟩ := map_eq_ok.mp read
    exact .cons (spelledBy_of_ofJson sized.1 readItem)
      (spelledByAll_of_ofJsonAll sized.2 readRest)
termination_by sizeOf items

end

mutual

theorem onlyDecodeFaults_ofJson (source : Json) : OnlyDecodeFaults (ofJson source) := by
  rw [ofJson_eq]
  repeat' split
  · exact .map _ (Json.onlyDecodeFaults_readMessageAs Circle.onlyDecodeFaults_ofJson source _)
  · exact .map _ (Json.onlyDecodeFaults_readMessageAs Rectangle.onlyDecodeFaults_ofJson source _)
  · exact .map _ (Json.onlyDecodeFaults_readMessageAs Polygon.onlyDecodeFaults_ofJson source _)
  · apply OnlyDecodeFaults.bind (Json.onlyDecodeFaults_readList source _)
    intro items read
    have smaller := sizeOf_readList read
    exact .map _ (onlyDecodeFaults_ofJsonAll items)
  · exact .decodeFault _
termination_by sizeOf source

theorem onlyDecodeFaults_ofJsonAll (items : List Json) : OnlyDecodeFaults (ofJsonAll items) := by
  cases items with
  | nil =>
    rw [ofJsonAll]
    exact .ok _
  | cons item rest =>
    rw [ofJsonAll_cons]
    apply OnlyDecodeFaults.bind (onlyDecodeFaults_ofJson item)
    intro a _
    exact .map _ (onlyDecodeFaults_ofJsonAll rest)
termination_by sizeOf items

end

/-- Of all JSON values exactly those that spell an area are read, each as the area that it spells,
and the refusal of every other one is a decode fault. The whole numbers of a JSON value are of 64
bits; codes of models wrap round to them. -/
theorem ofJson_reads_grammar (source : Json) (sized : source.wordSized) :
    (∀ a, ofJson source = .ok a ↔ SpelledBy a source) ∧
    ((¬ ∃ a, SpelledBy a source) → ∃ fault, ofJson source = .error (.decode fault)) := by
  constructor
  · intro a
    exact ⟨spelledBy_of_ofJson sized, ofJson_of_spelledBy⟩
  · intro unspelled
    cases read : ofJson source with
    | ok a => exact absurd ⟨a, spelledBy_of_ofJson sized read⟩ unspelled
    | error failure =>
      obtain ⟨fault, rfl⟩ := onlyDecodeFaults_ofJson source failure read
      exact ⟨fault, rfl⟩

/-- Numbers of both kinds, a geodesic circle beside an empty union, and a member that is passed over
and would not fit a signed word. -/
theorem ofJson_reads_grammar_at_union :
    let source : Json := .object
      [("areas", .array
        [.object [("circle", .object
          [("center", .object [("latitude", .int 55), ("longitude", .float 12.5)]),
            ("coordinateSystem", .int 1), ("radius", .int 300)])],
          .object [("areas", .array [])]]),
        ("note", .int (2 ^ 64 - 1))]
    let a : Area := .union
      [.shape (.circle
        ⟨⟨Binary64.ofInt 55, 12.5, by decide +kernel, by decide +kernel⟩, Binary64.ofInt 300,
          .geodesic, by decide +kernel⟩),
        .union []]
    source.wordSized ∧ ofJson source = .ok a := by
  intro source a
  have sized : source.wordSized := by decide
  have spelled : SpelledBy a source := by
    refine .areas rfl rfl rfl rfl (.cons (.circle rfl ⟨⟨_, rfl, ⟨rfl, rfl⟩⟩, rfl, .geodesic⟩) ?_)
    exact .cons (.areas rfl rfl rfl rfl .nil) .nil
  exact ⟨sized, ((ofJson_reads_grammar source sized).1 a).mpr spelled⟩

end Area
end VesselRelay
