import EntityStore.Proofs.Json.Record
import EntityStore.Config
import EntityStore.Store.Operation
import EntityStore.Store.Stat

/-! Round trips through JSON. A value may be spelled in several ways, and fields may be left out;
what is written has one spelling, and it is read as the value that was written
(`json_round_trips`). Only a field that may be left out cannot hold `null`: it would be read as if
it were not there. -/

namespace EntityStore

variable {β : Type}

/-- Whatever a value is read as, it is written so that it is read as the same again. -/
def RoundTrips (decode : Json → Option β) (encode : β → Json) : Prop :=
  ∀ j x, decode j = some x → decode (encode x) = some x

theorem ReadsBack.roundTrips {decode : Json → Option β} {encode : β → Json}
    (h : ReadsBack decode encode) : RoundTrips decode encode := fun _ x _ => h x

theorem Json.nat?_ofNat (n : Nat) : nat? (ofNat n) = some n := by
  have hn : (0 : Int) ≤ n := Int.natCast_nonneg n
  rw [ofNat, nat?, if_pos hn, Int.toNat_natCast]

/-! ## Records with all their fields -/

theorem Stat.readsBack : ReadsBack ofJson? toJson := by
  intro s
  have hrecord : s.toJson.record? fieldNames = some _ :=
    Json.record?_obj (by decide) (List.Sublist.refl _)
  simp [ofJson?, hrecord, Fields.required?, Fields.get?_cons, Json.nat?_ofNat]

theorem Severity.readsBack : ReadsBack (fun j => ofDocument? (.ofJson j)) toJson := ofName?_name

theorem Config.readsBack : ReadsBack ofJson? toJson := by
  rintro ⟨severity, eager, obscure⟩
  cases severity <;> rfl

/-! ## Schemas -/

theorem Document.toJson?_ofJson_texts (texts : List String) :
    toJson? (ofJson (.arr (texts.map .str))) = some (.arr (texts.map .str)) := by
  have hitems : toJsonItems? (ofJsonItems (texts.map .str)) = some (texts.map .str) := by
    induction texts with
    | nil => rfl
    | cons text rest ih =>
      rw [List.map_cons, ofJsonItems, toJsonItems?, ih]
      rfl
  rw [ofJson, toJson?, hitems]
  rfl

theorem Document.depth_ofJson_texts (texts : List String) :
    depth (ofJson (.arr (texts.map .str))) = 1 := by
  have hitems : depthItems (ofJsonItems (texts.map .str)) = 0 := by
    induction texts with
    | nil => rfl
    | cons text rest ih =>
      rw [List.map_cons, ofJsonItems, depthItems, ih]
      rfl
  rw [ofJson, depth, hitems]

theorem Document.listOf?_texts (texts : List String) :
    listOf? str? (ofJson (.arr (texts.map .str))) = some texts := readsBack_str.list texts

theorem Attribute.readsBack : ReadsBack (fun j => ofDocument? (.ofJson j)) toJson := by
  rintro ⟨type, required⟩
  cases type with
  | entity targets =>
    -- The fields of the type are kept back until its tag is known: they have to be plain JSON.
    have hguard : (guard ((((Document.ofJson (.arr (targets.map .str))).toJson?.isSome &&
        decide ((Document.ofJson (.arr (targets.map .str))).depth + definitionDepth ≤
          Document.depthLimit)) && true) = true) : Option Unit) = some () := by
      rw [Document.toJson?_ofJson_texts, Document.depth_ofJson_texts]
      rfl
    have hfields : ofDocument? (.ofJson (toJson ⟨.entity targets, required⟩)) =
        (guard ((((Document.ofJson (.arr (targets.map .str))).toJson?.isSome &&
          decide ((Document.ofJson (.arr (targets.map .str))).depth + definitionDepth ≤
            Document.depthLimit)) && true) = true) : Option Unit).bind fun _ =>
              ((Document.listOf? Document.str? (.ofJson (.arr (targets.map .str)))).bind
                fun targets => some (AttributeType.entity targets)).bind fun type =>
                  some { type, required } := rfl
    dsimp only
    rw [hfields, hguard, Document.listOf?_texts]
    rfl
  | ref target => rfl
  | string | int | float | bool | object | array => rfl

theorem Index.readsBack : ReadsBack (fun j => ofDocument? (.ofJson j)) toJson := by
  intro i
  have hfields : ofDocument? (.ofJson i.toJson) =
      (Document.listOf? Document.str? (.ofJson (.arr (i.attributes.map .str)))).bind
        fun attributes => some { i with attributes } := rfl
  dsimp only
  rw [hfields, Document.listOf?_texts]
  rfl

theorem Entity.readsBack : ReadsBack (fun j => ofDocument? (.ofJson j)) toJson := by
  intro e
  have hattributes : NameMap.ofDocument? Attribute.ofDocument?
      (.ofJson (e.attributes.toJson Attribute.toJson)) = some e.attributes :=
    Attribute.readsBack.names e.attributes
  have hindexes : Document.listOf? Index.ofDocument?
      (.ofJson (.arr (e.indexes.map Index.toJson))) = some e.indexes :=
    Index.readsBack.list e.indexes
  have hfields : ofDocument? (.ofJson e.toJson) =
      (NameMap.ofDocument? Attribute.ofDocument?
        (.ofJson (e.attributes.toJson Attribute.toJson))).bind fun attributes =>
          (Document.listOf? Index.ofDocument?
            (.ofJson (.arr (e.indexes.map Index.toJson)))).bind fun indexes =>
              some { attributes, indexes } := rfl
  dsimp only
  rw [hfields, hattributes, hindexes]
  rfl

theorem Schema.readsBack : ReadsBack ofJson? toJson := by
  intro s
  have hentities : NameMap.ofDocument? Entity.ofDocument?
      (.ofJson (s.entities.toJson Entity.toJson)) = some s.entities :=
    Entity.readsBack.names s.entities
  have hfields : ofJson? s.toJson = (NameMap.ofDocument? Entity.ofDocument?
      (.ofJson (s.entities.toJson Entity.toJson))).bind fun entities => some { entities } := rfl
  rw [hfields, hentities]
  rfl

/-! ## Operations and selections -/

theorem Action.ofName_name (text : String) : ofName (ofName text).name = ofName text := by
  unfold ofName
  split
  · rfl
  split
  · rfl
  split
  · rfl
  · rename_i hcreate hupdate hremove
    simp only [name, hcreate, hupdate, hremove, if_false]

theorem Action.roundTrips : RoundTrips ofJson? toJson := by
  intro j a h
  obtain ⟨text, -, rfl⟩ := Option.map_eq_some_iff.mp h
  exact congrArg some (ofName_name text)

namespace Selection

theorem names_optionalField (name : String) (value : Option Json) :
    ((optionalField name value).map (·.1)).Sublist [name] := by
  cases value with
  | none => exact List.nil_sublist _
  | some v => exact List.Sublist.refl _

theorem get?_optionalField (name : String) (value : Option Json) (other : String) :
    Fields.get? (optionalField name value) other = if other = name then value else none := by
  cases value with
  | none => exact (ite_self none).symm
  | some v => exact Fields.get?_cons name v [] other

end Selection

theorem Json.nullable?_of_ne_null {decode : Json → Option β} {v : Json} (h : v ≠ .null) :
    nullable? decode v = (decode v).map some := by
  cases v with
  | null => exact absurd rfl h
  | bool _ | num _ | str _ | arr _ | obj _ => rfl

/-- A field that may be left out is read back if its value is, and is not `null`. -/
theorem Fields.optional?_nullable {fields : Fields Json} {name : String} {value : Option β}
    {decode : Json → Option β} {encode : β → Json} (hget : get? fields name = value.map encode)
    (h : ∀ x, value = some x → encode x ≠ .null ∧ decode (encode x) = some x) :
    fields.optional? name none (Json.nullable? decode) = some value := by
  rw [optional?, hget]
  cases value with
  | none => rfl
  | some x =>
    obtain ⟨hne, hx⟩ := h x rfl
    rw [Option.map_some]
    dsimp only
    rw [Json.nullable?_of_ne_null hne, hx]
    rfl

/-- What is read of a value that may be `null` is never `null` itself. -/
theorem Fields.ne_null_of_optional? {fields : Fields Json} {name : String} {value : Option Json}
    (h : fields.optional? name none (Json.nullable? some) = some value) : value ≠ some .null := by
  rintro rfl
  unfold optional? at h
  split at h
  · rename_i v hv
    cases v <;> cases h
  · cases h

namespace Selection

/-- A selection is read back unless its filter or its sorter is `null`. -/
theorem ofJson?_toJson {s : Selection} (hfilter : s.filter ≠ some .null)
    (hsorter : s.sorter ≠ some .null) : ofJson? s.toJson = some s := by
  let fields := [("data", .obj s.data)] ++ optionalField "filter" s.filter ++
    optionalField "sorter" s.sorter ++ optionalField "indexFrom" (s.indexFrom.map .ofNat) ++
    optionalField "count" (s.count.map .ofNat)
  have hnames : (fields.map (·.1)).Sublist fieldNames := by
    simp only [fields, List.map_append]
    exact ((((List.Sublist.refl ["data"]).append (names_optionalField "filter" _)).append
      (names_optionalField "sorter" _)).append (names_optionalField "indexFrom" _)).append
        (names_optionalField "count" _)
  have hrecord : s.toJson.record? fieldNames = some fields := Json.record?_obj (by decide) hnames
  have hget (name : String) : Fields.get? fields name =
      ((((if name = "data" then some (.obj s.data) else none).or
        (if name = "filter" then s.filter else none)).or
        (if name = "sorter" then s.sorter else none)).or
        (if name = "indexFrom" then s.indexFrom.map .ofNat else none)).or
        (if name = "count" then s.count.map .ofNat else none) := by
    simp only [fields, Fields.get?_append, get?_optionalField, Fields.get?_cons, Fields.get?_nil]
  have hdata : Fields.optional? fields "data" [] Json.obj? = some s.data := by
    rw [Fields.optional?, hget]
    rfl
  have hfilterAt : Fields.get? fields "filter" = s.filter.map id := by simp [hget]
  have hsorterAt : Fields.get? fields "sorter" = s.sorter.map id := by simp [hget]
  have hfromAt : Fields.get? fields "indexFrom" = s.indexFrom.map .ofNat := by simp [hget]
  have hcountAt : Fields.get? fields "count" = s.count.map .ofNat := by simp [hget]
  have hnat (value : Option Nat) (n : Nat) (_ : value = some n) :
      Json.ofNat n ≠ .null ∧ Json.nat? (.ofNat n) = some n := ⟨nofun, Json.nat?_ofNat n⟩
  rw [ofJson?, hrecord]
  simp only [Option.bind_eq_bind, Option.bind_some, hdata,
    Fields.optional?_nullable hfilterAt fun v hv => ⟨fun hnull => hfilter (hnull ▸ hv), rfl⟩,
    Fields.optional?_nullable hsorterAt fun v hv => ⟨fun hnull => hsorter (hnull ▸ hv), rfl⟩,
    Fields.optional?_nullable hfromAt (hnat _), Fields.optional?_nullable hcountAt (hnat _)]
  rfl

theorem roundTrips : RoundTrips ofJson? toJson := by
  intro j s h
  simp only [ofJson?, Option.bind_eq_bind, Option.bind_eq_some_iff] at h
  obtain ⟨fields, -, data, -, filter, hfilter, sorter, hsorter, from?, -, count, -, hs⟩ := h
  cases hs
  exact ofJson?_toJson (Fields.ne_null_of_optional? hfilter) (Fields.ne_null_of_optional? hsorter)

end Selection

namespace Operation

/-- An operation is read back unless its filter is `null` or its action has the name of another. -/
theorem ofJson?_toJson {o : Operation} (haction : Action.ofName o.action.name = o.action)
    (hfilter : o.filter ≠ some .null) : ofJson? o.toJson = some o := by
  let fields := [("action", o.action.toJson), ("data", o.data)] ++
    Selection.optionalField "filter" o.filter
  have hnames : (fields.map (·.1)).Sublist fieldNames := by
    simp only [fields, List.map_append]
    exact (List.Sublist.refl ["action", "data"]).append (Selection.names_optionalField "filter" _)
  have hrecord : o.toJson.record? fieldNames = some fields := Json.record?_obj (by decide) hnames
  have hget (name : String) : Fields.get? fields name =
      (if name = "action" then some o.action.toJson else if name = "data" then some o.data
        else none).or (if name = "filter" then o.filter else none) := by
    simp only [fields, Fields.get?_append, Selection.get?_optionalField, Fields.get?_cons,
      Fields.get?_nil]
  have hactionAt : Fields.required? fields "action" Action.ofJson? = some o.action := by
    rw [Fields.required?, hget]
    exact congrArg some haction
  have hdata : Fields.optional? fields "data" .null some = some o.data := by
    rw [Fields.optional?, hget]
    rfl
  have hfilterAt : Fields.get? fields "filter" = o.filter.map id := by simp [hget]
  rw [ofJson?, hrecord]
  simp only [Option.bind_eq_bind, Option.bind_some, hactionAt, hdata,
    Fields.optional?_nullable hfilterAt fun v hv => ⟨fun hnull => hfilter (hnull ▸ hv), rfl⟩]
  rfl

theorem roundTrips : RoundTrips ofJson? toJson := by
  intro j o h
  simp only [ofJson?, Option.bind_eq_bind, Option.bind_eq_some_iff] at h
  obtain ⟨fields, -, action, haction, data, -, filter, hfilter, ho⟩ := h
  cases ho
  obtain ⟨v, -, haction⟩ := Option.bind_eq_some_iff.mp haction
  obtain ⟨text, -, rfl⟩ := Option.map_eq_some_iff.mp haction
  exact ofJson?_toJson (Action.ofName_name text) (Fields.ne_null_of_optional? hfilter)

end Operation

namespace SyncRecord

theorem filter?_of_written {fields : Fields Json} {filter : Option Json}
    (hget : Fields.get? fields "filter" = some (filterToJson filter)) (h : filter ≠ some .null) :
    filter? fields = some filter := by
  rw [filter?, Fields.optional?, hget]
  cases filter with
  | none => rfl
  | some v => exact Json.nullable?_of_ne_null fun hv => h (hv ▸ rfl)

theorem update_readsBack {filter : Option Json} (h : filter ≠ some .null) (entity : String)
    (data : Json) :
    ofJson? (update entity data filter).toJson = some (update entity data filter) := by
  have hfields : ofJson? (update entity data filter).toJson =
      (filter? [("entity", .str entity), ("data", data), ("filter", filterToJson filter)]).bind
        fun filter => some (update entity data filter) := rfl
  rw [hfields, filter?_of_written rfl h]
  rfl

theorem remove_readsBack {filter : Option Json} (h : filter ≠ some .null) (entity : String) :
    ofJson? (remove entity filter).toJson = some (remove entity filter) := by
  have hfields : ofJson? (remove entity filter).toJson =
      (filter? [("entity", .str entity), ("filter", filterToJson filter)]).bind
        fun filter => some (remove entity filter) := rfl
  rw [hfields, filter?_of_written rfl h]
  rfl

theorem snapshot_readsBack (rows : NameMap (NameMap Row)) :
    ofJson? (snapshot rows).toJson = some (snapshot rows) := by
  have hrow : ReadsBack Json.obj? Json.obj := fun _ => rfl
  have hfields : ofJson? (snapshot rows).toJson =
      (mapOf? (mapOf? Json.obj?) (.obj (rows.toList.map fun entry =>
        (entry.1, .obj (entry.2.toList.map fun entry => (entry.1, .obj entry.2)))))).bind
          fun rows => some (snapshot rows) := rfl
  have hrows : mapOf? (mapOf? Json.obj?) (.obj (rows.toList.map fun entry =>
      (entry.1, .obj (entry.2.toList.map fun entry => (entry.1, .obj entry.2))))) = some rows :=
    hrow.map.map rows
  rw [hfields, hrows]
  rfl

theorem roundTrips : RoundTrips ofJson? toJson := by
  intro j r h
  obtain ⟨⟨tag, body⟩, -, h⟩ := Option.bind_eq_some_iff.mp h
  dsimp only at h
  split at h
  · simp only [Option.bind_eq_bind, Option.bind_eq_some_iff] at h
    obtain ⟨fields, -, entity, -, data, -, hr⟩ := h
    cases hr
    rfl
  split at h
  · simp only [Option.bind_eq_bind, Option.bind_eq_some_iff] at h
    obtain ⟨fields, -, entity, -, data, -, filter, hfilter, hr⟩ := h
    cases hr
    exact update_readsBack (Fields.ne_null_of_optional? hfilter) entity data
  split at h
  · simp only [Option.bind_eq_bind, Option.bind_eq_some_iff] at h
    obtain ⟨fields, -, entity, -, filter, hfilter, hr⟩ := h
    cases hr
    exact remove_readsBack (Fields.ne_null_of_optional? hfilter) entity
  split at h
  · simp only [Option.bind_eq_bind, Option.bind_eq_some_iff] at h
    obtain ⟨fields, -, rows, -, hr⟩ := h
    cases hr
    exact snapshot_readsBack rows
  · cases h

end SyncRecord

/-- Every type with a form in JSON is written so that what was read is read again, in whatever way
it was spelled at first. -/
theorem json_round_trips :
    RoundTrips Selection.ofJson? Selection.toJson ∧
      RoundTrips Operation.ofJson? Operation.toJson ∧
      RoundTrips SyncRecord.ofJson? SyncRecord.toJson ∧
      RoundTrips Action.ofJson? Action.toJson ∧
      RoundTrips (fun j => Severity.ofDocument? (.ofJson j)) Severity.toJson ∧
      RoundTrips Config.ofJson? Config.toJson ∧
      RoundTrips Stat.ofJson? Stat.toJson ∧
      RoundTrips Schema.ofJson? Schema.toJson :=
  ⟨Selection.roundTrips, Operation.roundTrips, SyncRecord.roundTrips, Action.roundTrips,
    Severity.readsBack.roundTrips, Config.readsBack.roundTrips, Stat.readsBack.roundTrips,
    Schema.readsBack.roundTrips⟩

/-- A selection as an array with a filter that is `null`, an operation with a name of its own, a
record with its action in the middle and no filter, a severity as an object, a configuration as an
array without its last field, statistics with their fields in another order, and a reference whose
type is given by a number. -/
theorem json_round_trips_spellings :
    let selection : Selection := { data := [("id", .bool true)], sorter := some (.str "name") }
    let operation : Operation := { action := .custom "archive", data := .null }
    let record : SyncRecord := .update "note" (.obj [("done", .bool true)]) none
    let config : Config := { logSeverity := .fatal, eagerSubqueries := false }
    let stat : Stat := { create := 3, update := 0, remove := 1, commit := 2 }
    let owner : Attribute := { type := .ref "user", required := true }
    let note : Entity := { attributes := Std.ExtTreeMap.ofList [("owner", owner)] compare }
    let schema : Schema := { entities := Std.ExtTreeMap.ofList [("note", note)] compare }
    let items : Json := .arr [.obj [("id", .bool true)], .null, .str "name"]
    let archive : Json := .obj [("filter", .null), ("by", .str "ann"), ("action", .str "archive")]
    let update : Json := .obj [("data", .obj [("done", .bool true)]), ("action", .str "update"),
      ("by", .str "ann"), ("entity", .str "note")]
    let fatal : Json := .obj [("fatal", .null)]
    let settings : Json := .arr [fatal, .bool false]
    let counts : Json := .obj [("remove", .ofNat 1), ("commit", .ofNat 2), ("create", .ofNat 3),
      ("update", .ofNat 0)]
    let pointer : Json := .obj
      [("required", .bool true), ("target", .str "user"), ("type", .ofNat 6)]
    let document : Json := .arr [.obj [("note", .arr [.obj [("owner", pointer)]])]]
    (Selection.ofJson? items = some selection ∧
        Selection.ofJson? selection.toJson = some selection) ∧
      (Operation.ofJson? archive = some operation ∧
        Operation.ofJson? operation.toJson = some operation) ∧
      (SyncRecord.ofJson? update = some record ∧
        SyncRecord.ofJson? record.toJson = some record) ∧
      (Action.ofJson? (.str "archive") = some (.custom "archive") ∧
        Action.ofJson? (Action.custom "archive").toJson = some (.custom "archive")) ∧
      (Severity.ofDocument? (.ofJson fatal) = some .fatal ∧
        Severity.ofDocument? (.ofJson Severity.fatal.toJson) = some .fatal) ∧
      (Config.ofJson? settings = some config ∧ Config.ofJson? config.toJson = some config) ∧
      (Stat.ofJson? counts = some stat ∧ Stat.ofJson? stat.toJson = some stat) ∧
      (Schema.ofJson? document = some schema ∧ Schema.ofJson? schema.toJson = some schema) := by
  intro selection operation record config stat owner note schema items archive update fatal settings
    counts pointer document
  obtain ⟨hselection, hoperation, hrecord, haction, hseverity, hconfig, hstat, hschema⟩ :=
    json_round_trips
  exact ⟨⟨rfl, hselection items _ rfl⟩, ⟨rfl, hoperation archive _ rfl⟩,
    ⟨rfl, hrecord update _ rfl⟩, ⟨rfl, haction (.str "archive") _ rfl⟩,
    ⟨rfl, hseverity fatal .fatal rfl⟩, ⟨rfl, hconfig settings _ rfl⟩, ⟨rfl, hstat counts _ rfl⟩,
    ⟨rfl, hschema document _ rfl⟩⟩

end EntityStore
