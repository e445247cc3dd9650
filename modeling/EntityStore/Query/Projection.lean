import EntityStore.Query.Sort
import EntityStore.Query.Filter.Compile
import EntityStore.Query.Expression.Evaluate

/-! The parts of a projection. A key of a projection is an expression, a column, a pointer with a
projection for the row it leads to, or a back-reference with a selection for the rows that point
back. Which of them it is follows from the schema; its faults are reported when a row is
projected. -/

namespace EntityStore

/-- What a key of a projection asks for. -/
inductive Projected where
  | expr (e : Expression)
  | column
  /-- The row that a pointer leads to, in its own projection. -/
  | pointer (p : Pointer) (nested : List (String × Json))
  /-- The rows of `target` that point back. -/
  | children (target : String) (backPointer : Option String) (selection : Selection)

/-- An expression that waits for a label, and where its value belongs. -/
structure PendingField where
  /-- The names that lead to the object with the field. -/
  path : List String
  name : String
  expr : Expression

namespace Projected

/-- Classifies a key of a projection. -/
def ofField (schema : Schema) (entity key : String) (spec : Json) : Except QueryError Projected :=
  if Expression.isKey key then (Expression.parse spec).map .expr
  else
    match QueryError.ofSchema (schema.relation entity key) with
    | .error e => .error e
    | .ok .column => .ok .column
    | .ok (.toMany target back) => (Selection.decode spec).map (.children target back)
    | .ok (.pointer p) =>
      match spec with
      | .obj nested => .ok (.pointer p nested)
      | _ => .error (.invalid (.projectionNotObject key))

/-- The columns that keep a pointer. -/
def pointerColumns : Pointer → List String
  | .polymorphic _ => [entityColumn, entityIdColumn]
  | .foreignKey _ name => [name]

/-- Copies the columns that a row has. -/
def copyColumns (columns : List String) (row out : Row) : Row :=
  columns.foldl (fun out name =>
    match Fields.get? row name with
    | some value => Fields.insert out name value
    | none => out) out

/-- The filter that finds the rows pointing back at a row with an id. -/
def backReference (entity : String) (id : Json) : Option String → Json
  | some attr => .obj [(foreignKeyColumn attr, id)]
  | none => .obj [(entityColumn, .str entity), (entityIdColumn, id)]

/-- The selection of the rows pointing back, which also have to pass its own filter. -/
def selectionOf (entity : String) (id : Json) (back : Option String) (s : Selection) : Selection :=
  let reference := backReference entity id back
  { s with filter := some (match s.filter with
      | some filter => .obj [("$and", .arr [reference, filter])]
      | none => reference) }

/-- The row with a value put under a name, in the object that the path leads to. A path that leads
to no object changes nothing. -/
def writeAt (name : String) (value : Json) : List String → Row → Row
  | [], row => Fields.insert row name value
  | step :: path, row =>
    match Fields.get? row step with
    | some (.obj inner) => Fields.insert row step (.obj (writeAt name value path inner))
    | _ => row

theorem nestingFields_lt_of_children {schema : Schema} {entity key target : String} {spec : Json}
    {back : Option String} {s : Selection} (rest : List (String × Json))
    (h : ofField schema entity key spec = .ok (.children target back s)) :
    Json.nestingFields s.data < Json.nestingFields ((key, spec) :: rest) := by
  unfold ofField at h
  split at h
  · cases hp : Expression.parse spec <;> simp [hp, Except.map] at h
  · rename_i hk
    split at h
    · simp at h
    · simp at h
    · rename_i hr
      have hb := Schema.splitBackReference?_of_toMany (QueryError.of_ofSchema hr)
      have hs : Selection.ofJson? spec = some s := by
        unfold Selection.decode at h
        cases hd : Selection.ofJson? spec with
        | none => simp [hd, Except.map] at h
        | some s' => simp [hd, Except.map] at h; rw [h.2.2]
      have hle := Selection.nestingFields_data_le hs
      have hlt := Json.nestingFields_lt_of_mem (by simpa using hk) hb
        (List.mem_cons_self (a := (key, spec)) (l := rest))
      omega
    · split at h <;> simp at h

theorem eq_obj_of_pointer {schema : Schema} {entity key : String} {spec : Json} {p : Pointer}
    {nested : List (String × Json)} (h : ofField schema entity key spec = .ok (.pointer p nested)) :
    spec = .obj nested := by
  unfold ofField at h
  split at h
  · cases hp : Expression.parse spec <;> simp [hp, Except.map] at h
  · split at h
    · simp at h
    · simp at h
    · cases hd : Selection.decode spec <;> simp [hd, Except.map] at h
    · split at h
      · simp at h; rw [h.2]
      · simp at h

theorem nestingFields_le_of_pointer {schema : Schema} {entity key : String} {spec : Json}
    {p : Pointer} {nested : List (String × Json)} (rest : List (String × Json))
    (h : ofField schema entity key spec = .ok (.pointer p nested)) :
    Json.nestingFields nested ≤ Json.nestingFields ((key, spec) :: rest) := by
  have hs := eq_obj_of_pointer h
  subst hs
  unfold ofField at h
  split at h
  · cases hp : Expression.parse (.obj nested) <;> simp [hp, Except.map] at h
  · rename_i hk
    rw [Json.nestingFields_cons, Json.nestingField, if_neg hk, Json.nesting]
    split <;> omega

end Projected

end EntityStore
