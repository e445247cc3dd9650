import EntityStore.Query.Projection
import EntityStore.Query.Monad

/-! Selects: scan, filter, project, sort, page.

A projection follows pointers to nested rows, and a back-reference in it is a select of its own,
with the bindings of the row above. The recursion descends in the one-to-many nesting of the
projection and, within one nesting, in its size; rows do not take part, so cycles among them do no
harm. -/

namespace EntityStore

/-- What is known while one row is projected. -/
structure Forming where
  bindings : Bindings
  /-- The expressions that wait for a label, in order. -/
  pending : List PendingField := []

/-- The projection of one row. -/
abbrev Form := StateT Forming Query

namespace Form

/-- Binds a label to the row at hand. -/
def bind (label : String) (row : Row) : Form Unit := do
  let bindings ← Query.ofExcept ((← get).bindings.bind label row)
  modify fun s => { s with bindings }

/-- Leaves an expression for the end of the row. -/
def defer (field : PendingField) : Form Unit :=
  modify fun s => { s with pending := s.pending ++ [field] }

end Form

namespace View

/-- The rows of an entity that pass the filter of a selection, counted as they are scanned. -/
def matching (v : View) (entity : String) (s : Selection) (option : SelectOption) :
    Query (List Row) := do
  let _ ← Query.ofExcept (QueryError.ofSchema (v.schema.entity entity))
  let rows := v.scan entity
  let matched ← match s.filter with
    | none => pure rows
    | some document => do
      let filter ← Query.ofExcept (Filter.compile v.schema entity option.obscure [] document)
      Query.matching v filter option.bindings rows
  Query.count fun m => { m with scanned := m.scanned + rows.length }
  return matched

/-- Counts a select that succeeded, and logs it if everything is logged. -/
def finishSelect (v : View) (entity : String) (matched returned : Nat) : Query Unit := do
  Query.count fun m => { m with selects := m.selects + 1 }
  if v.logSeverity = .trace then
    Query.log (Log.report v.logSeverity .selectComplete
      [("entity", entity), ("scanned", natText (v.scan entity).length),
        ("matched", natText matched), ("returned", natText returned)])

/-- The sort plan of a selection, if it has a sorter, and the projection with the hoisted keys. -/
def hoist (v : View) (entity : String) (s : Selection) :
    Except QueryError (Option SortPlan) × Fields Json :=
  match s.sorter with
  | none => (.ok none, s.data)
  | some sorter =>
    let compiled := SortPlan.compile v.schema entity sorter s.data
    (compiled.1.map some, compiled.2)

theorem nestingFields_hoist_le (v : View) (entity : String) (s : Selection) :
    Json.nestingFields (v.hoist entity s).2 ≤ Json.nestingFields s.data := by
  unfold hoist
  split
  · exact Nat.le_refl _
  · exact SortPlan.nestingFields_compile_le ..

/-- Evaluates the expressions that waited, in order, and writes their values into the row. -/
def settle (forming : Forming) (out : Row) : Except QueryError Row :=
  forming.pending.foldlM (fun out field => do
    let value ← field.expr.resolve forming.bindings
    return Projected.writeAt field.name value field.path out) out

/-- A step to a part of a projection nests no deeper and is smaller. -/
theorem descends {a b c d : Nat} (h : a ≤ b) (h' : c < d) :
    Prod.Lex (· < ·) (Prod.Lex (· < ·) (· < ·)) (a, 0, c) (b, 0, d) := by
  rcases Nat.lt_or_eq_of_le h with h | rfl
  · exact .left _ _ h
  · exact .right _ (.right _ h')

theorem descends_tail (entry : String × Json) (rest : List (String × Json)) :
    Prod.Lex (· < ·) (Prod.Lex (· < ·) (· < ·)) (Json.nestingFields rest, 0, sizeOf rest)
      (Json.nestingFields (entry :: rest), 0, sizeOf (entry :: rest)) :=
  descends (Json.nestingFields_tail_le ..) (by simp only [List.cons.sizeOf_spec]; omega)

mutual

/-- Reads the rows of an entity. -/
def select (v : View) (entity : String) (s : Selection) (option : SelectOption) :
    Query (List Row) := do
  let matched ← v.matching entity s option
  let rows ← form v entity matched s option
  finishSelect v entity matched.length rows.length
  return rows
termination_by (Json.nestingFields s.data, 2, 0)

/-- Projects, sorts and pages given rows of an entity. -/
def form (v : View) (entity : String) (rows : List Row) (s : Selection) (option : SelectOption) :
    Query (List Row) := do
  let hoisted := v.hoist entity s
  let plan ← Query.ofExcept hoisted.1
  let projected ← rows.mapM fun row => do
    let (out, forming) ← (project v entity option.obscure [] hoisted.2 row).run
      { bindings := option.bindings }
    Query.ofExcept (settle forming out)
  let sorted := match plan with
    | some plan => plan.sort v rows projected
    | none => projected
  return s.page sorted
termination_by (Json.nestingFields s.data, 1, 0)
decreasing_by
  have := nestingFields_hoist_le v entity s
  simp only [Prod.lex_def]
  omega

/-- Projects a row; `path` leads to the place of the result in the row that is formed. The label is
bound before anything else. -/
def project (v : View) (entity : String) (obscure : Bool) (path : List String)
    (projection : List (String × Json)) (row : Row) : Form Row := do
  if let some label ← Query.ofExcept (Filter.label? projection) then Form.bind label row
  projectFields v entity obscure path projection [] row
termination_by (Json.nestingFields projection, 0, sizeOf projection + 1)

/-- Projects the keys of a projection one by one. -/
def projectFields (v : View) (entity : String) (obscure : Bool) (path : List String)
    (projection : List (String × Json)) (out row : Row) : Form Row :=
  match projection with
  | [] => return out
  | (key, spec) :: rest =>
    if key = "#id" then projectFields v entity obscure path rest out row
    else
      match _h : Projected.ofField v.schema entity key spec with
      | .error e => throw e
      | .ok (.expr e) => do
        let out ← match e.evaluate (some row) (← get).bindings with
          | .resolved value => pure (Fields.insert out key value)
          | .pending e => do Form.defer ⟨path, key, e⟩; pure out
        projectFields v entity obscure path rest out row
      | .ok .column =>
        projectFields v entity obscure path rest (Projected.copyColumns [key] row out) row
      | .ok (.children target back selection) => do
        let children ← match Fields.get? row "id" with
          | none => pure []
          | some id =>
            select v target (Projected.selectionOf entity id back selection)
              { obscure, bindings := (← get).bindings }
        projectFields v entity obscure path rest
          (Fields.insert out key (.arr (children.map .obj))) row
      | .ok (.pointer p nested) => do
        let columns := Projected.pointerColumns p
        let kept := Projected.copyColumns columns row out
        let out ← match v.follow p row, p with
          | .found target, _ => do
            let value ← project v p.target obscure (path ++ [key]) nested target
            pure (Fields.insert kept key (.obj value))
          | .unset, .polymorphic _ | .elsewhere, .polymorphic _ => pure out
          | _, _ => pure (Fields.insert kept key .null)
        projectFields v entity obscure path rest out row
termination_by (Json.nestingFields projection, 0, sizeOf projection)
decreasing_by
  · exact descends_tail ..
  · exact descends_tail ..
  · exact descends_tail ..
  · exact descends_tail ..
  · have hlt := Projected.nestingFields_lt_of_children rest _h
    exact .left _ _ hlt
  · exact descends_tail ..
  · have hle := Projected.nestingFields_le_of_pointer rest _h
    cases Projected.eq_obj_of_pointer _h
    exact descends hle (by
      simp only [List.cons.sizeOf_spec, Prod.mk.sizeOf_spec, Json.obj.sizeOf_spec]; omega)

end

end View

end EntityStore
