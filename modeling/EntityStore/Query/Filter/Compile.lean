import EntityStore.Query.Filter.Basic

/-! Compilation of filters. A filter is checked against the schema before a row is looked at; the
keys of an object are compiled in their order, and the first fault is reported. -/

namespace EntityStore

namespace Comparison

/-- Every comparison. -/
def all : List Comparison := [eq, ne, gt, gte, lt, lte]

/-- The key of the comparison in a filter. -/
def name : Comparison → String
  | eq => "$eq"
  | ne => "$ne"
  | gt => "$gt"
  | gte => "$gte"
  | lt => "$lt"
  | lte => "$lte"

/-- The comparison with a key. -/
def ofName? (name : String) : Option Comparison := all.find? (·.name = name)

end Comparison

namespace Filter

mutual

/-- The labels that a filter document binds. -/
def labelsBound : Json → List String
  | .obj fields => labelsBoundFields fields
  | .arr items => labelsBoundItems items
  | _ => []

/-- The labels that the items of an array bind. -/
def labelsBoundItems : List Json → List String
  | [] => []
  | x :: xs => labelsBound x ++ labelsBoundItems xs

/-- The labels that the fields of an object bind. -/
def labelsBoundFields : List (String × Json) → List String
  | [] => []
  | ("#id", .str label) :: rest => label :: labelsBoundFields rest
  | (_, v) :: rest => labelsBound v ++ labelsBoundFields rest

end

mutual

/-- The labels that a filter document reads. -/
def labelsRead : Json → List String
  | .obj fields => labelsReadFields fields
  | .arr items => labelsReadItems items
  | _ => []

/-- The labels that the items of an array read. -/
def labelsReadItems : List Json → List String
  | [] => []
  | x :: xs => labelsRead x ++ labelsReadItems xs

/-- The labels that the fields of an object read. -/
def labelsReadFields : List (String × Json) → List String
  | [] => []
  | ("#refId", .str label) :: rest => label :: labelsReadFields rest
  | (_, v) :: rest => labelsRead v ++ labelsReadFields rest

end

/-- Whether a filter document reads a label that it does not bind itself. -/
def isCorrelated (document : Json) : Bool :=
  let bound := labelsBound document
  (labelsRead document).any fun label => label ∉ bound

/-- The label of a filter or projection object. -/
def label? (fields : List (String × Json)) : Except QueryError (Option String) :=
  match Fields.get? fields "#id" with
  | none => .ok none
  | some (.str label) => .ok (some label)
  | some _ => .error (.invalid .labelNotString)

/-- The fault of a subquery, placed under the operator it belongs to. -/
def subqueryError (name attr : String) : QueryError → QueryError
  | .invalid fault => .invalid (.subquery name attr fault)
  | e => e

/-- The text search that a value asks for. -/
def searchText (value : Json) : Except QueryError String :=
  match (value.field? "$search").bind Json.str? with
  | some search => .ok search
  | none => .error (.invalid .textSearch)

/-- The entity and the column that a subquery reads. -/
def subqueryColumn (schema : Schema) (fields : List (String × Json)) :
    Except QueryError (String × String) := do
  let some entity := (Fields.get? fields "entity").bind Json.str?
    | .error (.invalid .subqueryEntity)
  let some [(attr, _)] := (Fields.get? fields "data").bind Json.obj?
    | .error (.invalid .subqueryProjection)
  if (← QueryError.ofSchema (schema.relation entity attr)) = .column then .ok (entity, attr)
  else .error (.invalid (.subqueryColumn entity attr))

/-- The text operand of an operator. -/
def textOperand (name attr : String) (operand : Json) : Except QueryError String :=
  match operand with
  | .str text => .ok text
  | _ => .error (.invalid (.stringOperand name attr))

/-- The test that an operator without subqueries makes. -/
def plainTest (name attr : String) (operand : Json) : Except QueryError Test :=
  match Comparison.ofName? name with
  | some op => .ok (.compare op operand)
  | none =>
    if name = "$between" then
      match operand with
      | .arr [low, high] => .ok (.between low high)
      | _ => .error (.invalid (.betweenBounds attr))
    else if name = "$startsWith" then (textOperand name attr operand).map .startsWith
    else if name = "$endsWith" then (textOperand name attr operand).map .endsWith
    else if name = "$includes" then .ok (.includes operand)
    else if name = "$exists" then
      match operand with
      | .bool expected => .ok (.present expected)
      | _ => .error (.invalid (.existsFlag attr))
    else .error (.invalid (.unsupportedOperator name attr))

mutual

/-- Compiles a filter on the rows of an entity. -/
def compile (schema : Schema) (entity : String) (obscure : Bool) (site : Site) :
    Json → Except QueryError Filter
  | .obj fields => do
    let label ← label? fields
    return .mk label obscure (← compileFields schema entity obscure site 0 fields)
  | _ => .error (.invalid (.filterNotObject entity))

/-- Compiles the clauses of a filter object; `index` is the place of the next one. -/
def compileFields (schema : Schema) (entity : String) (obscure : Bool) (site : Site) (index : Nat) :
    List (String × Json) → Except QueryError (List Clause)
  | [] => .ok []
  | (key, value) :: rest =>
    if key = "#id" then compileFields schema entity obscure site (index + 1) rest
    else do
      let here := index :: site
      let clause ←
        if key = "$and" ∨ key = "$or" then
          match value with
          | .arr items => do
            let parts ← compileItems schema entity obscure here 0 items
            pure (if key = "$and" then Clause.and parts else .or parts)
          | _ => .error (.invalid (.expectsArray key))
        else if key = "$not" then (compile schema entity obscure here value).map .not
        else if key = "$text" then do
          let search ← searchText value
          let attributes ← QueryError.ofSchema (schema.fulltextAttributes entity)
          pure (.text attributes search)
        else if Expression.isKey key then (Expression.parse value).map .expr
        else if Expression.isOperatorKey key then .error (.invalid (.unsupportedLogical key))
        else do
          match ← QueryError.ofSchema (schema.relation entity key) with
          | .column =>
            match value with
            | .obj operators =>
              if operators.any fun (name, _) => Expression.isOperatorKey name then
                (compileTests schema key here 0 operators).map (.attribute key)
              else pure (.attribute key [.compare .eq value])
            | _ => pure (.attribute key [.compare .eq value])
          | .toMany _ _ => .error (.invalid (.filterOnToMany key))
          | .pointer p => (compile schema p.target obscure here value).map (.relation p)
      return clause :: (← compileFields schema entity obscure site (index + 1) rest)

/-- Compiles the parts of `$and` and `$or`. -/
def compileItems (schema : Schema) (entity : String) (obscure : Bool) (site : Site) (index : Nat) :
    List Json → Except QueryError (List Filter)
  | [] => .ok []
  | x :: xs => do
    let part ← compile schema entity obscure (index :: site) x
    return part :: (← compileItems schema entity obscure site (index + 1) xs)

/-- Compiles the tests of an attribute. -/
def compileTests (schema : Schema) (attr : String) (site : Site) (index : Nat) :
    List (String × Json) → Except QueryError (List Test)
  | [] => .ok []
  | (name, operand) :: rest => do
    let test ←
      if name = "$in" ∨ name = "$nin" then do
        let candidates ← compileCandidates schema name attr (index :: site) operand
        pure (if name = "$in" then Test.isIn candidates else .notIn candidates)
      else plainTest name attr operand
    return test :: (← compileTests schema attr site (index + 1) rest)

/-- Compiles the candidates of `$in` and `$nin`: a list of values, or a subquery. The filter of a
subquery never relaxes missing values. -/
def compileCandidates (schema : Schema) (name attr : String) (site : Site) :
    Json → Except QueryError Candidates
  | .arr items => .ok (.literal (items.map Json.memberKey))
  | .obj fields =>
    let compiled : Except QueryError Candidates := do
      let (target, column) ← subqueryColumn schema fields
      let filter ← compileFilterField schema target site fields
      let correlated := ((Fields.get? fields "filter").map isCorrelated).getD false
      pure (.subquery site target column filter correlated)
    compiled.mapError (subqueryError name attr)
  | _ => .error (.invalid (.candidates name attr))

/-- Compiles the `filter` of a subquery, if it has one. -/
def compileFilterField (schema : Schema) (entity : String) (site : Site) :
    List (String × Json) → Except QueryError Filter
  | [] => .ok .empty
  | (name, value) :: rest =>
    if name = "filter" then compile schema entity false site value
    else compileFilterField schema entity site rest

end

end Filter

end EntityStore
