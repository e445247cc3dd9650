import EntityStore.Proofs.Json.Merge
import EntityStore.Query.Filter.Compile
import EntityStore.Proofs.Query.Judge

/-! The forms of clauses. What a field of a filter object asks for is seen from its key and its
value alone (`Filter.clauseForm`); only the filters in it are compiled at a site. The compilation of
a filter then goes field by field, item by item and operator by operator
(`Filter.compileFields_cons`, `Filter.compileItems_cons`, `Filter.compileTests_cons`), and what
holds of all documents in the fields is carried to the object (`Json.document_induction`). -/

namespace EntityStore

namespace Json
/-- The property holds of all documents that are not larger than the value, so of all that stand
somewhere in it. -/
def Throughout (P : Json → Prop) (value : Json) : Prop :=
  ∀ document, sizeOf document ≤ sizeOf value → P document

variable {P : Json → Prop}

namespace Throughout

theorem self {value : Json} (h : value.Throughout P) : P value := h value (Nat.le_refl _)

theorem item {items : List Json} (h : (arr items).Throughout P) {x : Json} (hmem : x ∈ items) :
    x.Throughout P := by
  intro document hle
  have hlt := List.sizeOf_lt_of_mem hmem
  exact h document (by rw [arr.sizeOf_spec]; omega)

theorem field {fields : List (String × Json)} (h : (obj fields).Throughout P)
    {field : String × Json} (hmem : field ∈ fields) : field.2.Throughout P := by
  intro document hle
  have hlt := List.sizeOf_lt_of_mem hmem
  have hsize : sizeOf field = 1 + sizeOf field.1 + sizeOf field.2 := rfl
  exact h document (by rw [obj.sizeOf_spec]; omega)

end Throughout

/-- Induction on documents that are objects. -/
theorem document_induction
    (object : ∀ fields : List (String × Json), (∀ field ∈ fields, field.2.Throughout P) →
      P (.obj fields))
    (other : ∀ document, (∀ fields, document ≠ .obj fields) → P document) : ∀ document, P document
  | .obj fields => object fields fun field _ document _ =>
    document_induction object other document
  | .null | .bool _ | .num _ | .str _ | .arr _ => other _ nofun
termination_by document => sizeOf document
decreasing_by
  rename_i hmem hle
  have hlt := List.sizeOf_lt_of_mem hmem
  have hsize : sizeOf field = 1 + sizeOf field.1 + sizeOf field.2 := rfl
  rw [obj.sizeOf_spec]
  omega
end Json

/-- What a field of a filter object asks for. -/
inductive ClauseForm where
  /-- A conjunction, or a disjunction if `true` stops. -/
  | junction (stop : Bool) (items : List Json)
  | not (document : Json)
  /-- A clause without filters in it. -/
  | plain (clause : Clause)
  | tests (attr : String) (operators : List (String × Json))
  | relation (pointer : Pointer) (document : Json)

namespace Filter

/-- A conjunction, or a disjunction if `true` stops. -/
def junction (stop : Bool) (parts : List Filter) : Clause := if stop then .or parts else .and parts

/-- The form of a field of a filter object. -/
def clauseForm (schema : Schema) (entity key : String) (value : Json) :
    Except QueryError ClauseForm :=
  if key = "$and" ∨ key = "$or" then
    match value with
    | .arr items => .ok (.junction (key ≠ "$and") items)
    | _ => .error (.invalid (.expectsArray key))
  else if key = "$not" then .ok (.not value)
  else if key = "$text" then
    (searchText value).bind fun search =>
      (QueryError.ofSchema (schema.fulltextAttributes entity)).map fun attributes =>
        .plain (.text attributes search)
  else if Expression.isKey key then (Expression.parse value).map fun e => .plain (.expr e)
  else if Expression.isOperatorKey key then .error (.invalid (.unsupportedLogical key))
  else (QueryError.ofSchema (schema.relation entity key)).bind fun
    | .column =>
      match value with
      | .obj operators =>
        if operators.any fun (name, _) => Expression.isOperatorKey name then
          .ok (.tests key operators)
        else .ok (.plain (.attribute key [.compare .eq value]))
      | _ => .ok (.plain (.attribute key [.compare .eq value]))
    | .toMany _ _ => .error (.invalid (.filterOnToMany key))
    | .pointer p => .ok (.relation p value)

/-- Compiles a clause of a form. -/
def compileForm (schema : Schema) (entity : String) (obscure : Bool) (site : Site) :
    ClauseForm → Except QueryError Clause
  | .junction stop items => (compileItems schema entity obscure site 0 items).map (junction stop)
  | .not document => (compile schema entity obscure site document).map .not
  | .plain clause => .ok clause
  | .tests attr operators => (compileTests schema attr site 0 operators).map (.attribute attr)
  | .relation p document => (compile schema p.target obscure site document).map (.relation p)

/-- Compiles the clause of a field. -/
def compileField (schema : Schema) (entity : String) (obscure : Bool) (site : Site)
    (key : String) (value : Json) : Except QueryError Clause :=
  (clauseForm schema entity key value).bind (compileForm schema entity obscure site)

/-- Compiles the test of an operator. -/
def compileTest (schema : Schema) (attr : String) (site : Site) (name : String) (operand : Json) :
    Except QueryError Test :=
  if name = "$in" ∨ name = "$nin" then
    (compileCandidates schema name attr site operand).map
      (if name = "$in" then .isIn else .notIn)
  else plainTest name attr operand

variable {schema : Schema} {entity attr : String} {obscure : Bool} {site : Site} {index : Nat}

/-- The clauses without filters in them, each with what it has of its field. -/
inductive PlainClause (key : String) (value : Json) : Clause → Prop where
  | text (attributes : List String) (search : String) :
    PlainClause key value (.text attributes search)
  | expr {e : Expression} (h : Expression.parse value = .ok e) : PlainClause key value (.expr e)
  | equal : PlainClause key value (.attribute key [.compare .eq value])

theorem PlainClause.subqueries {key : String} {value : Json} {clause : Clause}
    (h : PlainClause key value clause) : subqueriesClause clause = [] := by
  cases h <;> rfl

/-- What the form of a field holds is its value. -/
theorem value_of_clauseForm {key : String} {value : Json} {form : ClauseForm}
    (h : clauseForm schema entity key value = .ok form) :
    match form with
    | .junction _ items => value = .arr items
    | .not document | .relation _ document => value = document
    | .plain clause => PlainClause key value clause
    | .tests attr operators => attr = key ∧ value = .obj operators := by
  unfold clauseForm at h
  split at h
  · split at h
    · cases h
      rfl
    · cases h
  split at h
  · cases h
    rfl
  split at h
  · obtain ⟨search, -, h⟩ := bind_eq_ok.mp h
    obtain ⟨attributes, -, rfl⟩ := map_eq_ok.mp h
    exact .text attributes search
  split at h
  · obtain ⟨e, he, rfl⟩ := map_eq_ok.mp h
    exact .expr he
  split at h
  · cases h
  obtain ⟨relation, -, h⟩ := bind_eq_ok.mp h
  cases relation with
  | toMany target back => cases h
  | pointer p =>
    cases h
    rfl
  | column =>
    dsimp only at h
    split at h
    · split at h
      · cases h
        exact ⟨rfl, rfl⟩
      · cases h
        exact .equal
    · cases h
      exact .equal

theorem not_operatorKey {key : String} (h : Expression.isOperatorKey key = false) :
    (key ≠ "$and" ∧ key ≠ "$or") ∧ key ≠ "$not" ∧ key ≠ "$text" ∧ Expression.isKey key = false := by
  have hne {other : String} (ho : Expression.isOperatorKey other = true) : key ≠ other := by
    rintro rfl
    rw [ho] at h
    cases h
  refine ⟨⟨hne rfl, hne rfl⟩, hne rfl, hne rfl, ?_⟩
  unfold Expression.isOperatorKey at h
  unfold Expression.isKey
  generalize key.toList = cs at h ⊢
  cases cs with
  | nil => rfl
  | cons c cs =>
    have hc : c ≠ '$' := by simpa using h
    have hexpr : "$expr".toList.isPrefixOf (c :: cs) = false := by
      have htext : "$expr".toList = ['$', 'e', 'x', 'p', 'r'] := rfl
      rw [htext, List.isPrefixOf, beq_eq_false_iff_ne.mpr hc.symm, Bool.false_and]
    rw [hexpr, Bool.false_and]

theorem clauseForm_pointer {key : String} (h : Expression.isOperatorKey key = false) {p : Pointer}
    (hp : schema.relation entity key = .ok (.pointer p)) (document : Json) :
    clauseForm schema entity key document = .ok (.relation p document) := by
  obtain ⟨⟨hand, hor⟩, hnot, htext, hexpr⟩ := not_operatorKey h
  unfold clauseForm
  rw [if_neg (by simp [hand, hor]), if_neg hnot, if_neg htext, hexpr, h, hp]
  rfl

theorem clauseForm_tests {key : String} (h : Expression.isOperatorKey key = false)
    (hc : schema.relation entity key = .ok .column) {operators : List (String × Json)}
    (ho : operators.any fun (name, _) => Expression.isOperatorKey name) :
    clauseForm schema entity key (.obj operators) = .ok (.tests key operators) := by
  obtain ⟨⟨hand, hor⟩, hnot, htext, hexpr⟩ := not_operatorKey h
  unfold clauseForm
  rw [if_neg (by simp [hand, hor]), if_neg hnot, if_neg htext, hexpr, h, hc]
  exact if_pos ho

theorem clauseForm_junction {key : String} (h : key = "$and" ∨ key = "$or") (items : List Json) :
    clauseForm schema entity key (.arr items) = .ok (.junction (key ≠ "$and") items) := by
  rw [clauseForm, if_pos h]

theorem compileFields_label (value : Json) (rest : List (String × Json)) :
    compileFields schema entity obscure site index (("#id", value) :: rest) =
      compileFields schema entity obscure site (index + 1) rest := by
  rw [compileFields, if_pos rfl]

theorem compileFields_cons {key : String} (hk : key ≠ "#id") (value : Json)
    (rest : List (String × Json)) :
    compileFields schema entity obscure site index ((key, value) :: rest) =
      (compileField schema entity obscure (index :: site) key value).bind fun clause =>
        (compileFields schema entity obscure site (index + 1) rest).map (clause :: ·) := by
  have hrest (clause : Clause) :
      (do return clause :: (← compileFields schema entity obscure site (index + 1) rest)) =
        (compileFields schema entity obscure site (index + 1) rest).map (clause :: ·) := by
    cases compileFields schema entity obscure site (index + 1) rest <;> rfl
  conv => lhs; unfold compileFields
  simp only [hk, if_false, hrest]
  unfold compileField clauseForm
  by_cases hjunction : key = "$and" ∨ key = "$or"
  · simp only [hjunction, if_true]
    cases value with
    | arr items =>
      simp only [Except.bind, compileForm]
      cases compileItems schema entity obscure (index :: site) 0 items with
      | error e => rfl
      | ok parts => rcases hjunction with rfl | rfl <;> rfl
    | _ => rfl
  simp only [hjunction, if_false]
  by_cases hnot : key = "$not"
  · simp only [hnot, if_true]
    rfl
  simp only [hnot, if_false]
  by_cases htext : key = "$text"
  · simp only [htext, if_true]
    cases searchText value with
    | error e => rfl
    | ok search => cases QueryError.ofSchema (schema.fulltextAttributes entity) <;> rfl
  simp only [htext, if_false]
  by_cases hexpr : Expression.isKey key
  · simp only [hexpr, if_true]
    cases Expression.parse value <;> rfl
  simp only [hexpr]
  by_cases hop : Expression.isOperatorKey key
  · simp only [hop, if_true]
    rfl
  simp only [hop]
  cases QueryError.ofSchema (schema.relation entity key) with
  | error e => rfl
  | ok relation =>
    cases relation with
    | toMany target back => rfl
    | pointer p => rfl
    | column =>
      cases value with
      | obj operators =>
        by_cases hany : operators.any fun (name, _) => Expression.isOperatorKey name
        · simp only [bind, Except.bind, hany, if_true]
          rfl
        · simp only [bind, Except.bind, hany]
          rfl
      | _ => rfl

theorem label?_of_not_mem {fields : Fields Json} (h : "#id" ∉ Fields.names fields) :
    label? fields = .ok none := by
  rw [label?, Fields.get?_eq_none_iff.mpr h]

/-- A filter object with one field has the clause of the field. -/
theorem compile_field {key : String} (hk : key ≠ "#id") (value : Json) :
    compile schema entity obscure site (.obj [(key, value)]) =
      (compileField schema entity obscure (0 :: site) key value).map fun clause =>
        .mk none obscure [clause] := by
  rw [compile, label?_of_not_mem fun h => hk (List.mem_singleton.mp h).symm]
  change (compileFields schema entity obscure site 0 [(key, value)]).bind _ = _
  rw [compileFields_cons hk]
  cases compileField schema entity obscure (0 :: site) key value <;> rfl

theorem compileItems_cons (x : Json) (xs : List Json) :
    compileItems schema entity obscure site index (x :: xs) =
      (compile schema entity obscure (index :: site) x).bind fun part =>
        (compileItems schema entity obscure site (index + 1) xs).map (part :: ·) := by
  rw [compileItems]
  cases compile schema entity obscure (index :: site) x with
  | error e => rfl
  | ok part => cases compileItems schema entity obscure site (index + 1) xs <;> rfl

theorem compileTests_cons (name : String) (operand : Json) (rest : List (String × Json)) :
    compileTests schema attr site index ((name, operand) :: rest) =
      (compileTest schema attr (index :: site) name operand).bind fun test =>
        (compileTests schema attr site (index + 1) rest).map (test :: ·) := by
  have hrest (test : Test) :
      (do return test :: (← compileTests schema attr site (index + 1) rest)) =
        (compileTests schema attr site (index + 1) rest).map (test :: ·) := by
    cases compileTests schema attr site (index + 1) rest <;> rfl
  conv => lhs; unfold compileTests
  simp only [hrest]
  unfold compileTest
  by_cases hin : name = "$in" ∨ name = "$nin"
  · simp only [hin, if_true]
    cases compileCandidates schema name attr (index :: site) operand with
    | error e => rfl
    | ok candidates => by_cases h : name = "$in" <;> simp only [h] <;> rfl
  · simp only [hin, if_false]
    rfl

theorem subqueriesTest_of_plainTest {name : String} {operand : Json} {test : Test}
    (h : plainTest name attr operand = .ok test) : subqueriesTest test = [] := by
  unfold plainTest textOperand at h
  grind [subqueriesTest, Except.map]

/-- Compiles the filter of a subquery, if it has one. -/
def compileInner (schema : Schema) (entity : String) (site : Site) :
    Option Json → Except QueryError Filter
  | none => .ok .empty
  | some document => compile schema entity false site document

theorem compileFilterField_eq (fields : List (String × Json)) :
    compileFilterField schema entity site fields =
      compileInner schema entity site (Fields.get? fields "filter") := by
  induction fields with
  | nil => rfl
  | cons field rest ih =>
    obtain ⟨name, value⟩ := field
    rw [compileFilterField, Fields.get?_cons, ih]
    by_cases h : name = "filter"
    · simp [h, compileInner]
    · simp [h, Ne.symm h]

theorem compileCandidates_obj (name : String) (fields : List (String × Json)) :
    compileCandidates schema name attr site (.obj fields) =
      ((subqueryColumn schema fields).bind fun column =>
        (compileInner schema column.1 site (Fields.get? fields "filter")).map fun filter =>
          .subquery site column.1 column.2 filter
            (((Fields.get? fields "filter").map isCorrelated).getD false)).mapError
        (subqueryError name attr) := by
  rw [compileCandidates]
  refine congrArg (Except.mapError _) ?_
  cases subqueryColumn schema fields with
  | error e => rfl
  | ok column =>
    dsimp only [Except.bind, bind]
    rw [compileFilterField_eq]
    cases compileInner schema column.1 site (Fields.get? fields "filter") <;> rfl

end Filter

end EntityStore
