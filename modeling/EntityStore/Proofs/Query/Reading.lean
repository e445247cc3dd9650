import EntityStore.Proofs.Json.Merge
import EntityStore.Proofs.Query.Decided
import EntityStore.Proofs.Query.Labels
import EntityStore.Proofs.Query.Sites
import EntityStore.Proofs.Query.Verdict
import EntityStore.Query.Sort

/-! The Boolean reading of filters. A filter document that has no labels holds of a row or does not
(`Filter.holds`): its keys are a conjunction, `$and`, `$or` and `$not` are what they are called, and
a subquery is the set of values over the rows that its filter holds of. The evaluation of the
compiled filter finds just this, in every view, with any labels bound (`Filter.evaluate_holds`). -/

namespace EntityStore

theorem Expression.evaluate_unlabelled {e : Expression} (h : e.labels = []) (row : Option Row)
    (b : Bindings) : e.evaluate row b = .resolved (e.value row fun _ => none) := by
  have hbound : e.unbound b = [] := by rw [unbound_eq_filter, h]; rfl
  have hvalue : e.value row b.get? = e.value row fun _ => none :=
    value_congr row e fun label hl => by rw [h] at hl; cases hl
  rw [evaluate_of_bound hbound, hvalue]

namespace Judge

theorem many_false (verdicts : List Bool) : many false verdicts = verdicts.all id := by
  induction verdicts with
  | nil => rfl
  | cons passed rest ih => cases passed <;> simp [many_cons, ih]

theorem many_true (verdicts : List Bool) : many true verdicts = verdicts.any id := by
  induction verdicts with
  | nil => rfl
  | cons passed rest ih => cases passed <;> simp [many_cons, ih]

theorem Decided.eq_known {j : Judge} (h : j.Decided) : j = known j.passes := funext h

theorem join_known (stop : Bool) (verdicts : List Bool) :
    join stop (verdicts.map known) = known (many stop verdicts) := by
  have hknown : ∀ j ∈ verdicts.map known, j.Decided := by
    rintro j hj
    obtain ⟨passed, -, rfl⟩ := List.mem_map.mp hj
    exact decided_known passed
  obtain ⟨hdecided, hpasses⟩ := Decided.join stop hknown
  have hverdicts : (verdicts.map known).map passes = verdicts := by
    rw [List.map_map]
    exact List.map_id verdicts
  rw [hdecided.eq_known, hpasses, hverdicts]

/-- The keys of a subquery whose rows have a verdict. -/
theorem keys_known (v : View) (entity attr : String) (passed : Row → Bool) (seed : Bindings) :
    keys v entity attr (fun row => known (passed row)) seed =
      .ok (((v.scan entity).filter passed).filterMap fun row =>
        (Fields.get? row attr).map Json.memberKey) :=
  Decided.keys v (fun row => decided_known (passed row)) entity attr seed

end Judge

/-! ## The reading of documents -/

namespace Json

/-- Whether both values are texts and the second one begins the first. -/
def startsWith : Json → Json → Bool
  | .str text, .str start => start.toList.isPrefixOf text.toList
  | _, _ => false

/-- Whether both values are texts and the second one ends the first. -/
def endsWith : Json → Json → Bool
  | .str text, .str ending => ending.toList.isSuffixOf text.toList
  | _, _ => false

/-- Whether a text holds another text, or an array holds an item equal to a value. -/
def includes : Json → Json → Bool
  | .str text, .str part => textHolds text.toList part.toList
  | .arr items, value => items.any (equal · value)
  | _, _ => false

theorem begins_eq (text : String) (value : Json) :
    Test.begins text value = value.startsWith (.str text) := by
  cases value <;> rfl

theorem ends_eq (text : String) (value : Json) :
    Test.ends text value = value.endsWith (.str text) := by
  cases value <;> rfl

theorem holds_eq (operand value : Json) : Test.holds operand value = value.includes operand := by
  cases value with
  | str text => cases operand <;> rfl
  | _ => rfl

end Json

namespace Filter

/-- Whether an object asks for tests by their operators; any other value asks for equality. -/
def hasOperators (operators : List (String × Json)) : Bool :=
  operators.any fun (name, _) => Expression.isOperatorKey name

/-- Whether a value lies between the two bounds in an array. -/
def boundsHold : Json → Json → Bool
  | .arr [low, high], value => Comparison.gte.test value low && Comparison.lte.test value high
  | _, _ => false

/-- Whether a value passes the test by an operator without subqueries. -/
def testHolds (name : String) (operand value : Json) : Bool :=
  match Comparison.ofName? name with
  | some op => op.test value operand
  | none =>
    if name = "$between" then boundsHold operand value
    else if name = "$startsWith" then value.startsWith operand
    else if name = "$endsWith" then value.endsWith operand
    else if name = "$includes" then value.includes operand
    else name = "$exists" && operand == .bool (value != .null)

/-- Whether an operator asks for the absence of a value. -/
def asksForAbsence : String × Json → Bool
  | (name, operand) => name = "$exists" && operand == .bool false

/-- Whether a condition on an attribute holds of a row without the attribute: missing values pass,
or all its operators ask for absence. -/
def absenceHolds (obscure : Bool) : Json → Bool
  | .obj operators => obscure || hasOperators operators && operators.all asksForAbsence
  | _ => obscure

/-- Whether one of the attributes in the text index of the entity holds the text searched for. In
obscure mode it is enough that one is missing. -/
def searchHolds (schema : Schema) (obscure : Bool) (entity : String) (value : Json) (row : Row) :
    Bool :=
  match schema.fulltextAttributes entity, (value.field? "$search").bind Json.str? with
  | .ok attributes, some search => attributes.any fun attr =>
    match Fields.get? row attr with
    | some (.str text) => Json.textHolds text.toList search.toList
    | some _ => false
    | none => obscure
  | _, _ => false

/-- Whether the value of an expression without labels is true. -/
def expressionHolds (value : Json) (row : Row) : Bool :=
  match Expression.parse value with
  | .ok e => (e.value (some row) fun _ => none).truthy
  | .error _ => false

mutual

/-- Whether a filter document holds of a row of an entity. In obscure mode missing values pass. -/
def holds (schema : Schema) (v : View) (obscure : Bool) (entity : String) : Json → Row → Bool
  | .obj fields, row => allHold schema v obscure entity fields row
  | _, _ => false
termination_by structural x => x

/-- Whether all fields of a filter object hold of a row. -/
def allHold (schema : Schema) (v : View) (obscure : Bool) (entity : String) :
    List (String × Json) → Row → Bool
  | [], _ => true
  | field :: rest, row =>
    fieldHolds schema v obscure entity field row && allHold schema v obscure entity rest row
termination_by structural x => x

/-- Whether a field of a filter object holds of a row. -/
def fieldHolds (schema : Schema) (v : View) (obscure : Bool) (entity : String) :
    String × Json → Row → Bool
  | (key, value), row =>
    if key = "$and" then (itemsHold schema v obscure entity value row).any (·.all id)
    else if key = "$or" then (itemsHold schema v obscure entity value row).any (·.any id)
    else if key = "$not" then !holds schema v obscure entity value row
    else if key = "$text" then searchHolds schema obscure entity value row
    else if Expression.isKey key then expressionHolds value row
    else match schema.relation entity key with
      | .ok (.pointer p) =>
        match v.follow p row with
        | .found target => holds schema v obscure p.target value target
        | .elsewhere => false
        | .unset | .missing => obscure
      | _ =>
        match Fields.get? row key with
        | none => absenceHolds obscure value
        | some found => conditionHolds schema v obscure value found
termination_by structural x => x

/-- Which items of an array of filter documents hold of a row. -/
def itemsHold (schema : Schema) (v : View) (obscure : Bool) (entity : String) :
    Json → Row → Option (List Bool)
  | .arr items, row => some (eachHolds schema v obscure entity items row)
  | _, _ => none
termination_by structural x => x

/-- Which of several filter documents hold of a row. -/
def eachHolds (schema : Schema) (v : View) (obscure : Bool) (entity : String) :
    List Json → Row → List Bool
  | [], _ => []
  | x :: xs, row =>
    holds schema v obscure entity x row :: eachHolds schema v obscure entity xs row
termination_by structural x => x

/-- Whether a condition on an attribute holds of its value. An object without operators, like any
other value, asks for equality. -/
def conditionHolds (schema : Schema) (v : View) (obscure : Bool) : Json → Json → Bool
  | .obj operators, value =>
    if hasOperators operators then operatorsHold schema v obscure operators value
    else value.equal (.obj operators)
  | expected, value => value.equal expected
termination_by structural x => x

/-- Whether a value passes the tests by all operators. -/
def operatorsHold (schema : Schema) (v : View) (obscure : Bool) :
    List (String × Json) → Json → Bool
  | [], _ => true
  | operator :: rest, value =>
    operatorHolds schema v obscure operator value && operatorsHold schema v obscure rest value
termination_by structural x => x

/-- Whether a value passes the test by an operator. In obscure mode it passes every `$in`. -/
def operatorHolds (schema : Schema) (v : View) (obscure : Bool) : String × Json → Json → Bool
  | (name, operand), value =>
    if name = "$in" then obscure || isMember schema v operand value
    else if name = "$nin" then !isMember schema v operand value
    else testHolds name operand value
termination_by structural x => x

/-- Whether a value is among the items of an array, or among the values of the column that a
subquery reads over the visible rows. -/
def isMember (schema : Schema) (v : View) : Json → Json → Bool
  | .arr items, value => items.any fun item => item.memberKey = value.memberKey
  | .obj fields, value =>
    match subqueryColumn schema fields with
    | .ok (entity, column) => (v.scan entity).any fun row =>
      filterHolds schema v entity fields row &&
        (Fields.get? row column).any fun found => found.memberKey = value.memberKey
    | .error _ => false
  | _, _ => false
termination_by structural x => x

/-- Whether the filter of a subquery holds of a row, if it has one. It is strict. -/
def filterHolds (schema : Schema) (v : View) (entity : String) :
    List (String × Json) → Row → Bool
  | [], _ => true
  | (name, document) :: rest, row =>
    if name = "filter" then holds schema v false entity document row
    else filterHolds schema v entity rest row
termination_by structural x => x

end

variable {schema : Schema} {v : View} {entity attr name key : String} {obscure : Bool} {site : Site}
  {index : Nat} {document value : Json}

/-! ## Documents without labels -/

/-- A document neither binds nor reads a label, its subqueries included. -/
def Unlabelled (document : Json) : Prop := labelsBound document = [] ∧ labelsRead document = []

theorem unlabelled_iff : Unlabelled document ↔ ∀ label, Avoids [label] document := by
  simp [Unlabelled, Avoids, List.eq_nil_iff_forall_not_mem, forall_and]

namespace Unlabelled

variable {fields : List (String × Json)} {items : List Json}

theorem field (h : Unlabelled (.obj fields)) {field : String × Json} (hmem : field ∈ fields) :
    Unlabelled field.2 :=
  unlabelled_iff.mpr fun label => (unlabelled_iff.mp h label).field hmem

theorem item (h : Unlabelled (.arr items)) {x : Json} (hmem : x ∈ items) : Unlabelled x :=
  unlabelled_iff.mpr fun label => (unlabelled_iff.mp h label).item hmem

/-- An object that is compiled has no key for a label. -/
theorem label (h : Unlabelled (.obj fields)) {label : Option String}
    (hl : label? fields = .ok label) : label = none ∧ ∀ field ∈ fields, field.1 ≠ "#id" := by
  cases label with
  | some label =>
    exact absurd List.mem_cons_self ((unlabelled_iff.mp h label).label (mem_of_label? hl))
  | none =>
    refine ⟨rfl, fun field hmem hkey => ?_⟩
    unfold label? at hl
    split at hl
    · rename_i hget
      exact Fields.get?_eq_none_iff.mp hget (List.mem_map.mpr ⟨field, hmem, hkey⟩)
    · cases hl
    · cases hl

theorem expression (h : Unlabelled value) {e : Expression} (he : Expression.parse value = .ok e) :
    e.labels = [] := by
  refine List.eq_nil_iff_forall_not_mem.mpr fun label hl => ?_
  exact List.not_mem_nil (h.2 ▸ Expression.labels_parse value he label hl)

end Unlabelled

/-! ## What is compiled is judged by the reading -/

/-- Whatever the document is compiled to has no labels and judges a row by the reading. -/
def CompilesToReading (schema : Schema) (v : View) (document : Json) : Prop :=
  Unlabelled document → ∀ {entity obscure site f},
    compile schema entity obscure site document = .ok f →
      f.ownLabels = [] ∧ ∀ row, f.judge v row = .known (holds schema v obscure entity document row)

theorem compileItems_reading {items : List Json} {parts : List Filter}
    (hitems : ∀ x ∈ items, CompilesToReading schema v x) (hu : ∀ x ∈ items, Unlabelled x)
    (h : compileItems schema entity obscure site index items = .ok parts) :
    ownLabelsParts parts = [] ∧ ∀ row, judgeParts v parts row =
      (eachHolds schema v obscure entity items row).map .known := by
  induction items generalizing index parts with
  | nil =>
    cases h
    exact ⟨rfl, fun _ => rfl⟩
  | cons x xs ih =>
    obtain ⟨hx, hxs⟩ := List.forall_mem_cons.mp hitems
    obtain ⟨hux, huxs⟩ := List.forall_mem_cons.mp hu
    rw [compileItems_cons] at h
    obtain ⟨part, hpart, h⟩ := bind_eq_ok.mp h
    obtain ⟨parts, hparts, rfl⟩ := map_eq_ok.mp h
    obtain ⟨hlabels, hjudge⟩ := hx hux hpart
    obtain ⟨hlabelsRest, hjudgeRest⟩ := ih hxs huxs hparts
    refine ⟨by rw [ownLabelsParts, hlabels, hlabelsRest]; rfl, fun row => ?_⟩
    rw [judgeParts, eachHolds, hjudge, hjudgeRest]
    rfl

theorem filterHolds_eq (fields : List (String × Json)) (row : Row) :
    filterHolds schema v entity fields row = match Fields.get? fields "filter" with
      | none => true
      | some document => holds schema v false entity document row := by
  induction fields with
  | nil => rw [filterHolds]; rfl
  | cons field rest ih =>
    obtain ⟨name, document⟩ := field
    rw [filterHolds, Fields.get?_cons, ih]
    by_cases h : name = "filter"
    · simp [h]
    · simp [h, Ne.symm h]

theorem contains_keys (rows : List Row) (passes : Row → Bool) (key : String) :
    ((rows.filter passes).filterMap fun row => (Fields.get? row attr).map Json.memberKey).contains
        key =
      rows.any fun row => passes row &&
        (Fields.get? row attr).any fun found => found.memberKey = key := by
  rw [Bool.eq_iff_iff]
  simp only [List.contains_iff_mem, List.mem_filterMap, List.mem_filter, List.any_eq_true,
    Bool.and_eq_true, Option.map_eq_some_iff, Option.any_eq_true, decide_eq_true_eq, and_assoc]

theorem compileCandidates_reading {operand : Json} {candidates : Candidates}
    (hoperand : operand.Throughout (CompilesToReading schema v)) (hu : Unlabelled operand)
    (h : compileCandidates schema name attr site operand = .ok candidates) (value : Json) :
    judgeCandidates v candidates value = .known (isMember schema v operand value) := by
  cases operand with
  | arr items =>
    cases h
    rw [judgeCandidates, isMember]
    refine congrArg Judge.known ?_
    rw [Bool.eq_iff_iff]
    simp
  | obj fields =>
    rw [compileCandidates_obj] at h
    obtain ⟨⟨target, column⟩, hcolumn, h⟩ := bind_eq_ok.mp (mapError_eq_ok.mp h)
    obtain ⟨filter, hfilter, rfl⟩ := map_eq_ok.mp h
    have hrow (row : Row) :
        filter.judge v row = .known (filterHolds schema v target fields row) := by
      rw [filterHolds_eq]
      cases hget : Fields.get? fields "filter" with
      | none =>
        rw [hget] at hfilter
        cases hfilter
        exact Judge.join_known false []
      | some document =>
        rw [hget] at hfilter
        have hmem := Fields.mem_of_get? hget
        have hdocument : CompilesToReading schema v document := (hoperand.field hmem).self
        exact (hdocument (hu.field hmem) hfilter).2 row
    funext b
    rw [judgeCandidates, isMember, hcolumn]
    simp only [hrow, Judge.keys_known, Except.map, contains_keys]
    rfl
  | null | bool _ | num _ | str _ => cases h

theorem textOperand_eq_ok {operand : Json} {text : String}
    (h : textOperand name attr operand = .ok text) : operand = .str text := by
  cases operand <;> cases h
  rfl

theorem present_reading (expected : Bool) (value : Json) :
    (value.isNull != expected) = (Json.bool expected == Json.bool (value != .null)) := by
  have hnull : value.isNull = !(value != .null) := by cases value <;> rfl
  rw [hnull]
  cases expected <;> cases value != .null <;> rfl

theorem plainTest_reading {operand : Json} {test : Test}
    (h : plainTest name attr operand = .ok test) :
    (∀ value, judgeTest v obscure test value = .known (testHolds name operand value)) ∧
      test.holdsOfAbsent = asksForAbsence (name, operand) := by
  unfold plainTest at h
  unfold testHolds
  cases hop : Comparison.ofName? name with
  | some op =>
    rw [hop] at h
    cases h
    have hname : op.name = name := by simpa using List.find?_some hop
    refine ⟨fun _ => rfl, ?_⟩
    rw [← hname]
    cases op <;> rfl
  | none =>
    simp only [hop] at h ⊢
    split at h
    · subst name
      split at h <;> cases h
      exact ⟨fun _ => rfl, rfl⟩
    split at h
    · subst name
      obtain ⟨text, htext, rfl⟩ := map_eq_ok.mp h
      cases textOperand_eq_ok htext
      exact ⟨fun value => congrArg Judge.known (Json.begins_eq text value), rfl⟩
    split at h
    · subst name
      obtain ⟨text, htext, rfl⟩ := map_eq_ok.mp h
      cases textOperand_eq_ok htext
      exact ⟨fun value => congrArg Judge.known (Json.ends_eq text value), rfl⟩
    split at h
    · subst name
      cases h
      exact ⟨fun value => congrArg Judge.known (Json.holds_eq operand value), rfl⟩
    split at h
    · subst name
      split at h <;> cases h
      rename_i expected
      refine ⟨fun value => congrArg Judge.known (present_reading expected value), ?_⟩
      cases expected <;> rfl
    · cases h

/-- The test by an operator is judged by the reading. Without a value it holds if it asks for
absence. -/
theorem compileTest_reading (obscure : Bool) {operand : Json} {test : Test}
    (hoperand : operand.Throughout (CompilesToReading schema v)) (hu : Unlabelled operand)
    (h : compileTest schema attr site name operand = .ok test) :
    (∀ value, judgeTest v obscure test value =
      .known (operatorHolds schema v obscure (name, operand) value)) ∧
      test.holdsOfAbsent = asksForAbsence (name, operand) := by
  unfold compileTest at h
  simp only [operatorHolds]
  by_cases hin : name = "$in"
  · subst name
    obtain ⟨candidates, hcandidates, rfl⟩ := map_eq_ok.mp h
    refine ⟨fun value => ?_, rfl⟩
    have hvalue := compileCandidates_reading hoperand hu hcandidates value
    cases obscure with
    | true => rfl
    | false => exact hvalue
  by_cases hnin : name = "$nin"
  · subst name
    obtain ⟨candidates, hcandidates, rfl⟩ := map_eq_ok.mp h
    refine ⟨fun value => ?_, rfl⟩
    have hvalue := compileCandidates_reading hoperand hu hcandidates value
    exact congrArg Judge.negate hvalue
  rw [if_neg (not_or.mpr ⟨hin, hnin⟩)] at h
  simp only [hin, hnin, if_false]
  exact plainTest_reading h

theorem operatorsHold_eq_all (operators : List (String × Json)) (value : Json) :
    operatorsHold schema v obscure operators value =
      operators.all fun operator => operatorHolds schema v obscure operator value := by
  induction operators with
  | nil => rfl
  | cons operator rest ih => rw [operatorsHold, ih, List.all_cons]

theorem allHold_eq_all (fields : List (String × Json)) (row : Row) :
    allHold schema v obscure entity fields row =
      fields.all fun field => fieldHolds schema v obscure entity field row := by
  induction fields with
  | nil => rfl
  | cons field rest ih => rw [allHold, ih, List.all_cons]

theorem compileTests_reading (obscure : Bool) {operators : List (String × Json)}
    {tests : List Test}
    (hoperators : ∀ operator ∈ operators, operator.2.Throughout (CompilesToReading schema v))
    (hu : ∀ operator ∈ operators, Unlabelled operator.2)
    (h : compileTests schema attr site index operators = .ok tests) :
    (∀ value, judgeTests v obscure tests value =
      (operators.map fun operator => operatorHolds schema v obscure operator value).map .known) ∧
      tests.all Test.holdsOfAbsent = operators.all asksForAbsence := by
  induction operators generalizing index tests with
  | nil =>
    cases h
    exact ⟨fun _ => rfl, rfl⟩
  | cons operator rest ih =>
    obtain ⟨hoperand, hoperators⟩ := List.forall_mem_cons.mp hoperators
    obtain ⟨huoperand, huoperators⟩ := List.forall_mem_cons.mp hu
    rw [compileTests_cons] at h
    obtain ⟨test, htest, h⟩ := bind_eq_ok.mp h
    obtain ⟨tests, htests, rfl⟩ := map_eq_ok.mp h
    obtain ⟨hjudge, habsent⟩ := compileTest_reading obscure hoperand huoperand htest
    obtain ⟨hjudgeRest, habsentRest⟩ := ih hoperators huoperators htests
    refine ⟨fun value => ?_, by rw [List.all_cons, List.all_cons, habsent, habsentRest]⟩
    rw [judgeTests, hjudge, hjudgeRest]
    rfl

/-! ## The forms of clauses -/

/-- Whether a clause of a form holds of a row. -/
def formHolds (schema : Schema) (v : View) (obscure : Bool) (entity : String) :
    ClauseForm → Row → Bool
  | .junction stop items, row => Judge.many stop (eachHolds schema v obscure entity items row)
  | .not document, row => !holds schema v obscure entity document row
  | .plain clause, row => (judgeClause v obscure clause row).passes
  | .tests attr operators, row =>
    match Fields.get? row attr with
    | none => obscure || operators.all asksForAbsence
    | some value => operatorsHold schema v obscure operators value
  | .relation p document, row =>
    match v.follow p row with
    | .found target => holds schema v obscure p.target document target
    | .elsewhere => false
    | .unset | .missing => obscure

theorem searchText_eq_ok {search : String} (h : searchText value = .ok search) :
    (value.field? "$search").bind Json.str? = some search := by
  unfold searchText at h
  split at h <;> cases h
  assumption

/-- The search of all attributes at once is the search of each of them. -/
theorem findsText_eq_any (attributes : List String) (search : String) (row : Row) :
    findsText obscure attributes search row = attributes.any fun attr =>
      match Fields.get? row attr with
      | some (.str text) => Json.textHolds text.toList search.toList
      | some _ => false
      | none => obscure := by
  unfold findsText
  induction attributes with
  | nil => exact Bool.and_false obscure
  | cons attr rest ih =>
    simp only [List.map_cons, List.any_cons, ← ih]
    cases Fields.get? row attr with
    | none => cases obscure <;> simp
    | some found => cases found <;> simp [Bool.or_assoc]

/-- A clause without filters in it needs no labels. -/
theorem plain_decided {clause : Clause} (hu : Unlabelled value) (h : PlainClause key value clause)
    (row : Row) : (judgeClause v obscure clause row).Decided := by
  cases h with
  | text attributes search => exact Judge.decided_known _
  | expr he =>
    rename_i e
    have hjudge (b : Bindings) : judgeClause v obscure (.expr e) row b =
        .ok (.known (e.value (some row) fun _ => none).truthy, b) := by
      simp only [judgeClause, Expression.evaluate_unlabelled (hu.expression he)]
    exact (Judge.decided_of_eq hjudge).1
  | equal => exact judgeClause_decided obscure (.attribute key [.compare .eq value]) rfl row

theorem equal_passes (key : String) (value : Json) (row : Row) :
    (judgeClause v obscure (.attribute key [.compare .eq value]) row).passes =
      match Fields.get? row key with
      | none => obscure
      | some found => found.equal value := by
  rw [judgeClause]
  cases Fields.get? row key with
  | none => exact Bool.or_false obscure
  | some found =>
    refine (congrArg Judge.passes (Judge.join_known false [found.equal value])).trans ?_
    exact (Judge.many_false _).trans (Bool.and_true _)

theorem fieldHolds_of_form (hu : Unlabelled value) {form : ClauseForm}
    (h : clauseForm schema entity key value = .ok form) (row : Row) :
    fieldHolds schema v obscure entity (key, value) row =
      formHolds schema v obscure entity form row := by
  unfold clauseForm at h
  rw [fieldHolds]
  by_cases hand : key = "$and"
  · subst key
    rw [if_pos (.inl rfl)] at h
    split at h <;> cases h
    exact (Option.any_some ..).trans (Judge.many_false _).symm
  by_cases hor : key = "$or"
  · subst key
    rw [if_pos (.inr rfl)] at h
    split at h <;> cases h
    exact (Option.any_some ..).trans (Judge.many_true _).symm
  rw [if_neg hand, if_neg hor]
  rw [if_neg (not_or.mpr ⟨hand, hor⟩)] at h
  by_cases hnot : key = "$not"
  · rw [if_pos hnot] at h ⊢
    cases h
    rfl
  rw [if_neg hnot] at h ⊢
  by_cases htext : key = "$text"
  · rw [if_pos htext] at h ⊢
    obtain ⟨search, hsearch, h⟩ := bind_eq_ok.mp h
    obtain ⟨attributes, hattributes, rfl⟩ := map_eq_ok.mp h
    rw [searchHolds, QueryError.of_ofSchema hattributes, searchText_eq_ok hsearch]
    exact (findsText_eq_any attributes search row).symm
  rw [if_neg htext] at h ⊢
  by_cases hexpr : Expression.isKey key
  · rw [if_pos hexpr] at h ⊢
    obtain ⟨e, he, rfl⟩ := map_eq_ok.mp h
    simp only [expressionHolds, he, formHolds, Judge.passes, judgeClause,
      Expression.evaluate_unlabelled (hu.expression he)]
  rw [if_neg hexpr] at h ⊢
  by_cases hop : Expression.isOperatorKey key
  · rw [if_pos hop] at h
    cases h
  rw [if_neg hop] at h
  obtain ⟨relation, hrelation, h⟩ := bind_eq_ok.mp h
  rw [QueryError.of_ofSchema hrelation]
  cases relation with
  | toMany target back => cases h
  | pointer p =>
    cases h
    rfl
  | column =>
    dsimp only at h ⊢
    cases value with
    | obj operators =>
      dsimp only at h
      split at h <;> rename_i hany <;> cases h
      · have hoperators : hasOperators operators = true := hany
        simp only [formHolds, absenceHolds, conditionHolds, hoperators, Bool.true_and, if_true]
      · have hoperators : hasOperators operators = false := Bool.not_eq_true _ ▸ hany
        simp only [formHolds, equal_passes, absenceHolds, conditionHolds, hoperators,
          Bool.false_and, Bool.or_false, Bool.false_eq_true, if_false]
    | null | bool _ | num _ | str _ | arr _ =>
      cases h
      simp only [formHolds, equal_passes, absenceHolds, conditionHolds]

/-- A clause of a form has no labels, and the judgement of a row is the reading. -/
theorem compileForm_reading {form : ClauseForm} {clause : Clause}
    (hvalue : value.Throughout (CompilesToReading schema v)) (hu : Unlabelled value)
    (hform : clauseForm schema entity key value = .ok form)
    (h : compileForm schema entity obscure site form = .ok clause) :
    ownLabelsClause clause = [] ∧ ∀ row, judgeClause v obscure clause row =
      .known (formHolds schema v obscure entity form row) := by
  have hheld := value_of_clauseForm hform
  cases form with
  | junction stop items =>
    obtain ⟨parts, hparts, rfl⟩ := map_eq_ok.mp h
    rw [hheld] at hvalue hu
    obtain ⟨hlabels, hjudge⟩ := compileItems_reading (fun x hx => (hvalue.item hx).self)
      (fun x hx => hu.item hx) hparts
    have hjunction : ownLabelsClause (junction stop parts) = [] ∧ ∀ row,
        judgeClause v obscure (junction stop parts) row =
          Judge.join stop (judgeParts v parts row) := by
      cases stop <;> exact ⟨hlabels, fun _ => rfl⟩
    refine ⟨hjunction.1, fun row => ?_⟩
    rw [hjunction.2, hjudge, Judge.join_known]
    rfl
  | not document =>
    obtain ⟨part, hpart, rfl⟩ := map_eq_ok.mp h
    rw [hheld] at hvalue hu
    obtain ⟨hlabels, hjudge⟩ := hvalue.self hu hpart
    refine ⟨hlabels, fun row => ?_⟩
    rw [judgeClause, hjudge]
    rfl
  | plain plain =>
    cases h
    refine ⟨by cases hheld <;> rfl, fun row => (plain_decided hu hheld row).eq_known⟩
  | tests attr operators =>
    obtain ⟨tests, htests, rfl⟩ := map_eq_ok.mp h
    rw [hheld.2] at hvalue hu
    obtain ⟨hjudge, habsent⟩ := compileTests_reading obscure
      (fun _ hmem => hvalue.field hmem) (fun _ hmem => hu.field hmem) htests
    refine ⟨rfl, fun row => ?_⟩
    rw [judgeClause, formHolds]
    cases Fields.get? row attr with
    | none =>
      dsimp only
      rw [habsent]
    | some found =>
      dsimp only
      rw [hjudge, Judge.join_known, Judge.many_false, operatorsHold_eq_all, List.all_map]
      rfl
  | relation p document =>
    obtain ⟨part, hpart, rfl⟩ := map_eq_ok.mp h
    rw [hheld] at hvalue hu
    obtain ⟨hlabels, hjudge⟩ := hvalue.self hu hpart
    refine ⟨hlabels, fun row => ?_⟩
    rw [judgeClause, formHolds]
    cases v.follow p row with
    | found target => exact hjudge target
    | elsewhere => rfl
    | unset | missing =>
      simp only [obscureLabels_eq_foldl, hlabels, List.foldl_nil, ite_self]
      rfl

theorem compileFields_reading {fields : List (String × Json)} {clauses : List Clause}
    (hfields : ∀ field ∈ fields, field.2.Throughout (CompilesToReading schema v))
    (hu : ∀ field ∈ fields, Unlabelled field.2) (hkeys : ∀ field ∈ fields, field.1 ≠ "#id")
    (h : compileFields schema entity obscure site index fields = .ok clauses) :
    ownLabelsClauses clauses = [] ∧ ∀ row, judgeClauses v obscure clauses row =
      (fields.map fun field => fieldHolds schema v obscure entity field row).map .known := by
  induction fields generalizing index clauses with
  | nil =>
    cases h
    exact ⟨rfl, fun _ => rfl⟩
  | cons field rest ih =>
    obtain ⟨hvalue, hrest⟩ := List.forall_mem_cons.mp hfields
    obtain ⟨huvalue, hurest⟩ := List.forall_mem_cons.mp hu
    obtain ⟨hkey, hkeysRest⟩ := List.forall_mem_cons.mp hkeys
    obtain ⟨key, value⟩ := field
    rw [compileFields_cons hkey] at h
    obtain ⟨clause, hclause, h⟩ := bind_eq_ok.mp h
    obtain ⟨clauses, hclauses, rfl⟩ := map_eq_ok.mp h
    obtain ⟨form, hform, hclause⟩ := bind_eq_ok.mp hclause
    obtain ⟨hlabels, hjudge⟩ := compileForm_reading hvalue huvalue hform hclause
    obtain ⟨hlabelsRest, hjudgeRest⟩ := ih hrest hurest hkeysRest hclauses
    refine ⟨by rw [ownLabelsClauses, hlabels, hlabelsRest]; rfl, fun row => ?_⟩
    rw [judgeClauses, hjudge, hjudgeRest, ← fieldHolds_of_form huvalue hform]
    rfl

theorem compile_reading (document : Json) : CompilesToReading schema v document := by
  -- The hypothesis covers all that is nested in a field: filters of subqueries are in operands.
  induction document using Json.document_induction with
  | object fields ih =>
    intro hu entity obscure site f h
    rw [compile] at h
    obtain ⟨label, hlabel, h⟩ := bind_eq_ok.mp h
    obtain ⟨clauses, hclauses, h⟩ := bind_eq_ok.mp h
    cases h
    obtain ⟨rfl, hkeys⟩ := hu.label hlabel
    obtain ⟨hlabels, hjudge⟩ :=
      compileFields_reading ih (fun _ hmem => hu.field hmem) hkeys hclauses
    refine ⟨hlabels, fun row => ?_⟩
    rw [judge]
    dsimp only [Except.bind]
    rw [hjudge, Judge.join_known, Judge.many_false, holds, allHold_eq_all, List.all_map]
    rfl
  | other document hdocument =>
    intro hu entity obscure site f h
    cases document with
    | obj fields => exact absurd rfl (hdocument fields)
    | _ => cases h

/-- The evaluation of a filter without labels does not fail. Whatever rows were checked before and
whatever labels are bound, it finds whether the document holds of the row, and binds nothing. -/
theorem evaluate_holds {f : Filter} (hf : compile schema entity obscure [] document = .ok f)
    (hu : Unlabelled document) (v : View) (earlier : List (Bindings × Row)) (bindings : Bindings)
    (row : Row) : ∃ m, exec (f.evaluate v row) ⟨bindings, f.memoAfter v earlier⟩ =
      (.ok (.known (holds schema v obscure entity document row)), ⟨bindings, m⟩) := by
  have hd := distinct_of_compile hf
  have hsimulates := evaluate_simulates (v := v) hd f (fun _ hq => hq) row
  have h := hsimulates bindings _ (memoAfter_sound f hd v earlier)
  rw [(compile_reading document hu hf).2 row, Judge.known] at h
  generalize exec (f.evaluate v row) ⟨bindings, f.memoAfter v earlier⟩ = result at h ⊢
  cases h with
  | ok _ _ m _ => exact ⟨m, rfl⟩

/-- A task of somebody else than the boss, owned by one of the users whose name begins with `a`. -/
theorem evaluate_holds_owner :
    let task : Entity :=
      { attributes := Std.ExtTreeMap.ofList
          [("owner", { type := .ref "user" }), ("title", { type := .string })] compare }
    let user : Entity :=
      { attributes := Std.ExtTreeMap.ofList [("name", { type := .string })] compare }
    let schema : Schema :=
      { entities := Std.ExtTreeMap.ofList [("task", task), ("user", user)] compare }
    let named : Json := .obj [("name", .obj [("$startsWith", .str "a")])]
    let users : Json := .obj
      [("entity", .str "user"), ("data", .obj [("id", .bool true)]), ("filter", named)]
    let document : Json := .obj
      [("$not", .obj [("owner", .obj [("name", .str "boss")])]),
        ("$or", .arr [.obj [("ownerId", .obj [("$in", users)])], .obj []]),
        ("$expr", .obj [("$eq", .arr [.obj [("#attr", .str "title")], .str "x"])])]
    let owner : Row := [("id", .str "u"), ("name", .str "ann")]
    let row : Row := [("id", .str "t"), ("ownerId", .str "u"), ("title", .str "x")]
    let rows : RowMap Row := Std.ExtTreeMap.ofList [(RowKey.mk "user" "u", owner)] RowKey.order
    let v : View := { schema, rows }
    ∃ f, compile schema "task" false [] document = .ok f ∧ Unlabelled document ∧
      ∃ m, exec (f.evaluate v row) ⟨{}, f.memoAfter v [({}, row)]⟩ =
        (.ok (.known true), ⟨{}, m⟩) := by
  intro task user schema named users document owner row rows v
  have hf : ∃ f, compile schema "task" false [] document = .ok f := ⟨_, rfl⟩
  obtain ⟨f, hf⟩ := hf
  have hu : Unlabelled document := ⟨by decide, by decide⟩
  have hholds : holds schema v false "task" document row = true := by decide
  obtain ⟨m, hm⟩ := evaluate_holds hf hu v [({}, row)] {} row
  rw [hholds] at hm
  exact ⟨f, hf, hu, m, hm⟩

end Filter

end EntityStore
