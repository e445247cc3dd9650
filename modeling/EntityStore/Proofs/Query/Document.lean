import EntityStore.Proofs.Query.Meaning
import EntityStore.Query.Nesting

/-! The meaning of a document. Compiled wherever it stands, a document means the same
(`Filter.compile_meaning`). So the meaning of a filter object is put together from the meanings of
its fields, each taken for itself (`Filter.documentMeaning_obj`). -/

namespace EntityStore

section

variable {ε α β : Type}

theorem map_map_cons (f : α → β) (x : Except ε α) (xs : Except ε (List α)) :
    (x.bind fun a => xs.map (a :: ·)).map (List.map f) =
      (x.map f).bind fun b => (xs.map (List.map f)).map (b :: ·) := by
  cases x <;> cases xs <;> rfl

end

namespace Filter

/-- The meaning of a document. -/
def documentMeaning (schema : Schema) (entity : String) (obscure : Bool) (document : Json) :
    Except QueryError (Meaning Row) := (compile schema entity obscure [] document).map meaning

/-- The meaning of the filter of a subquery, if it has one. -/
def innerMeaning (schema : Schema) (entity : String) : Option Json → Except QueryError (Meaning Row)
  | none => .ok empty.meaning
  | some document => documentMeaning schema entity false document

/-- Whether a subquery is correlated. -/
def correlated (fields : List (String × Json)) : Bool :=
  ((Fields.get? fields "filter").map isCorrelated).getD false

/-- The meaning of a subquery. -/
def subqueryMeaning (schema : Schema) (fields : List (String × Json)) :
    Except QueryError (Meaning Json) :=
  (subqueryColumn schema fields).bind fun column =>
    (innerMeaning schema column.1 (Fields.get? fields "filter")).map
      (Meaning.candidates column.1 column.2 (correlated fields))

/-- The meaning of the operand of `$in` or `$nin`. -/
def operandMeaning (schema : Schema) (name attr : String) : Json → Except QueryError (Meaning Json)
  | .obj fields => (subqueryMeaning schema fields).mapError (subqueryError name attr)
  | operand => (compileCandidates schema name attr [] operand).map candidatesMeaning

/-- The meaning of an operator of an attribute. -/
def operatorMeaning (schema : Schema) (attr : String) (obscure : Bool) (operator : String × Json) :
    Except QueryError (Meaning (Option Json)) :=
  if operator.1 = "$in" ∨ operator.1 = "$nin" then
    (operandMeaning schema operator.1 attr operator.2).map
      (Meaning.membership obscure (operator.1 ≠ "$in"))
  else (plainTest operator.1 attr operator.2).map (testMeaning obscure)

/-- The meaning of a clause of a form. -/
def formMeaning (schema : Schema) (entity : String) (obscure : Bool) :
    ClauseForm → Except QueryError (Meaning Row)
  | .junction stop items =>
    (items.mapM (documentMeaning schema entity obscure)).map (Meaning.many stop)
  | .not document => (documentMeaning schema entity obscure document).map Meaning.negate
  | .plain clause => .ok (clauseMeaning obscure clause)
  | .tests attr operators =>
    ((operators.mapM (operatorMeaning schema attr obscure)).map (Meaning.many false)).map
      (Meaning.ofAttribute attr)
  | .relation p document =>
    (documentMeaning schema p.target obscure document).map (Meaning.follow p obscure)

/-- The meaning of a field of a filter object. -/
def fieldMeaning (schema : Schema) (entity : String) (obscure : Bool) (field : String × Json) :
    Except QueryError (Meaning Row) :=
  (clauseForm schema entity field.1 field.2).bind (formMeaning schema entity obscure)

/-- The fields of a filter object that make clauses. -/
def clauseFields (fields : List (String × Json)) : List (String × Json) :=
  fields.filter fun field => field.1 ≠ "#id"

/-- A document means the same wherever it is compiled. -/
def MeansAnywhere (schema : Schema) (document : Json) : Prop :=
  ∀ entity obscure site, (compile schema entity obscure site document).map meaning =
    documentMeaning schema entity obscure document

variable {schema : Schema} {entity attr name : String} {obscure : Bool}

theorem compileItems_meaning {items : List Json} (h : ∀ x ∈ items, MeansAnywhere schema x)
    (site : Site) (index : Nat) :
    (compileItems schema entity obscure site index items).map (List.map meaning) =
      items.mapM (documentMeaning schema entity obscure) := by
  induction items generalizing index with
  | nil => rfl
  | cons x xs ih =>
    obtain ⟨hx, hxs⟩ := List.forall_mem_cons.mp h
    rw [compileItems_cons, map_map_cons, hx, ih hxs, mapM_cons]

theorem compileCandidates_meaning {operand : Json}
    (h : operand.Throughout (MeansAnywhere schema))
    (site : Site) :
    (compileCandidates schema name attr site operand).map candidatesMeaning =
      operandMeaning schema name attr operand := by
  cases operand with
  | obj fields =>
    have hinner (entity : String) :
        (compileInner schema entity site (Fields.get? fields "filter")).map meaning =
          innerMeaning schema entity (Fields.get? fields "filter") := by
      cases hget : Fields.get? fields "filter" with
      | none => rfl
      | some document => exact (h.field (Fields.mem_of_get? hget)).self entity false site
    rw [compileCandidates_obj, operandMeaning, subqueryMeaning]
    cases subqueryColumn schema fields with
    | error e => rfl
    | ok column =>
      dsimp only [Except.bind]
      rw [← hinner]
      cases compileInner schema column.1 site (Fields.get? fields "filter") <;> rfl
  | _ => rfl

theorem compileTest_meaning {operand : Json}
    (h : operand.Throughout (MeansAnywhere schema))
    (site : Site) :
    (compileTest schema attr site name operand).map (testMeaning obscure) =
      operatorMeaning schema attr obscure (name, operand) := by
  unfold compileTest operatorMeaning
  by_cases hin : name = "$in" ∨ name = "$nin"
  · rw [if_pos hin, if_pos hin, ← compileCandidates_meaning h site]
    cases compileCandidates schema name attr site operand with
    | error e => rfl
    | ok candidates =>
      refine congrArg Except.ok ?_
      rw [← testMeaning_membership]
      rcases hin with rfl | rfl <;> rfl
  · rw [if_neg hin, if_neg hin]

theorem compileTests_meaning {operators : List (String × Json)}
    (h : ∀ operator ∈ operators, operator.2.Throughout (MeansAnywhere schema))
    (site : Site) (index : Nat) :
    (compileTests schema attr site index operators).map (List.map (testMeaning obscure)) =
      operators.mapM (operatorMeaning schema attr obscure) := by
  induction operators generalizing index with
  | nil => rfl
  | cons operator rest ih =>
    obtain ⟨hoperand, hrest⟩ := List.forall_mem_cons.mp h
    rw [compileTests_cons, map_map_cons, compileTest_meaning hoperand, mapM_cons, ih hrest]

theorem compileField_meaning {key : String} {value : Json}
    (h : value.Throughout (MeansAnywhere schema))
    (site : Site) :
    (compileField schema entity obscure site key value).map (clauseMeaning obscure) =
      fieldMeaning schema entity obscure (key, value) := by
  unfold compileField fieldMeaning
  cases hform : clauseForm schema entity key value with
  | error e => rfl
  | ok form =>
    have hheld := value_of_clauseForm hform
    dsimp only [Except.bind]
    cases form with
    | junction stop items =>
      rw [hheld] at h
      have hitems : ∀ x ∈ items, MeansAnywhere schema x := fun x hx => (h.item hx).self
      rw [compileForm, formMeaning, ← compileItems_meaning hitems site 0]
      cases compileItems schema entity obscure site 0 items with
      | error e => rfl
      | ok parts => exact congrArg Except.ok (clauseMeaning_junction stop parts)
    | not document =>
      rw [hheld] at h
      rw [compileForm, formMeaning, ← h.self entity obscure site]
      cases compile schema entity obscure site document <;> rfl
    | plain plain => rfl
    | tests attr operators =>
      rw [hheld.2] at h
      rw [compileForm, formMeaning,
        ← compileTests_meaning (fun _ hmem => h.field hmem) site 0]
      cases compileTests schema attr site 0 operators with
      | error e => rfl
      | ok tests => exact congrArg Except.ok (clauseMeaning_attribute attr tests)
    | relation p document =>
      rw [hheld] at h
      rw [compileForm, formMeaning, ← h.self p.target obscure site]
      cases compile schema p.target obscure site document <;> rfl

theorem compileFields_meaning {fields : List (String × Json)}
    (h : ∀ field ∈ fields, field.2.Throughout (MeansAnywhere schema))
    (site : Site) (index : Nat) :
    (compileFields schema entity obscure site index fields).map (List.map (clauseMeaning obscure)) =
      (clauseFields fields).mapM (fieldMeaning schema entity obscure) := by
  induction fields generalizing index with
  | nil => rfl
  | cons field rest ih =>
    obtain ⟨hvalue, hrest⟩ := List.forall_mem_cons.mp h
    obtain ⟨key, value⟩ := field
    by_cases hk : key = "#id"
    · subst hk
      exact (congrArg _ (compileFields_label value rest)).trans (ih hrest (index + 1))
    · have hcons : clauseFields ((key, value) :: rest) = (key, value) :: clauseFields rest :=
        List.filter_cons_of_pos (decide_eq_true hk)
      rw [compileFields_cons hk, map_map_cons, compileField_meaning hvalue, ih hrest, hcons,
        mapM_cons]

theorem compile_obj_meaning {fields : List (String × Json)}
    (h : ∀ field ∈ fields, field.2.Throughout (MeansAnywhere schema))
    (site : Site) : (compile schema entity obscure site (.obj fields)).map meaning =
      (label? fields).bind fun label =>
        (((clauseFields fields).mapM (fieldMeaning schema entity obscure)).map
          (Meaning.many false)).map (Meaning.labelled label) := by
  rw [compile]
  cases label? fields with
  | error e => rfl
  | ok label =>
    dsimp only [Except.bind, bind]
    rw [← compileFields_meaning h site 0]
    cases compileFields schema entity obscure site 0 fields with
    | error e => rfl
    | ok clauses => exact congrArg Except.ok (meaning_mk label clauses)

/-- A document means the same wherever it is compiled. -/
theorem compile_meaning (document : Json) : MeansAnywhere schema document := by
  induction document using Json.document_induction with
  | object fields ih =>
    intro entity obscure site
    rw [documentMeaning, compile_obj_meaning ih, compile_obj_meaning ih]
  | other document hdocument =>
    cases document with
    | obj fields => exact absurd rfl (hdocument fields)
    | _ => exact fun _ _ _ => rfl

/-- The meaning of a filter object is put together from the meanings of its fields. -/
theorem documentMeaning_obj (fields : List (String × Json)) :
    documentMeaning schema entity obscure (.obj fields) =
      (label? fields).bind fun label =>
        (((clauseFields fields).mapM (fieldMeaning schema entity obscure)).map
          (Meaning.many false)).map (Meaning.labelled label) :=
  compile_obj_meaning (fun _ _ document _ => compile_meaning document) []

end Filter

end EntityStore
