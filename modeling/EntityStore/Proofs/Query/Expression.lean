import Mathlib.Data.List.Forall2
import EntityStore.Query.Condition

/-! Expressions in two phases. What the first phase leaves of an expression reads the labels that
were not bound (`Expression.unbound_residual`) and has the value that the whole expression has once
these are bound (`Expression.value_residual`). Both relate the two by a case for each form of an
expression (`Expression.ResidualCases`). So an expression that waits is settled as if it had waited
from the start (`Expression.settle_residual`). -/

namespace EntityStore

namespace Expression

/-- The labels that an expression reads, from left to right with repeats. -/
def labels (e : Expression) : List String := e.unbound {}

mutual

/-- The value of an expression, where a label without a row reads as `null`. -/
def value (row : Option Row) (rows : String → Option Row) : Expression → Json
  | .const value => value
  | .attr name => (row.bind (Fields.get? · name)).getD .null
  | .ref label name => ((rows label).bind (Fields.get? · name)).getD .null
  | .unary op arg => op.apply (value row rows arg)
  | .multi op args => op.apply (valueList row rows args)

/-- The values of arguments. -/
def valueList (row : Option Row) (rows : String → Option Row) : List Expression → List Json
  | [] => []
  | e :: es => value row rows e :: valueList row rows es

end

/-- What the first phase leaves of an expression. -/
def residual (row : Option Row) (bindings : Bindings) (e : Expression) : Expression :=
  (e.evaluate row bindings).toExpression

variable {row row' : Option Row} {bindings bindings' : Bindings} {rows rows' : String → Option Row}

/-! ## The labels that wait -/

mutual

theorem unbound_eq_filter (bindings : Bindings) : (e : Expression) →
    e.unbound bindings = e.labels.filter fun label => !bindings.contains label
  | .const _ | .attr _ => rfl
  | .ref label name => by
    have hlabels : (ref label name).labels = [label] := rfl
    rw [hlabels, unbound]
    cases h : bindings.contains label <;> simp [h]
  | .unary _ arg => unbound_eq_filter bindings arg
  | .multi _ args => unboundList_eq_filter bindings args

theorem unboundList_eq_filter (bindings : Bindings) : (es : List Expression) →
    unboundList bindings es = (unboundList {} es).filter fun label => !bindings.contains label
  | [] => rfl
  | e :: es => by
    rw [unboundList, unboundList, List.filter_append, unbound_eq_filter bindings e,
      unboundList_eq_filter bindings es]
    rfl

end

mutual

/-- An expression has a value as soon as all its labels are bound, and not before. -/
theorem evaluate_cases (row : Option Row) (bindings : Bindings) : (e : Expression) →
    (e.unbound bindings = [] ∧ e.evaluate row bindings = .resolved (e.value row bindings.get?)) ∨
      (e.unbound bindings ≠ [] ∧ ∃ rest, e.evaluate row bindings = .pending rest)
  | .const _ | .attr _ => .inl ⟨rfl, rfl⟩
  | .ref label name => by
    rw [unbound, evaluate, value, Bindings.contains, Fields.contains, ← Bindings.get?]
    cases bindings.get? label with
    | none => exact .inr ⟨nofun, _, rfl⟩
    | some bound => exact .inl ⟨rfl, rfl⟩
  | .unary op arg => by
    rw [unbound, evaluate, value]
    rcases evaluate_cases row bindings arg with ⟨h, he⟩ | ⟨h, rest, he⟩
    · exact .inl ⟨h, by rw [he]⟩
    · exact .inr ⟨h, _, by rw [he]⟩
  | .multi op args => by
    rw [unbound, evaluate, value]
    rcases evaluateList_cases row bindings args with ⟨h, he⟩ | ⟨h, he⟩
    · exact .inl ⟨h, by rw [he]⟩
    · exact .inr ⟨h, _, by rw [he]⟩

theorem evaluateList_cases (row : Option Row) (bindings : Bindings) : (es : List Expression) →
    (unboundList bindings es = [] ∧ (evaluateList row bindings es).mapM Evaluation.value? =
        some (valueList row bindings.get? es)) ∨
      (unboundList bindings es ≠ [] ∧
        (evaluateList row bindings es).mapM Evaluation.value? = none)
  | [] => .inl ⟨rfl, rfl⟩
  | e :: es => by
    rw [unboundList, evaluateList, valueList, List.mapM_cons]
    rcases evaluate_cases row bindings e with ⟨h, he⟩ | ⟨h, rest, he⟩
    · rcases evaluateList_cases row bindings es with ⟨hs, hes⟩ | ⟨hs, hes⟩
      · exact .inl ⟨by rw [h, hs]; rfl, by rw [he, hes]; rfl⟩
      · exact .inr ⟨by rw [h]; exact hs, by rw [he, hes]; rfl⟩
    · exact .inr ⟨fun hnil => h (List.append_eq_nil_iff.mp hnil).1, by rw [he]; rfl⟩

end

theorem evaluate_of_bound {e : Expression} (h : e.unbound bindings = []) :
    e.evaluate row bindings = .resolved (e.value row bindings.get?) := by
  rcases evaluate_cases row bindings e with ⟨-, he⟩ | ⟨hne, -⟩
  · exact he
  · exact absurd h hne

theorem mem_unbound {e : Expression} {label : String} : label ∈ e.unbound bindings ↔
    label ∈ e.labels ∧ bindings.contains label = false := by
  rw [unbound_eq_filter, List.mem_filter, Bool.not_eq_true']

theorem unbound_eq_nil_iff {e : Expression} :
    e.unbound bindings = [] ↔ ∀ label ∈ e.labels, bindings.contains label = true := by
  rw [unbound_eq_filter, List.filter_eq_nil_iff]
  simp

mutual

theorem value_congr (row : Option Row) : (e : Expression) →
    (∀ label ∈ e.labels, rows label = rows' label) → e.value row rows = e.value row rows'
  | .const _, _ | .attr _, _ => rfl
  | .ref label name, h => by rw [value, value, h label (List.mem_singleton_self label)]
  | .unary op arg, h => by rw [value, value, value_congr row arg h]
  | .multi op args, h => by rw [value, value, valueList_congr row args h]

theorem valueList_congr (row : Option Row) : (es : List Expression) →
    (∀ label ∈ unboundList {} es, rows label = rows' label) →
      valueList row rows es = valueList row rows' es
  | [], _ => rfl
  | e :: es, h => by
    rw [valueList, valueList, value_congr row e fun label hl => h label (List.mem_append_left _ hl),
      valueList_congr row es fun label hl => h label (List.mem_append_right _ hl)]

end

mutual

/-- The first phase depends on the labels of the expression alone. -/
theorem evaluate_congr (row : Option Row) : (e : Expression) →
    (∀ label ∈ e.labels, bindings.get? label = bindings'.get? label) →
      e.evaluate row bindings = e.evaluate row bindings'
  | .const _, _ | .attr _, _ => rfl
  | .ref label name, h => by rw [evaluate, evaluate, h label (List.mem_singleton_self label)]
  | .unary op arg, h => by rw [evaluate, evaluate, evaluate_congr row arg h]
  | .multi op args, h => by rw [evaluate, evaluate, evaluateList_congr row args h]

theorem evaluateList_congr (row : Option Row) : (es : List Expression) →
    (∀ label ∈ unboundList {} es, bindings.get? label = bindings'.get? label) →
      evaluateList row bindings es = evaluateList row bindings' es
  | [], _ => rfl
  | e :: es, h => by
    rw [evaluateList, evaluateList,
      evaluate_congr row e fun label hl => h label (List.mem_append_left _ hl),
      evaluateList_congr row es fun label hl => h label (List.mem_append_right _ hl)]

end

/-! ## What the first phase leaves -/

/-- What the first phase leaves of arguments. -/
def residualList (row : Option Row) (bindings : Bindings) (es : List Expression) :
    List Expression := (evaluateList row bindings es).map Evaluation.toExpression

theorem residual_of_bound {e : Expression} (h : e.unbound bindings = []) :
    residual row bindings e = .const (e.value row bindings.get?) := by
  rw [residual, evaluate_of_bound h]
  rfl

theorem residual_ref {label name : String} (h : (ref label name).unbound bindings ≠ []) :
    residual row bindings (.ref label name) = .ref label name := by
  rw [unbound, Bindings.contains, Fields.contains, ← Bindings.get?] at h
  rw [residual, evaluate]
  cases hget : bindings.get? label with
  | none => rfl
  | some bound =>
    rw [hget] at h
    exact absurd rfl h

theorem residual_unary {op : UnaryOp} {arg : Expression} (h : arg.unbound bindings ≠ []) :
    residual row bindings (.unary op arg) = .unary op (residual row bindings arg) := by
  rw [residual, residual, evaluate]
  rcases evaluate_cases row bindings arg with ⟨hnil, -⟩ | ⟨-, rest, he⟩
  · exact absurd hnil h
  · rw [he]
    rfl

theorem residual_multi {op : MultiOp} {args : List Expression}
    (h : unboundList bindings args ≠ []) :
    residual row bindings (.multi op args) = .multi op (residualList row bindings args) := by
  rw [residual, residualList, evaluate]
  rcases evaluateList_cases row bindings args with ⟨hnil, -⟩ | ⟨-, he⟩
  · exact absurd hnil h
  · rw [he]
    rfl

/-- The cases of a relation between an expression and what the first phase leaves of it. -/
structure ResidualCases (row : Option Row) (bindings : Bindings)
    (P : Expression → Expression → Prop) : Prop where
  bound : ∀ {e}, e.unbound bindings = [] → P e (.const (e.value row bindings.get?))
  ref : ∀ label name, P (.ref label name) (.ref label name)
  unary : ∀ op {arg rest}, P arg rest → P (.unary op arg) (.unary op rest)
  multi : ∀ op {args rests}, List.Forall₂ P args rests → P (.multi op args) (.multi op rests)

variable {P : Expression → Expression → Prop}

mutual

theorem ResidualCases.residual (H : ResidualCases row bindings P) : (e : Expression) →
    P e (residual row bindings e)
  | .const _ | .attr _ => H.bound rfl
  | .ref label name => by
    by_cases hb : (Expression.ref label name).unbound bindings = []
    · rw [residual_of_bound hb]
      exact H.bound hb
    · rw [residual_ref hb]
      exact H.ref label name
  | .unary op arg => by
    by_cases hb : arg.unbound bindings = []
    · rw [residual_of_bound (e := .unary op arg) hb]
      exact H.bound hb
    · rw [residual_unary hb]
      exact H.unary op (H.residual arg)
  | .multi op args => by
    by_cases hb : unboundList bindings args = []
    · rw [residual_of_bound (e := .multi op args) hb]
      exact H.bound hb
    · rw [residual_multi hb]
      exact H.multi op (H.residualList args)

theorem ResidualCases.residualList (H : ResidualCases row bindings P) : (es : List Expression) →
    List.Forall₂ P es (residualList row bindings es)
  | [] => .nil
  | e :: es => .cons (H.residual e) (H.residualList es)

end

theorem residualCases_labels :
    ResidualCases row bindings fun e rest => rest.labels ⊆ e.labels where
  bound _ := List.nil_subset _
  ref _ _ := List.Subset.refl _
  unary _ _ _ ih := ih
  multi op args rests h := by
    change unboundList {} rests ⊆ unboundList {} args
    induction h with
    | nil => exact List.Subset.refl _
    | cons he _ ih =>
      rw [unboundList, unboundList]
      exact List.append_subset.mpr ⟨List.Subset.trans he (List.subset_append_left _ _),
        List.Subset.trans ih (List.subset_append_right _ _)⟩

theorem labels_residual (row : Option Row) (bindings : Bindings) (e : Expression) :
    (residual row bindings e).labels ⊆ e.labels := residualCases_labels.residual e

/-- The labels that are bound stay bound. -/
def Keeps (bindings bindings' : Bindings) : Prop :=
  ∀ label row, bindings.get? label = some row → bindings'.get? label = some row

theorem Keeps.contains (h : Keeps bindings bindings') {label : String}
    (hl : bindings.contains label = true) : bindings'.contains label = true := by
  obtain ⟨row, hrow⟩ := Option.isSome_iff_exists.mp hl
  exact Option.isSome_iff_exists.mpr ⟨row, h label row hrow⟩

theorem Keeps.unbound_eq_nil (h : Keeps bindings bindings') {e : Expression}
    (he : e.unbound bindings = []) : e.unbound bindings' = [] :=
  unbound_eq_nil_iff.mpr fun label hl => h.contains (unbound_eq_nil_iff.mp he label hl)

theorem Keeps.residualCases_unbound (h : Keeps bindings bindings') :
    ResidualCases row bindings fun e rest => rest.unbound bindings' = e.unbound bindings' where
  bound hb := (h.unbound_eq_nil hb).symm
  ref _ _ := rfl
  unary _ _ _ ih := ih
  multi op args rests hs := by
    rw [unbound, unbound]
    induction hs with
    | nil => rfl
    | cons he _ ih => rw [unboundList, unboundList, he, ih]

theorem unbound_residual (h : Keeps bindings bindings') (row : Option Row) (e : Expression) :
    (residual row bindings e).unbound bindings' = e.unbound bindings' :=
  h.residualCases_unbound.residual e

theorem value_of_bound (h : Keeps bindings bindings') {e : Expression}
    (he : e.unbound bindings = []) : e.value row bindings'.get? = e.value row bindings.get? := by
  refine value_congr row e fun label hl => ?_
  obtain ⟨bound, hbound⟩ := Option.isSome_iff_exists.mp (unbound_eq_nil_iff.mp he label hl)
  exact (h label bound hbound).trans hbound.symm

theorem Keeps.residualCases_value (h : Keeps bindings bindings') (row' : Option Row) :
    ResidualCases row bindings fun e rest =>
      rest.value row' bindings'.get? = e.value row bindings'.get? where
  bound hb := (value_of_bound h hb).symm
  ref _ _ := rfl
  unary _ _ _ ih := by rw [value, value, ih]
  multi op args rests hs := by
    rw [value, value]
    congr 1
    induction hs with
    | nil => rfl
    | cons he _ ih => rw [valueList, valueList, he, ih]

/-- The row at hand is read in the first phase, so it is not read again. -/
theorem value_residual (h : Keeps bindings bindings') (row row' : Option Row) (e : Expression) :
    (residual row bindings e).value row' bindings'.get? = e.value row bindings'.get? :=
  (h.residualCases_value row').residual e

/-! ## The second phase -/

theorem resolve_eq (e : Expression) (bindings : Bindings) :
    e.resolve bindings = match e.unbound bindings with
      | [] => .ok (e.value none bindings.get?)
      | label :: _ => .error (.unresolved label) := by
  rcases evaluate_cases none bindings e with ⟨hnil, he⟩ | ⟨hne, rest, he⟩
  · rw [resolve, he, hnil]
  · have hrest : residual none bindings e = rest := by
      rw [residual, he]
      rfl
    have hunbound := unbound_residual (fun _ _ h => h : Keeps bindings bindings) none e
    rw [hrest] at hunbound
    rw [resolve, he]
    dsimp only
    rw [hunbound]
    cases hl : e.unbound bindings with
    | nil => exact absurd hl hne
    | cons label labels => rfl

/-- The truth value of an expression that waited for the final bindings from the start. -/
def settled (row : Option Row) (bindings : Bindings) (e : Expression) :
    Except QueryError (Option Bool) :=
  match e.unbound bindings with
  | [] => .ok (some (e.value row bindings.get?).truthy)
  | label :: labels =>
    if (label :: labels).all bindings.isObscured then .ok none else .error (.unresolved label)

theorem settle_expr (bindings : Bindings) (e : Expression) :
    (Condition.expr e).settle bindings = settled none bindings e := by
  rw [Condition.settle, resolve_eq, settled]
  cases e.unbound bindings with
  | nil => rfl
  | cons label labels =>
    cases h : (label :: labels).all bindings.isObscured <;> simp [h, Except.map]

theorem settle_residual (h : Keeps bindings bindings') (row : Option Row) (e : Expression) :
    (Condition.expr (residual row bindings e)).settle bindings' = settled row bindings' e := by
  rw [settle_expr, settled, settled, unbound_residual h row e, value_residual h row none e]

end Expression

end EntityStore
