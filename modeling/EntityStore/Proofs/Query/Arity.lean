import Mathlib.Logic.Relation
import EntityStore.Proofs.Query.Parsing
import EntityStore.Proofs.Query.Phases

/-! The arguments of operators. An operator on two arguments takes them from their places in a list,
which fails where no argument stands (`Expression.checkedEvaluate`). Whoever reads an expression
counts the arguments of its operators, and a phase of evaluation keeps their number
(`Expression.Saturated`), so no operator ever fails in this way (`Expression.phases_in_bounds`). -/

namespace EntityStore

theorem exists_of_mem_forall₂ {α β : Type} {R : α → β → Prop} {xs : List α} {ys : List β}
    (h : List.Forall₂ R xs ys) {y : β} (hy : y ∈ ys) : ∃ x ∈ xs, R x y := by
  induction h with
  | nil => cases hy
  | cons hfirst _ ih =>
    rcases List.mem_cons.mp hy with rfl | hy
    · exact ⟨_, List.mem_cons_self, hfirst⟩
    · obtain ⟨x, hx, hxy⟩ := ih hy
      exact ⟨x, List.mem_cons_of_mem _ hx, hxy⟩

namespace MultiOp

variable {op : MultiOp} {args : List Json}

/-- The value of an operator, which is missing if the operator reads a place where no argument
stands. An operator on any number of arguments reads them one after another, and any other reads the
first two places. -/
def checkedApply (op : MultiOp) (args : List Json) : Option Json :=
  match op with
  | and | or | add | multiply | concat => some (op.apply args)
  | _ => do return op.applyBinary (← args[0]?) (← args[1]?)

/-- An operator reads past its arguments just when it is one on two and has fewer. -/
theorem checkedApply_eq_none_iff :
    op.checkedApply args = none ↔ op.isBinary = true ∧ args.length < 2 := by
  rcases args with _ | ⟨a, _ | ⟨b, rest⟩⟩ <;> cases op <;> simp [checkedApply, isBinary]

theorem checkedApply_eq (h : op.isBinary = true → args.length = 2) :
    op.checkedApply args = some (op.apply args) := by
  cases hbinary : op.isBinary with
  | true =>
    obtain ⟨a, b, rfl⟩ := List.length_eq_two.mp (h hbinary)
    cases op <;> rfl
  | false => cases op <;> first | rfl | cases hbinary

end MultiOp

/-- The values of evaluations, if none of them waits. -/
theorem Evaluation.mapM_value? (evaluated : List Evaluation) :
    evaluated.mapM value? =
      if evaluated.all (·.value?.isSome) then some (evaluated.filterMap value?) else none := by
  induction evaluated with
  | nil => rfl
  | cons first rest ih =>
    rw [List.mapM_cons, ih]
    cases first with
    | pending e => rfl
    | resolved value =>
      have hvalue : (resolved value).value? = some value := rfl
      rw [List.all_cons, List.filterMap_cons_some hvalue, hvalue]
      cases rest.all (·.value?.isSome) <;> rfl

namespace Expression

variable {row : Option Row} {bindings : Bindings} {e rest : Expression}

mutual

/-- The result of the first phase, which is missing if an operator reads a place where no argument
stands. An operator is applied to the values among what its arguments come to, as soon as these are
all values. -/
def checkedEvaluate (row : Option Row) (bindings : Bindings) : Expression → Option Evaluation
  | e@(.const _) | e@(.attr _) | e@(.ref ..) => some (e.evaluate row bindings)
  | .unary op arg => do
    match ← checkedEvaluate row bindings arg with
    | .resolved value => return .resolved (op.apply value)
    | .pending rest => return .pending (.unary op rest)
  | .multi op args => do
    let evaluated ← checkedEvaluateList row bindings args
    if evaluated.all (·.value?.isSome) then
      return .resolved (← op.checkedApply (evaluated.filterMap Evaluation.value?))
    else return .pending (.multi op (evaluated.map Evaluation.toExpression))

/-- The results of arguments. -/
def checkedEvaluateList (row : Option Row) (bindings : Bindings) :
    List Expression → Option (List Evaluation)
  | [] => some []
  | e :: es => do
    return (← checkedEvaluate row bindings e) :: (← checkedEvaluateList row bindings es)

end

/-- The result of the second phase, which is missing if an operator reads a place where no argument
stands. -/
def checkedResolve (e : Expression) (bindings : Bindings) : Option (Except QueryError Json) := do
  match ← e.checkedEvaluate none bindings with
  | .resolved value => return .ok value
  | .pending rest => return .error (.unresolved ((rest.unbound bindings).headD ""))

/-- Every operator in an expression has the arguments that it takes, two or at least one. -/
inductive Saturated : Expression → Prop where
  | const {value : Json} : Saturated (.const value)
  | attr {name : String} : Saturated (.attr name)
  | ref {label name : String} : Saturated (.ref label name)
  | unary {op : UnaryOp} {arg : Expression} : Saturated arg → Saturated (.unary op arg)
  | multi {op : MultiOp} {args : List Expression} (binary : op.isBinary = true → args.length = 2)
      (nary : op.isBinary = false → 1 ≤ args.length) (inside : ∀ arg ∈ args, Saturated arg) :
      Saturated (.multi op args)

/-- A phase of evaluation, against some row and some labels, leaves an expression of another. -/
def Leaves (e rest : Expression) : Prop := ∃ row bindings, e.evaluate row bindings = .pending rest

/-! ## Reading -/

theorem parseCases_saturated : ParseCases fun _ e => e.Saturated where
  const _ := .const
  attr _ := .attr
  ref _ _ := .ref
  unary _ _ _ _ _ ih := .unary ih
  multi op items args hcount hargs := by
    have hlength := hargs.length_eq
    refine .multi (fun hbinary => ?_) (fun hnary => ?_) fun arg harg => ?_
    · rw [MultiOp.accepts, if_pos hbinary, beq_iff_eq] at hcount
      omega
    · rw [MultiOp.accepts, hnary, if_neg Bool.false_ne_true, bne_iff_ne] at hcount
      omega
    · obtain ⟨_, -, hsaturated⟩ := exists_of_mem_forall₂ hargs harg
      exact hsaturated

/-! ## A phase -/

theorem residualCases_saturated :
    ResidualCases row bindings fun e rest => e.Saturated → rest.Saturated where
  bound _ _ := .const
  ref _ _ _ := .ref
  unary _ _ _ ih := fun | .unary harg => .unary (ih harg)
  multi op args rests hs := fun
    | .multi binary nary inside => by
      have hlength := hs.length_eq
      refine .multi (fun hbinary => ?_) (fun hnary => ?_) fun rest hrest => ?_
      · exact hlength ▸ binary hbinary
      · exact hlength ▸ nary hnary
      · obtain ⟨arg, harg, hkeeps⟩ := exists_of_mem_forall₂ hs hrest
        exact hkeeps (inside arg harg)

theorem Saturated.leaves (h : e.Saturated) (hleaves : Leaves e rest) : rest.Saturated := by
  obtain ⟨row, bindings, he⟩ := hleaves
  rw [← residual_of_pending he]
  exact residualCases_saturated.residual e h

theorem length_evaluateList (row : Option Row) (bindings : Bindings) (es : List Expression) :
    (evaluateList row bindings es).length = es.length := by
  induction es with
  | nil => rfl
  | cons e es ih => rw [evaluateList, List.length_cons, List.length_cons, ih]

theorem checkedEvaluateList_eq {es : List Expression}
    (h : ∀ e ∈ es, e.checkedEvaluate row bindings = some (e.evaluate row bindings)) :
    checkedEvaluateList row bindings es = some (evaluateList row bindings es) := by
  induction es with
  | nil => rfl
  | cons e es ih =>
    obtain ⟨he, hes⟩ := List.forall_mem_cons.mp h
    rw [checkedEvaluateList, evaluateList, he, ih hes]
    rfl

theorem Saturated.checkedEvaluate_eq (h : e.Saturated) (row : Option Row) (bindings : Bindings) :
    e.checkedEvaluate row bindings = some (e.evaluate row bindings) := by
  induction h with
  | const | attr | ref => rw [checkedEvaluate]
  | @unary op arg _ ih =>
    rw [checkedEvaluate, evaluate, ih]
    cases arg.evaluate row bindings <;> rfl
  | @multi op args binary _ _ ih =>
    rw [checkedEvaluate, evaluate, checkedEvaluateList_eq ih, Evaluation.mapM_value?,
      Option.bind_eq_bind, Option.bind_some]
    by_cases hall : (evaluateList row bindings args).all (·.value?.isSome)
    · -- The filter drops nothing, so the operator gets as many values as it has arguments.
      have hlength : ((evaluateList row bindings args).filterMap Evaluation.value?).length =
          args.length := by
        rw [List.filterMap_length_eq_length.mpr (List.all_eq_true.mp hall), length_evaluateList]
      have happly := MultiOp.checkedApply_eq fun hbinary => hlength.trans (binary hbinary)
      rw [if_pos hall, if_pos hall, happly]
      rfl
    · rw [if_neg hall, if_neg hall]
      rfl

/-- A comparison with a single argument reads past it. -/
example : (multi .eq [.const .null]).checkedEvaluate none {} = none := rfl

theorem Saturated.checkedResolve_eq (h : e.Saturated) (bindings : Bindings) :
    e.checkedResolve bindings = some (e.resolve bindings) := by
  rw [checkedResolve, h.checkedEvaluate_eq, resolve]
  cases e.evaluate none bindings <;> rfl

/-! ## Any number of phases -/

theorem Saturated.phases (h : e.Saturated) (hphases : Relation.ReflTransGen Leaves e rest) :
    rest.Saturated := by
  induction hphases with
  | refl => exact h
  | tail _ hleaves ih => exact ih.leaves hleaves

/-- Let any number of phases, with any rows and labels, leave `rest` of an expression that was read
from a document. Then every operator in `rest` has the arguments that it takes, two or at least one,
and neither phase reads an argument that does not exist. -/
theorem phases_in_bounds {document : Json} (h : parse document = .ok e)
    (hphases : Relation.ReflTransGen Leaves e rest) :
    rest.Saturated ∧
      (∀ row bindings, rest.checkedEvaluate row bindings = some (rest.evaluate row bindings)) ∧
      ∀ bindings, rest.checkedResolve bindings = some (rest.resolve bindings) := by
  have hsaturated := (parseCases_saturated.parse document h).phases hphases
  exact ⟨hsaturated, hsaturated.checkedEvaluate_eq, hsaturated.checkedResolve_eq⟩

/-- A comparison inside of two other operators waits for two labels, which are bound in different
phases. -/
theorem phases_in_bounds_labels :
    let name (label : String) : Json := .obj [("#refId", .str label), ("#refAttr", .str "name")]
    let document : Json := .obj [("$concat", .arr [.obj [("#attr", .str "name")],
      .obj [("$not", .obj [("$eq", .arr [name "a", name "b"])])]])]
    let e : Expression := .multi .concat [.attr "name",
      .unary .not (.multi .eq [.ref "a" "name", .ref "b" "name"])]
    let rest : Expression := .multi .concat [.const (.str "x"),
      .unary .not (.multi .eq [.const (.str "y"), .ref "b" "name"])]
    let bindings : Bindings := { rows := [("b", [("name", .str "z")])] }
    parse document = .ok e ∧ Relation.ReflTransGen Leaves e rest ∧ rest.Saturated ∧
      rest.checkedEvaluate none {} = some (.pending rest) ∧
      rest.checkedResolve bindings = some (.ok (.str "xtrue")) := by
  intro name document e rest bindings
  have hparse : parse document = .ok e := rfl
  -- The first phase has the row, the second one the first label.
  let waiting : Expression := .multi .concat [.const (.str "x"),
    .unary .not (.multi .eq [.ref "a" "name", .ref "b" "name"])]
  have hrow : Leaves e waiting := ⟨some [("name", .str "x")], {}, rfl⟩
  have hlabel : Leaves waiting rest := ⟨none, { rows := [("a", [("name", .str "y")])] }, rfl⟩
  have hphases : Relation.ReflTransGen Leaves e rest := .tail (.single hrow) hlabel
  obtain ⟨hsaturated, hfirst, hsecond⟩ := phases_in_bounds hparse hphases
  have hvalue : rest.resolve bindings = .ok (.str "xtrue") := rfl
  exact ⟨hparse, hphases, hsaturated, hfirst none {},
    (hsecond bindings).trans (congrArg some hvalue)⟩

end Expression

end EntityStore
