import EntityStore.Query.Expression.Basic
import EntityStore.Query.Bindings

/-! Evaluation of expressions in two phases.

`evaluate` computes what it can from the row at hand and the labels bound so far. A reference to a
label that is not bound yet leaves an expression in which everything else is folded into constants.
`resolve` tries such an expression once more against the final bindings. -/

namespace EntityStore

/-- The result of the first phase. -/
inductive Evaluation where
  | resolved (value : Json)
  /-- An expression that waits for a label. -/
  | pending (e : Expression)

/-- The value, if there is one. -/
def Evaluation.value? : Evaluation → Option Json
  | resolved value => some value
  | pending _ => none

/-- The result as an expression. -/
def Evaluation.toExpression : Evaluation → Expression
  | resolved value => .const value
  | pending e => e

namespace Expression

mutual

/-- Evaluates an expression against a row, if there is one, and the labels bound so far. -/
def evaluate (row : Option Row) (bindings : Bindings) : Expression → Evaluation
  | .const value => .resolved value
  | .attr name => .resolved ((row.bind (Fields.get? · name)).getD .null)
  | .ref label name =>
    match bindings.get? label with
    | some bound => .resolved ((Fields.get? bound name).getD .null)
    | none => .pending (.ref label name)
  | .unary op arg =>
    match evaluate row bindings arg with
    | .resolved value => .resolved (op.apply value)
    | .pending arg => .pending (.unary op arg)
  | .multi op args =>
    let evaluated := evaluateList row bindings args
    match evaluated.mapM Evaluation.value? with
    | some values => .resolved (op.apply values)
    | none => .pending (.multi op (evaluated.map Evaluation.toExpression))

/-- Evaluates arguments one by one. -/
def evaluateList (row : Option Row) (bindings : Bindings) : List Expression → List Evaluation
  | [] => []
  | e :: es => evaluate row bindings e :: evaluateList row bindings es

end

mutual

/-- The labels an expression reads that are not bound, from left to right with repeats. -/
def unbound (bindings : Bindings) : Expression → List String
  | .ref label _ => if bindings.contains label then [] else [label]
  | .unary _ arg => unbound bindings arg
  | .multi _ args => unboundList bindings args
  | _ => []

/-- The unbound labels of arguments. -/
def unboundList (bindings : Bindings) : List Expression → List String
  | [] => []
  | e :: es => unbound bindings e ++ unboundList bindings es

end

/-- The value of an expression against the final bindings, without a row at hand. -/
def resolve (e : Expression) (bindings : Bindings) : Except QueryError Json :=
  match e.evaluate none bindings with
  | .resolved value => .ok value
  | .pending rest => .error (.unresolved ((rest.unbound bindings).headD ""))

end Expression

end EntityStore
