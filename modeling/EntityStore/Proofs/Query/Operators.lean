import EntityStore.Proofs.Query.Membership
import EntityStore.Proofs.Query.Parsing

/-! Operators of filters and expressions. A filter puts a column to an operator, and an expression
applies the operator of the same name to the column and a constant. Where both have the operator,
both answer alike (`Filter.answer_operators`). -/

namespace EntityStore

namespace Expression

variable {operand value : Json}

theorem parseCases_const :
    ParseCases fun document e => ∀ value, e = .const value → value = document where
  const _ _ h := (const.inj h).symm
  attr _ := nofun
  ref _ _ := nofun
  unary _ _ _ _ _ _ := nofun
  multi _ _ _ _ _ := nofun

/-- A value that is read as a constant is that constant. -/
theorem eq_of_parse_const (h : parse operand = .ok (.const value)) : value = operand :=
  parseCases_const.parse operand h value rfl

theorem parse_multi {op : MultiOp} {items : List Json} {args : List Expression}
    (hcount : op.accepts items.length = true) (hargs : parseList items = .ok args) :
    parse (.obj [(op.name, .arr items)]) = .ok (.multi op args) := by
  have hreference : reference? [(op.name, .arr items)] = none := by cases op <;> rfl
  have hname : MultiOp.ofName? op.name = some op := by cases op <;> rfl
  rw [parse, hreference]
  dsimp only
  rw [parseFields, hname]
  dsimp only
  rw [if_pos hcount, hargs]
  rfl

/-- An operator on a column and a constant. -/
theorem parse_onColumn {op : MultiOp} (hbinary : op.isBinary = true) (attr : String)
    (hconst : parse operand = .ok (.const operand)) :
    parse (.obj [(op.name, .arr [.obj [("#attr", .str attr)], operand])]) =
      .ok (.multi op [.attr attr, .const operand]) := by
  refine parse_multi ?_ ?_
  · rw [MultiOp.accepts, if_pos hbinary]
    rfl
  · have hattr : parse (.obj [("#attr", .str attr)]) = .ok (.attr attr) := by
      rw [parse]
      rfl
    rw [parseList, parseList, hattr, hconst]
    rfl

theorem evaluate_onColumn {op : MultiOp} (hbinary : op.isBinary = true) {attr : String} {row : Row}
    {x : Json} (hget : Fields.get? row attr = some x) (bindings : Bindings) :
    (multi op [.attr attr, .const operand]).evaluate (some row) bindings =
      .resolved (op.applyBinary x operand) := by
  have hargs : evaluateList (some row) bindings [.attr attr, .const operand] =
      [.resolved x, .resolved operand] := by
    simp only [evaluateList, evaluate, Option.bind_some, hget, Option.getD_some]
  have happly : op.apply [x, operand] = op.applyBinary x operand := by
    cases op <;> first | rfl | cases hbinary
  rw [evaluate, hargs, ← happly]
  rfl

end Expression

namespace MultiOp

/-- Filters have the operator as well, with this operand. -/
def Shared (op : MultiOp) (operand : Json) : Prop :=
  op ∈ [eq, ne, gt, gte, lt, lte, includes] ∨
    op ∈ [startsWith, endsWith] ∧ ∃ text, operand = .str text

variable {op : MultiOp} {operand : Json}

theorem Shared.isBinary (h : op.Shared operand) : op.isBinary = true := by
  rcases h with h | ⟨h, -⟩ <;> cases op <;> first | rfl | simp at h

theorem Shared.isOperatorKey (h : op.Shared operand) : Expression.isOperatorKey op.name = true := by
  cases op <;> rfl

end MultiOp

/-! ## The tests of filters and of expressions -/

namespace Comparison

/-- The operator of expressions with the name of a comparison. -/
def operator : Comparison → MultiOp
  | eq => .eq
  | ne => .ne
  | gt => .gt
  | gte => .gte
  | lt => .lt
  | lte => .lte

theorem ordered_eq (accept : Ordering → Bool) (value bound : Json) :
    ordered accept value bound = MultiOp.ordered accept value bound := by
  rw [ordered, MultiOp.ordered]
  cases value.compareScalar? bound <;> rfl

theorem applyBinary_operator (op : Comparison) (value operand : Json) :
    op.operator.applyBinary value operand = .bool (op.test value operand) := by
  cases op <;> simp only [operator, MultiOp.applyBinary, test, ordered_eq]

end Comparison

namespace Test

theorem begins_eq (start : String) (value : Json) :
    begins start value = MultiOp.begins value (.str start) := by
  cases value <;> rfl

theorem ends_eq (ending : String) (value : Json) :
    ends ending value = MultiOp.ends value (.str ending) := by
  cases value <;> rfl

theorem holds_eq (operand value : Json) : holds operand value = MultiOp.holds value operand := by
  cases value with
  | str text => cases operand <;> rfl
  | _ => rfl

end Test

namespace Filter

/-- The document of an expression that applies an operator to an attribute and an operand. -/
def applied (attr : String) (op : MultiOp) (operand : Json) : Json :=
  .obj [("$expr", .obj [(op.name, .arr [.obj [("#attr", .str attr)], operand])])]

variable {schema : Schema} {entity attr : String} {operand value x : Json} {row : Row}
  {op : MultiOp} {e : Expression}

/-- The test that a filter makes for a shared operator says what the operator says. -/
theorem exists_test (h : op.Shared operand) (attr : String) :
    ∃ test, plainTest op.name attr operand = .ok test ∧
      ∀ v x, ∃ passed, op.applyBinary x operand = .bool passed ∧
        judgeTest v false test x = .known passed := by
  have hcompare (c : Comparison) :
      ∃ test, plainTest c.operator.name attr operand = .ok test ∧
        ∀ v x, ∃ passed, c.operator.applyBinary x operand = .bool passed ∧
          judgeTest v false test x = .known passed :=
    ⟨.compare c operand, by cases c <;> rfl,
      fun v x => ⟨_, c.applyBinary_operator x operand, by rw [judgeTest]⟩⟩
  rcases h with h | ⟨h, text, rfl⟩
  · cases op with
    | eq => exact hcompare .eq
    | ne => exact hcompare .ne
    | gt => exact hcompare .gt
    | gte => exact hcompare .gte
    | lt => exact hcompare .lt
    | lte => exact hcompare .lte
    | includes =>
      exact ⟨.includes operand, rfl, fun v x => ⟨_, rfl, by rw [judgeTest, Test.holds_eq]⟩⟩
    | _ => simp at h
  · cases op with
    | startsWith =>
      exact ⟨.startsWith text, rfl, fun v x => ⟨_, rfl, by rw [judgeTest, Test.begins_eq]⟩⟩
    | endsWith =>
      exact ⟨.endsWith text, rfl, fun v x => ⟨_, rfl, by rw [judgeTest, Test.ends_eq]⟩⟩
    | _ => simp at h

theorem compile_expr {document : Json} (h : Expression.parse document = .ok e) :
    compile schema entity false [] (.obj [("$expr", document)]) =
      .ok (.mk none false [.expr e]) := by
  have hfield : compileField schema entity false [0] "$expr" document = .ok (.expr e) := by
    have hform : clauseForm schema entity "$expr" document = .ok (.plain (.expr e)) := by
      unfold clauseForm
      rw [if_neg (by decide), if_neg (by decide), if_neg (by decide), if_pos (by decide), h]
      rfl
    rw [compileField, hform]
    rfl
  rw [compile_field (by decide), hfield]
  rfl

/-- The value of an expression that waits for no label settles the row. -/
theorem answer_expr {document : Json} (hparse : Expression.parse document = .ok e)
    (hvalue : ∀ bindings, e.evaluate (some row) bindings = .resolved value) (v : View)
    (earlier : List (Bindings × Row)) (seed : Bindings) :
    answer schema entity v earlier seed row (.obj [("$expr", document)]) = .ok value.truthy := by
  have hf : compile schema entity false [] (.obj [("$expr", document)]) = _ := compile_expr hparse
  have hclause : judgeClause v false (.expr e) row = .known value.truthy := by
    rw [judgeClause]
    exact funext fun bindings => by rw [hvalue]; rfl
  rw [answer, hf]
  refine (verdict_eq _ (distinct_of_compile hf) v earlier seed row).trans ?_
  rw [Judge.verdict, judge, judgeClauses, judgeClauses, hclause]
  cases value.truthy <;> rfl

/-- A column that the row has passes a shared operator in a strict filter just when it does in an
expression. Both answer what the operator says of its value and the constant, whatever else is seen
and whichever labels are bound. -/
theorem answer_operators (hc : schema.relation entity attr = .ok .column)
    (hkey : Expression.isOperatorKey attr = false) (hlabel : attr ≠ "#id")
    (hget : Fields.get? row attr = some x) (hconst : Expression.parse operand = .ok (.const value))
    (hop : op.Shared operand) :
    ∃ passed, op.applyBinary x operand = .bool passed ∧
      ∀ (v : View) (earlier : List (Bindings × Row)) (seed : Bindings),
        let gives := answer schema entity v earlier seed row
        gives (single attr op.name operand) = .ok passed ∧
          gives (applied attr op operand) = .ok passed := by
  cases Expression.eq_of_parse_const hconst
  have hbinary := hop.isBinary
  obtain ⟨test, htest, hjudge⟩ := exists_test hop attr
  obtain ⟨passed, happly, -⟩ := hjudge { schema, rows := ∅ } x
  refine ⟨passed, happly, fun v earlier seed => ⟨?_, ?_⟩⟩
  · obtain ⟨passed', happly', hjudge⟩ := hjudge v x
    cases happly.symm.trans happly'
    have hcompile : compileTest schema attr [0, 0] op.name operand = .ok test := by
      rw [compileTest, if_neg, htest]
      rintro (h | h) <;> cases op <;> simp [MultiOp.name] at h
    exact answer_single op.name operand hc hkey hlabel hget hop.isOperatorKey hcompile hjudge
      earlier seed
  · have hvalue (bindings : Bindings) :
        (Expression.multi op [.attr attr, .const operand]).evaluate (some row) bindings =
          .resolved (.bool passed) := by
      rw [Expression.evaluate_onColumn hbinary hget, happly]
    exact answer_expr (Expression.parse_onColumn hbinary attr hconst) hvalue v earlier seed

/-- An array includes one of its items, and a number is not ordered with a text. -/
theorem answer_operators_tags :
    let attributes : NameMap Attribute :=
      Std.ExtTreeMap.ofList [("tags", { type := .array }), ("size", { type := .float })] compare
    let item : Entity := { attributes }
    let schema : Schema := { entities := Std.ExtTreeMap.ofList [("item", item)] compare }
    let row : Row := [("tags", .arr [.str "x", .str "y"]), ("size", .num (.int 3))]
    MultiOp.includes.Shared (.str "y") ∧ MultiOp.lte.Shared (.str "4") ∧
    ∀ v earlier seed,
      let gives := answer schema "item" v earlier seed row
      gives (single "tags" "$includes" (.str "y")) = .ok true ∧
      gives (applied "tags" .includes (.str "y")) = .ok true ∧
      gives (single "size" "$lte" (.str "4")) = .ok false ∧
      gives (applied "size" .lte (.str "4")) = .ok false := by
  intro attributes item schema row
  have htags : schema.relation "item" "tags" = .ok .column := by decide +kernel
  have hsize : schema.relation "item" "size" = .ok .column := by decide +kernel
  have hconst (text : String) : Expression.parse (.str text) = .ok (.const (.str text)) := by
    simp only [Expression.parse]
  have hincludes : MultiOp.includes.Shared (.str "y") := .inl (by decide)
  have hlte : MultiOp.lte.Shared (.str "4") := .inl (by decide)
  have hgetTags : Fields.get? row "tags" = some (.arr [.str "x", .str "y"]) := rfl
  have hgetSize : Fields.get? row "size" = some (.num (.int 3)) := rfl
  obtain ⟨_, hpassed, htagged⟩ := answer_operators htags (by decide) (by decide) hgetTags
    (hconst "y") hincludes
  obtain ⟨_, hpassed', hsized⟩ := answer_operators hsize (by decide) (by decide) hgetSize
    (hconst "4") hlte
  have htrue : MultiOp.includes.applyBinary (.arr [.str "x", .str "y"]) (.str "y") =
      .bool true := by decide +kernel
  have hfalse : MultiOp.lte.applyBinary (.num (.int 3)) (.str "4") = .bool false := rfl
  cases hpassed.symm.trans htrue
  cases hpassed'.symm.trans hfalse
  refine ⟨hincludes, hlte, fun v earlier seed => ?_⟩
  obtain ⟨hsingle, happlied⟩ := htagged v earlier seed
  exact ⟨hsingle, happlied, hsized v earlier seed⟩

end Filter

end EntityStore
