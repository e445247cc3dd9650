import EntityStore.Proofs.Json.Member
import EntityStore.Proofs.Query.Sites

/-! Lists of candidates in filters. Equality compares values and a list of candidates compares their
keys, so a value is among the candidates if it is equal to one of them that is written alike
(`Filter.answer_candidates`). -/

namespace EntityStore

namespace Filter

/-- What the strict filter that a document describes says of a row, after others were checked. -/
def answer (schema : Schema) (entity : String) (v : View) (earlier : List (Bindings × Row))
    (seed : Bindings) (row : Row) (document : Json) : Except QueryError Bool :=
  (compile schema entity false [] document).bind fun f => f.verdict v earlier seed row

/-- The document that puts an attribute to one test. -/
def single (attr name : String) (operand : Json) : Json := .obj [(attr, .obj [(name, operand)])]

variable {schema : Schema} {entity attr name : String} {operand x : Json} {row : Row} {test : Test}
  {passed : Bool}

theorem compile_single (hc : schema.relation entity attr = .ok .column)
    (hkey : Expression.isOperatorKey attr = false) (hlabel : attr ≠ "#id")
    (hname : Expression.isOperatorKey name = true)
    (htest : compileTest schema attr [0, 0] name operand = .ok test) :
    compile schema entity false [] (single attr name operand) =
      .ok (.mk none false [.attribute attr [test]]) := by
  have hfield : compileField schema entity false [0] attr (.obj [(name, operand)]) =
      .ok (.attribute attr [test]) := by
    rw [compileField, clauseForm_tests hkey hc (by simpa using hname)]
    simp only [Except.bind, compileForm]
    rw [compileTests_cons, htest]
    rfl
  rw [single, compile_field hlabel, hfield]
  rfl

/-- The test of the value settles the row. -/
theorem judge_single (hget : Fields.get? row attr = some x) {v : View}
    (hjudge : judgeTest v false test x = .known passed) (seed : Bindings) :
    (judge v (.mk none false [.attribute attr [test]]) row).verdict seed = .ok passed := by
  have hclause : judgeClause v false (.attribute attr [test]) row =
      Judge.join false [.known passed] := by
    rw [judgeClause, hget]
    simp only [judgeTests, hjudge]
  rw [Judge.verdict, judge, judgeClauses, judgeClauses, hclause]
  cases passed <;> rfl

theorem answer_single (name : String) (operand : Json)
    (hc : schema.relation entity attr = .ok .column)
    (hkey : Expression.isOperatorKey attr = false) (hlabel : attr ≠ "#id")
    (hget : Fields.get? row attr = some x) (hname : Expression.isOperatorKey name = true)
    (htest : compileTest schema attr [0, 0] name operand = .ok test) {v : View}
    (hjudge : judgeTest v false test x = .known passed) (earlier : List (Bindings × Row))
    (seed : Bindings) :
    answer schema entity v earlier seed row (single attr name operand) = .ok passed := by
  have hf := compile_single hc hkey hlabel hname htest
  rw [answer, hf]
  exact (verdict_eq _ (distinct_of_compile hf) v earlier seed row).trans
    (judge_single hget hjudge seed)

/-- A value has the key of a candidate if it is equal to one that is written alike. -/
theorem contains_memberKey (hx : x.distinct = true) (items : List Json) :
    (items.map Json.memberKey).contains x.memberKey =
      items.any fun l => x.equal l && x.alike l := by
  rw [Bool.eq_iff_iff, List.contains_iff_mem, List.mem_map, List.any_eq_true]
  refine exists_congr fun l => and_congr_right fun _ => ?_
  rw [Bool.and_eq_true, ← Json.memberKey_eq_iff hx, eq_comm]

theorem any_alike {items : List Json} (h : ∀ l ∈ items, x.equal l = true → x.alike l = true) :
    (items.any fun l => x.equal l && x.alike l) = items.any fun l => x.equal l := by
  rw [Bool.eq_iff_iff, List.any_eq_true, List.any_eq_true]
  refine exists_congr fun l => and_congr_right fun hl => ?_
  rw [Bool.and_eq_true]
  exact and_iff_left_of_imp (h l hl)

/-- A value has the key of another one if they are equal and written alike. So a strict filter finds
it among candidates if it finds it equal to one of them that is written alike; if all that are equal
are written alike, `$in` is a disjunction of `$eq`. `$nin` is always the opposite of `$in`. -/
theorem answer_candidates (x y : Json) (hx : x.distinct = true) :
    (x.memberKey = y.memberKey ↔ x.equal y = true ∧ x.alike y = true) ∧
    ∀ (schema : Schema) (entity attr : String) (items : List Json) (row : Row),
      schema.relation entity attr = .ok .column → Expression.isOperatorKey attr = false →
      attr ≠ "#id" → Fields.get? row attr = some x →
      ∀ (v : View) (earlier : List (Bindings × Row)) (seed : Bindings),
        let gives := answer schema entity v earlier seed row
        (∀ l, gives (single attr "$eq" l) = .ok (x.equal l)) ∧
        gives (single attr "$in" (.arr items)) = .ok (items.any fun l => x.equal l && x.alike l) ∧
        gives (single attr "$nin" (.arr items)) =
          .ok (!items.any fun l => x.equal l && x.alike l) ∧
        ((∀ l ∈ items, x.equal l = true → x.alike l = true) →
          gives (single attr "$in" (.arr items)) = .ok (items.any fun l => x.equal l) ∧
          gives (single attr "$nin" (.arr items)) = .ok (!items.any fun l => x.equal l)) := by
  refine ⟨Json.memberKey_eq_iff hx, ?_⟩
  intro schema entity attr items row hc hkey hlabel hget v earlier seed
  have hlit : judgeTest v false (.isIn (.literal (items.map Json.memberKey))) x =
      .known (items.any fun l => x.equal l && x.alike l) := by
    rw [← contains_memberKey hx, judgeTest, judgeCandidates]
    rfl
  have hnot : judgeTest v false (.notIn (.literal (items.map Json.memberKey))) x =
      .known (!items.any fun l => x.equal l && x.alike l) := by
    rw [← contains_memberKey hx, judgeTest, judgeCandidates]
    rfl
  have hin := answer_single "$in" (.arr items) hc hkey hlabel hget rfl rfl hlit earlier seed
  have hnin := answer_single "$nin" (.arr items) hc hkey hlabel hget rfl rfl hnot earlier seed
  refine ⟨fun l => ?_, hin, hnin, fun halike => ?_⟩
  · have heq : judgeTest v false (.compare .eq l) x = .known (x.equal l) := by
      rw [judgeTest]
      rfl
    exact answer_single "$eq" l hc hkey hlabel hget rfl rfl heq earlier seed
  · rw [any_alike halike] at hin hnin
    exact ⟨hin, hnin⟩

/-- An object is among candidates that hold the same object, and a number is not. -/
theorem answer_candidates_point :
    let item : Entity :=
      { attributes := Std.ExtTreeMap.ofList [("a", { type := .object })] compare }
    let schema : Schema := { entities := Std.ExtTreeMap.ofList [("item", item)] compare }
    let point : Json := .obj [("x", .num (.int 1)), ("y", .num (.int 2))]
    let items : List Json := [.num (.int 1), point]
    (schema.relation "item" "a" = .ok .column ∧ point.distinct = true ∧
      ∀ l ∈ items, point.equal l = true → point.alike l = true) ∧
    (point.memberKey = (Json.num (.int 1)).memberKey ↔
      point.equal (.num (.int 1)) = true ∧ point.alike (.num (.int 1)) = true) ∧
    ∀ v earlier seed,
      let gives := answer schema "item" v earlier seed [("a", point)]
      gives (single "a" "$eq" (.num (.int 1))) = .ok false ∧
      gives (single "a" "$eq" point) = .ok true ∧
      gives (single "a" "$in" (.arr items)) = .ok true ∧
      gives (single "a" "$nin" (.arr items)) = .ok false := by
  intro item schema point items
  have hc : schema.relation "item" "a" = .ok .column := by decide +kernel
  have hd : point.distinct = true := by decide
  have halike : ∀ l ∈ items, point.equal l = true → point.alike l = true := by decide +kernel
  have hany : (items.any fun l => point.equal l) = true := by decide +kernel
  obtain ⟨hkey, hanswers⟩ := answer_candidates point (.num (.int 1)) hd
  refine ⟨⟨hc, hd, halike⟩, hkey, fun v earlier seed => ?_⟩
  obtain ⟨heq, -, -, hboth⟩ :=
    hanswers schema "item" "a" items [("a", point)] hc rfl (by decide) rfl v earlier seed
  obtain ⟨hin, hnin⟩ := hboth halike
  rw [hany] at hin hnin
  exact ⟨heq _, (heq point).trans (by decide +kernel), hin, hnin⟩

/-- A zero is equal to a zero with the other sign and an object to one that names its fields in
another order, but neither is found among candidates that are written in the other way. -/
theorem answer_candidates_unlike :
    let item : Entity :=
      { attributes := Std.ExtTreeMap.ofList [("a", { type := .object })] compare }
    let schema : Schema := { entities := Std.ExtTreeMap.ofList [("item", item)] compare }
    let v : View := { schema, rows := ∅ }
    let zero : Json := .num (.int 0)
    let minusZero : Json := .num (.double ⟨Float.ofBits 0x8000000000000000, by decide⟩)
    let point : Json := .obj [("x", .num (.int 1)), ("y", .num (.int 2))]
    let turned : Json := .obj [("y", .num (.int 2)), ("x", .num (.int 1))]
    let items : Json := .arr [minusZero, point]
    schema.relation "item" "a" = .ok .column ∧
    (∀ entry ∈ [(zero, minusZero), (turned, point)],
      let gives := answer schema "item" v [] {} [("a", entry.1)]
      gives (single "a" "$eq" entry.2) = .ok true ∧
      gives (single "a" "$in" items) = .ok false ∧
      gives (single "a" "$nin" items) = .ok true ∧
      entry.1.equal entry.2 = true ∧ entry.1.memberKey ≠ entry.2.memberKey) := by
  decide +kernel

end Filter

end EntityStore
