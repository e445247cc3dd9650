import EntityStore.Proofs.Query.Memo

/-! Filters that need no labels. A filter with neither labels nor expressions in it
(`Filter.bare`) never fails: every row has a verdict, and no bindings have an influence on it
(`Filter.judge_decided`). -/

namespace EntityStore

theorem filterAuxM_of_ok {ε α : Type} {f : α → Except ε Bool} {p : α → Bool} {xs : List α}
    (h : ∀ x ∈ xs, f x = .ok (p x)) (acc : List α) :
    List.filterAuxM f xs acc = .ok ((xs.filter p).reverse ++ acc) := by
  induction xs generalizing acc with
  | nil => rfl
  | cons x xs ih =>
    obtain ⟨hx, hxs⟩ := List.forall_mem_cons.mp h
    rw [List.filterAuxM, hx]
    refine (ih hxs _).trans ?_
    cases hp : p x <;> simp [hp]

theorem filterM_of_ok {ε α : Type} {f : α → Except ε Bool} {p : α → Bool} {xs : List α}
    (h : ∀ x ∈ xs, f x = .ok (p x)) : xs.filterM f = .ok (xs.filter p) := by
  rw [List.filterM, filterAuxM_of_ok h, List.append_nil]
  exact congrArg Except.ok (List.reverse_reverse _)

namespace Judge

/-- The verdict of a check that needs no labels. -/
def passes (j : Judge) : Bool :=
  match j {} with
  | .ok (.known passed, _) => passed
  | _ => false

/-- Whatever labels are bound, the check has the same verdict and binds nothing. -/
def Decided (j : Judge) : Prop := ∀ b, j b = .ok (.known j.passes, b)

/-- The verdict of a conjunction, where `false` stops, or of a disjunction, where `true` stops. -/
def many (stop : Bool) (verdicts : List Bool) : Bool :=
  verdicts.foldr (fun passed rest => if passed = stop then stop else rest) !stop

theorem many_cons (stop passed : Bool) (verdicts : List Bool) :
    many stop (passed :: verdicts) = if passed = stop then stop else many stop verdicts := rfl

theorem decided_of_eq {j : Judge} {passed : Bool} (h : ∀ b, j b = .ok (.known passed, b)) :
    j.Decided ∧ j.passes = passed := by
  have hpasses : j.passes = passed := by rw [passes, h]
  exact ⟨fun b => hpasses ▸ h b, hpasses⟩

theorem decided_known (passed : Bool) : (known passed).Decided := fun _ => rfl

namespace Decided

variable {j : Judge} {js : List Judge}

theorem verdict (h : j.Decided) (seed : Bindings) : j.verdict seed = .ok j.passes := by
  rw [Judge.verdict, h]
  rfl

theorem negate (h : j.Decided) : j.negate.Decided ∧ j.negate.passes = !j.passes := by
  refine decided_of_eq fun b => ?_
  rw [Judge.negate, h]
  rfl

theorem conditions (stop : Bool) (h : ∀ j ∈ js, j.Decided) (b : Bindings) :
    Judge.conditions stop js b =
      .ok (if many stop (js.map passes) = stop then none else some [], b) := by
  induction js with
  | nil => cases stop <;> rfl
  | cons j js ih =>
    obtain ⟨hj, hjs⟩ := List.forall_mem_cons.mp h
    rw [Judge.conditions, hj, List.map_cons, many_cons]
    by_cases hp : j.passes = stop
    · simp only [hp, if_true]
    · simp only [hp, if_false]
      exact ih hjs

theorem join (stop : Bool) (h : ∀ j ∈ js, j.Decided) :
    (Judge.join stop js).Decided ∧ (Judge.join stop js).passes = many stop (js.map passes) := by
  refine decided_of_eq fun b => ?_
  rw [Judge.join, conditions stop h]
  cases stop <;> cases many _ (js.map passes) <;> rfl

/-- The keys of a subquery whose rows need no labels. -/
theorem keys (v : View) {j : Row → Judge} (h : ∀ row, (j row).Decided) (entity attr : String)
    (seed : Bindings) : Judge.keys v entity attr j seed =
      .ok (((v.scan entity).filter fun row => (j row).passes).filterMap fun row =>
        (Fields.get? row attr).map Json.memberKey) := by
  rw [Judge.keys, filterM_of_ok fun row _ => (h row).verdict seed]
  rfl

end Decided

end Judge

namespace Filter

mutual

/-- Whether there are neither labels nor expressions in a filter and in its subqueries. -/
def bare : Filter → Bool
  | .mk label _ clauses => label.isNone && bareClauses clauses

/-- Whether there are neither labels nor expressions in clauses. -/
def bareClauses : List Clause → Bool
  | [] => true
  | clause :: rest => bareClause clause && bareClauses rest

/-- Whether there are neither labels nor expressions in one clause. -/
def bareClause : Clause → Bool
  | .and parts | .or parts => bareParts parts
  | .not part | .relation _ part => bare part
  | .expr _ => false
  | .text .. => true
  | .attribute _ tests => bareTests tests

/-- Whether there are neither labels nor expressions in several filters. -/
def bareParts : List Filter → Bool
  | [] => true
  | part :: rest => bare part && bareParts rest

/-- Whether there are neither labels nor expressions in the subqueries of tests. -/
def bareTests : List Test → Bool
  | [] => true
  | test :: rest => bareTest test && bareTests rest

/-- Whether there are neither labels nor expressions in the subqueries of one test. -/
def bareTest : Test → Bool
  | .isIn candidates | .notIn candidates => bareCandidates candidates
  | _ => true

/-- Whether there are neither labels nor expressions in a subquery. -/
def bareCandidates : Candidates → Bool
  | .literal _ => true
  | .subquery _ _ _ filter _ => bare filter

end

variable {v : View}

theorem bareTest_of_mem {tests : List Test} (h : bareTests tests) {test : Test}
    (hmem : test ∈ tests) : bareTest test := by
  induction tests with
  | nil => cases hmem
  | cons test rest ih =>
    obtain ⟨htest, hrest⟩ := Bool.and_eq_true_iff.mp h
    cases hmem with
    | head => exact htest
    | tail _ hmem => exact ih hrest hmem

mutual

theorem obscureLabels_of_bare : (f : Filter) → f.bare → ∀ b, obscureLabels b f = b
  | .mk none _ clauses, h, b => obscureClauses_of_bare clauses h b

theorem obscureClauses_of_bare : (clauses : List Clause) → bareClauses clauses → ∀ b,
    obscureClauses b clauses = b
  | [], _, _ => rfl
  | .and parts :: rest, h, b | .or parts :: rest, h, b => by
    obtain ⟨hparts, hrest⟩ := Bool.and_eq_true_iff.mp h
    rw [obscureClauses, obscureParts_of_bare parts hparts, obscureClauses_of_bare rest hrest]
  | .not part :: rest, h, b | .relation _ part :: rest, h, b => by
    obtain ⟨hpart, hrest⟩ := Bool.and_eq_true_iff.mp h
    rw [obscureClauses, obscureLabels_of_bare part hpart, obscureClauses_of_bare rest hrest]
  | .text .. :: rest, h, b | .attribute .. :: rest, h, b =>
    obscureClauses_of_bare rest (Bool.and_eq_true_iff.mp h).2 b

theorem obscureParts_of_bare : (parts : List Filter) → bareParts parts → ∀ b,
    obscureParts b parts = b
  | [], _, _ => rfl
  | part :: rest, h, b => by
    obtain ⟨hpart, hrest⟩ := Bool.and_eq_true_iff.mp h
    rw [obscureParts, obscureLabels_of_bare part hpart, obscureParts_of_bare rest hrest]

end

mutual

/-- A filter without labels and expressions has a verdict on every row. -/
theorem judge_decided : (f : Filter) → f.bare → ∀ row, (f.judge v row).Decided
  | .mk none obscure clauses, h, row => by
    have hclauses := judgeClauses_decided obscure clauses h row
    exact (Judge.Decided.join false hclauses).1

theorem judgeClauses_decided (obscure : Bool) : (clauses : List Clause) → bareClauses clauses →
    ∀ row, ∀ j ∈ judgeClauses v obscure clauses row, j.Decided
  | [], _, _ => nofun
  | clause :: rest, h, row => by
    obtain ⟨hclause, hrest⟩ := Bool.and_eq_true_iff.mp h
    exact List.forall_mem_cons.mpr
      ⟨judgeClause_decided obscure clause hclause row,
        judgeClauses_decided obscure rest hrest row⟩

theorem judgeClause_decided (obscure : Bool) : (clause : Clause) → bareClause clause → ∀ row,
    (judgeClause v obscure clause row).Decided
  | .and parts, h, row => (Judge.Decided.join false (judgeParts_decided parts h row)).1
  | .or parts, h, row => (Judge.Decided.join true (judgeParts_decided parts h row)).1
  | .not part, h, row => (judge_decided part h row).negate.1
  | .text .., _, _ => Judge.decided_known _
  | .attribute name tests, h, row => by
    rw [judgeClause]
    cases Fields.get? row name with
    | none => exact Judge.decided_known _
    | some value => exact (Judge.Decided.join false (judgeTests_decided obscure tests h value)).1
  | .relation pointer part, h, row => by
    rw [judgeClause]
    cases v.follow pointer row with
    | found target => exact judge_decided part h target
    | elsewhere => exact Judge.decided_known false
    | unset | missing =>
      simp only [obscureLabels_of_bare part h, ite_self]
      exact Judge.decided_known obscure

theorem judgeParts_decided : (parts : List Filter) → bareParts parts → ∀ row,
    ∀ j ∈ judgeParts v parts row, j.Decided
  | [], _, _ => nofun
  | part :: rest, h, row => by
    obtain ⟨hpart, hrest⟩ := Bool.and_eq_true_iff.mp h
    exact List.forall_mem_cons.mpr
      ⟨judge_decided part hpart row, judgeParts_decided rest hrest row⟩

theorem judgeTests_decided (obscure : Bool) : (tests : List Test) → bareTests tests → ∀ value,
    ∀ j ∈ judgeTests v obscure tests value, j.Decided
  | [], _, _ => nofun
  | test :: rest, h, value => by
    obtain ⟨htest, hrest⟩ := Bool.and_eq_true_iff.mp h
    exact List.forall_mem_cons.mpr
      ⟨judgeTest_decided obscure test htest value, judgeTests_decided obscure rest hrest value⟩

theorem judgeTest_decided (obscure : Bool) : (test : Test) → bareTest test → ∀ value,
    (judgeTest v obscure test value).Decided
  | .compare .., _, _ | .between .., _, _ | .startsWith _, _, _ | .endsWith _, _, _
  | .includes _, _, _ | .present _, _, _ => Judge.decided_known _
  | .isIn candidates, h, value => by
    rw [judgeTest]
    cases obscure with
    | true => exact Judge.decided_known true
    | false => exact judgeCandidates_decided candidates h value
  | .notIn candidates, h, value => (judgeCandidates_decided candidates h value).negate.1

theorem judgeCandidates_decided : (candidates : Candidates) → bareCandidates candidates →
    ∀ value, (judgeCandidates v candidates value).Decided
  | .literal _, _, _ => Judge.decided_known _
  | .subquery site entity attr filter correlated, h, value => by
    have hfilter (row : Row) : (filter.judge v row).Decided := judge_decided filter h row
    have heq (b : Bindings) :
        judgeCandidates v (.subquery site entity attr filter correlated) value b =
          (Judge.keys v entity attr (fun row => judge v filter row)
            (if correlated || !v.eagerSubqueries then b else {})).map fun keys =>
              (.known (keys.contains value.memberKey), b) := by rw [judgeCandidates]
    have hkeys (seed : Bindings) :=
      Judge.Decided.keys v hfilter entity attr seed
    exact (Judge.decided_of_eq fun b => (heq b).trans (congrArg (Except.map _) (hkeys _))).1

end

end Filter

end EntityStore
