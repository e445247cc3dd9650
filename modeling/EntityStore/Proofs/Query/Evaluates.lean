import EntityStore.Proofs.Query.Sites
import EntityStore.Proofs.Query.Sound
import EntityStore.Query.Select
import EntityStore.Store.Error

/-! Errors of evaluation. An error is structural if it is about the form of a query, or about a name
that the schema does not have. Filters are compiled before rows are looked at, and checking a row by
a compiled filter raises no structural error (`View.filter_evaluates`): it may bind a label twice,
or read a label that is never bound. The same holds of the expressions in a projection that wait for
a label (`View.settle_evaluates`). -/

namespace EntityStore

/-- The error is about the form of a query, or about a name in it. -/
def QueryError.Structural : QueryError → Prop
  | .invalid _ | .schema _ => True
  | .unresolved _ | .duplicateLabel _ => False

theorem StoreError.kind_query {e : QueryError} :
    (StoreError.query e).kind = .structural ↔ e.Structural := by
  cases e <;> simp [StoreError.kind, QueryError.Structural]

/-- No structural error is raised. -/
def Evaluates {α : Type} (x : Except QueryError α) : Prop := ∀ e, x = .error e → ¬e.Structural

theorem evaluates_ok {α : Type} (a : α) : Evaluates (.ok a) := nofun

theorem evaluates_error {α : Type} {e : QueryError} (h : ¬e.Structural) :
    Evaluates (.error e : Except QueryError α) := by
  intro e' he
  cases he
  exact h

namespace Evaluates

variable {α β : Type} {x : Except QueryError α}

theorem bind {f : α → Except QueryError β} (hx : Evaluates x) (hf : ∀ a, Evaluates (f a)) :
    Evaluates (x.bind f) := by
  cases x with
  | error e => exact evaluates_error (hx e rfl)
  | ok a => exact hf a

theorem map (f : α → β) (hx : Evaluates x) : Evaluates (x.map f) := by
  cases x with
  | error e => exact evaluates_error (hx e rfl)
  | ok a => exact evaluates_ok (f a)

theorem filterM {p : α → Except QueryError Bool} (hp : ∀ a, Evaluates (p a)) (xs : List α) :
    Evaluates (xs.filterM p) := by
  have haux (acc : List α) : Evaluates (List.filterAuxM p xs acc) := by
    induction xs generalizing acc with
    | nil => exact evaluates_ok acc
    | cons x xs ih =>
      rw [List.filterAuxM]
      exact (hp x).bind fun passed => ih (cond passed (x :: acc) acc)
  exact (haux []).bind fun ys => evaluates_ok ys.reverse

theorem foldlM {f : β → α → Except QueryError β} (hf : ∀ b a, Evaluates (f b a)) (xs : List α)
    (b : β) : Evaluates (xs.foldlM f b) := by
  induction xs generalizing b with
  | nil => exact evaluates_ok b
  | cons x xs ih =>
    rw [List.foldlM_cons]
    exact (hf b x).bind ih

end Evaluates

theorem Bindings.bind_evaluates (b : Bindings) (label : String) (row : Row) :
    Evaluates (b.bind label row) := by
  unfold Bindings.bind
  split
  · exact evaluates_error id
  · exact evaluates_ok _

theorem Expression.resolve_evaluates (e : Expression) (b : Bindings) : Evaluates (e.resolve b) := by
  rw [resolve_eq]
  split
  · exact evaluates_ok _
  · exact evaluates_error id

theorem View.settle_evaluates (forming : Forming) (out : Row) : Evaluates (settle forming out) :=
  .foldlM (fun _ field =>
    (field.expr.resolve_evaluates forming.bindings).bind fun _ => evaluates_ok _) _ out

namespace Condition

mutual

theorem settle_evaluates (b : Bindings) : (c : Condition) → Evaluates (c.settle b)
  | .expr e => by
    rw [settle]
    split
    · exact evaluates_ok none
    · exact (e.resolve_evaluates b).map _
  | .all parts => settleMany_evaluates b false parts
  | .any parts => settleMany_evaluates b true parts
  | .not part => (settle_evaluates b part).map _

theorem settleMany_evaluates (b : Bindings) (stop : Bool) : (parts : List Condition) →
    Evaluates (settleMany stop b parts)
  | [] => by
    rw [settleMany_nil]
    exact evaluates_ok _
  | c :: cs => by
    have hcs := settleMany_evaluates b stop cs
    rw [settleMany_cons]
    refine (settle_evaluates b c).bind fun settled => ?_
    cases settled with
    | none => exact hcs.map _
    | some passed =>
      dsimp only
      split
      · exact evaluates_ok _
      · exact hcs

end

end Condition

theorem Outcome.finish_evaluates (o : Outcome) (b : Bindings) : Evaluates (o.finish b) := by
  cases o with
  | known passed => exact evaluates_ok passed
  | deferred c => exact (c.settle_evaluates b).map _

/-! ## Judgements -/

/-- The check raises no structural error, whatever labels are bound. -/
def Judge.Evaluates (j : Judge) : Prop := ∀ b, EntityStore.Evaluates (j b)

namespace Judge.Evaluates

theorem known (passed : Bool) : (Judge.known passed).Evaluates := fun _ => evaluates_ok _

variable {j : Judge} {js : List Judge}

theorem negate (h : j.Evaluates) : j.negate.Evaluates := fun b => (h b).map _

theorem verdict (h : j.Evaluates) (seed : Bindings) : EntityStore.Evaluates (j.verdict seed) :=
  (h seed).bind fun r => r.1.finish_evaluates r.2

theorem join (stop : Bool) (h : ∀ j ∈ js, j.Evaluates) : (Judge.join stop js).Evaluates := by
  have hconditions (b : Bindings) : EntityStore.Evaluates (conditions stop js b) := by
    induction js generalizing b with
    | nil => exact evaluates_ok _
    | cons j js ih =>
      obtain ⟨hj, hjs⟩ := List.forall_mem_cons.mp h
      have hj := hj b
      rw [conditions]
      split
      · rename_i e he
        exact evaluates_error (hj e he)
      · split
        · exact evaluates_ok _
        · exact ih hjs _
      · exact (ih hjs _).map _
  exact fun b => (hconditions b).map _

theorem keys (v : View) {j : Row → Judge} (h : ∀ row, (j row).Evaluates) (entity attr : String)
    (seed : Bindings) : EntityStore.Evaluates (Judge.keys v entity attr j seed) :=
  (EntityStore.Evaluates.filterM (fun row => (h row).verdict seed) _).map _

end Judge.Evaluates

namespace Filter

variable {v : View}

mutual

/-- Judging a row by a compiled filter raises no structural error. -/
theorem judge_evaluates : (f : Filter) → ∀ row, (f.judge v row).Evaluates
  | .mk label obscure clauses, row => by
    have hclauses := Judge.Evaluates.join false (judgeClauses_evaluates obscure clauses row)
    intro b
    rw [judge]
    refine Evaluates.bind ?_ hclauses
    cases label with
    | none => exact evaluates_ok b
    | some label => exact b.bind_evaluates label row

theorem judgeClauses_evaluates (obscure : Bool) : (clauses : List Clause) → ∀ row,
    ∀ j ∈ judgeClauses v obscure clauses row, j.Evaluates
  | [], _ => nofun
  | clause :: rest, row => List.forall_mem_cons.mpr
    ⟨judgeClause_evaluates obscure clause row, judgeClauses_evaluates obscure rest row⟩

theorem judgeClause_evaluates (obscure : Bool) : (clause : Clause) → ∀ row,
    (judgeClause v obscure clause row).Evaluates
  | .and parts, row => .join false (judgeParts_evaluates parts row)
  | .or parts, row => .join true (judgeParts_evaluates parts row)
  | .not part, row => (judge_evaluates part row).negate
  | .text .., _ => .known _
  | .expr e, row => by
    intro b
    rw [judgeClause]
    dsimp only
    split <;> exact evaluates_ok _
  | .attribute name tests, row => by
    rw [judgeClause]
    cases Fields.get? row name with
    | none => exact .known _
    | some value => exact .join false (judgeTests_evaluates obscure tests value)
  | .relation pointer part, row => by
    rw [judgeClause]
    cases v.follow pointer row with
    | found target => exact judge_evaluates part target
    | elsewhere => exact .known false
    | unset | missing => exact fun b => evaluates_ok _

theorem judgeParts_evaluates : (parts : List Filter) → ∀ row,
    ∀ j ∈ judgeParts v parts row, j.Evaluates
  | [], _ => nofun
  | part :: rest, row => List.forall_mem_cons.mpr
    ⟨judge_evaluates part row, judgeParts_evaluates rest row⟩

theorem judgeTests_evaluates (obscure : Bool) : (tests : List Test) → ∀ value,
    ∀ j ∈ judgeTests v obscure tests value, j.Evaluates
  | [], _ => nofun
  | test :: rest, value => List.forall_mem_cons.mpr
    ⟨judgeTest_evaluates obscure test value, judgeTests_evaluates obscure rest value⟩

theorem judgeTest_evaluates (obscure : Bool) : (test : Test) → ∀ value,
    (judgeTest v obscure test value).Evaluates
  | .compare .., _ | .between .., _ | .startsWith _, _ | .endsWith _, _ | .includes _, _
  | .present _, _ => .known _
  | .isIn candidates, value => by
    rw [judgeTest]
    cases obscure with
    | true => exact .known true
    | false => exact judgeCandidates_evaluates candidates value
  | .notIn candidates, value => (judgeCandidates_evaluates candidates value).negate

theorem judgeCandidates_evaluates : (candidates : Candidates) → ∀ value,
    (judgeCandidates v candidates value).Evaluates
  | .literal _, _ => .known _
  | .subquery site entity attr filter correlated, value => by
    intro b
    rw [judgeCandidates]
    exact (Judge.Evaluates.keys v (judge_evaluates filter) entity attr _).map _

end

end Filter

/-- Checking rows by a filter that was compiled raises no structural error. -/
theorem View.filter_evaluates {schema : Schema} {entity : String} {obscure : Bool} {site : Site}
    {document : Json} {f : Filter}
    (hf : Filter.compile schema entity obscure site document = .ok f) (v : View) (seed : Bindings)
    (rows : List Row) (w : Work) : Evaluates (exec (Query.matching v f seed rows) w).1 := by
  rw [Query.matching_eq_filterM (Filter.distinct_of_compile hf)]
  exact .filterM (fun row => (f.judge_evaluates row).verdict seed) rows

end EntityStore
