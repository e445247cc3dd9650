import EntityStore.Query.Filter.Evaluate
import EntityStore.Proofs.Execution

/-! Judging a row without a memo. `Filter.judge` says what the evaluation of a filter comes to as a
function of the bindings alone: a subquery is computed wherever it is written, and conjunctions and
disjunctions are one function, `Judge.join`. The evaluation, which remembers subqueries, simulates
it as long as the memo is sound (`Filter.evaluate_simulates`). -/

namespace EntityStore

/-- What comes of checking something against the labels bound so far, and the labels bound then. -/
abbrev Judge := Bindings → Except QueryError (Outcome × Bindings)

namespace Judge

/-- A verdict that needs no labels. -/
def known (passed : Bool) : Judge := fun b => .ok (.known passed, b)

/-- The opposite. -/
def negate (j : Judge) : Judge := fun b => (j b).map fun r => (r.1.negate, r.2)

/-- The conditions that are open after several checks, up to the first one whose verdict is `stop`:
then there are none. -/
def conditions (stop : Bool) :
    List Judge → Bindings → Except QueryError (Option (List Condition) × Bindings)
  | [], b => .ok (some [], b)
  | j :: js, b =>
    match j b with
    | .error e => .error e
    | .ok (.known passed, b) => if passed = stop then .ok (none, b) else conditions stop js b
    | .ok (.deferred c, b) => (conditions stop js b).map fun r => (r.1.map (c :: ·), r.2)

/-- The outcome of checks of which none or one has stopped. -/
def outcome (stop : Bool) : Option (List Condition) → Outcome
  | none => .known stop
  | some cs => if stop then .ofAny cs else .ofAll cs

/-- A conjunction of checks, where `false` stops, or a disjunction, where `true` stops. -/
def join (stop : Bool) (js : List Judge) : Judge := fun b =>
  (conditions stop js b).map fun r => (outcome stop r.1, r.2)

/-- The final verdict, from the labels that are bound at first. -/
def verdict (j : Judge) (seed : Bindings) : Except QueryError Bool :=
  (j seed).bind fun r => r.1.finish r.2

/-- The keys of an attribute over the rows of an entity that pass a check, each row on its own. -/
def keys (v : View) (entity attr : String) (j : Row → Judge) (seed : Bindings) :
    Except QueryError (List String) :=
  ((v.scan entity).filterM fun row => (j row).verdict seed).map fun rows =>
    rows.filterMap fun row => (Fields.get? row attr).map Json.memberKey

end Judge

namespace Filter

mutual

/-- Judges a row. -/
def judge (v : View) : Filter → Row → Judge
  | .mk label obscure clauses, row => fun b =>
    let labelled := match label with
      | some label => b.bind label row
      | none => .ok b
    labelled.bind (Judge.join false (judgeClauses v obscure clauses row))

/-- Judges the clauses of a filter. -/
def judgeClauses (v : View) (obscure : Bool) : List Clause → Row → List Judge
  | [], _ => []
  | clause :: rest, row => judgeClause v obscure clause row :: judgeClauses v obscure rest row

/-- Judges one clause. -/
def judgeClause (v : View) (obscure : Bool) : Clause → Row → Judge
  | .and parts, row => Judge.join false (judgeParts v parts row)
  | .or parts, row => Judge.join true (judgeParts v parts row)
  | .not part, row => (judge v part row).negate
  | .expr e, row => fun b =>
    match e.evaluate (some row) b with
    | .resolved value => .ok (.known value.truthy, b)
    | .pending rest => .ok (.deferred (.expr rest), b)
  | .text attributes search, row => .known (findsText obscure attributes search row)
  | .attribute name tests, row =>
    match Fields.get? row name with
    | none => .known (obscure || tests.all Test.holdsOfAbsent)
    | some value => Judge.join false (judgeTests v obscure tests value)
  | .relation pointer part, row =>
    match v.follow pointer row with
    | .found target => judge v part target
    | .elsewhere => .known false
    | .unset | .missing => fun b =>
      .ok (.known obscure, if obscure then obscureLabels b part else b)

/-- Judges the parts of a conjunction or disjunction. -/
def judgeParts (v : View) : List Filter → Row → List Judge
  | [], _ => []
  | part :: rest, row => judge v part row :: judgeParts v rest row

/-- Judges a value by several tests. -/
def judgeTests (v : View) (obscure : Bool) : List Test → Json → List Judge
  | [], _ => []
  | test :: rest, value => judgeTest v obscure test value :: judgeTests v obscure rest value

/-- Judges a value by one test. -/
def judgeTest (v : View) (obscure : Bool) : Test → Json → Judge
  | .compare op operand, value => .known (op.test value operand)
  | .between low high, value =>
    .known (Comparison.gte.test value low && Comparison.lte.test value high)
  | .startsWith start, value => .known (Test.begins start value)
  | .endsWith ending, value => .known (Test.ends ending value)
  | .includes operand, value => .known (Test.holds operand value)
  | .present expected, value => .known (value.isNull != expected)
  | .isIn candidates, value => if obscure then .known true else judgeCandidates v candidates value
  | .notIn candidates, value => (judgeCandidates v candidates value).negate

/-- Judges whether a value is among the candidates. -/
def judgeCandidates (v : View) : Candidates → Json → Judge
  | .literal keys, value => .known (keys.contains value.memberKey)
  | .subquery _ entity attr filter correlated, value => fun b =>
    let seed := if correlated || !v.eagerSubqueries then b else {}
    (Judge.keys v entity attr (fun row => judge v filter row) seed).map fun keys =>
      (.known (keys.contains value.memberKey), b)

end

/-- Checks a row and settles what is open against the labels that are bound then. -/
def check (f : Filter) (v : View) (row : Row) : Check Bool := do
  Check.finish (← f.evaluate v row)

/-- The memo that is left when rows are checked one after another, each from its own labels. -/
def memoAfter (f : Filter) (v : View) (earlier : List (Bindings × Row)) : Memo :=
  earlier.foldl (fun memo entry => (exec (f.check v entry.2) ⟨entry.1, memo⟩).2.memo) {}

/-- The verdict on a row, after others were checked. -/
def verdict (f : Filter) (v : View) (earlier : List (Bindings × Row)) (seed : Bindings)
    (row : Row) : Except QueryError Bool :=
  (exec (f.check v row) ⟨seed, f.memoAfter v earlier⟩).1

end Filter

/-! ## Subqueries -/

/-- A subquery in a filter. -/
structure Subquery where
  site : Site
  entity : String
  attr : String
  filter : Filter
  correlated : Bool

namespace Filter

mutual

/-- The subqueries of a filter, those inside of subqueries included. -/
def subqueries : Filter → List Subquery
  | .mk _ _ clauses => subqueriesClauses clauses

/-- The subqueries of clauses. -/
def subqueriesClauses : List Clause → List Subquery
  | [] => []
  | clause :: rest => subqueriesClause clause ++ subqueriesClauses rest

/-- The subqueries of one clause. -/
def subqueriesClause : Clause → List Subquery
  | .and parts | .or parts => subqueriesParts parts
  | .not part | .relation _ part => subqueries part
  | .attribute _ tests => subqueriesTests tests
  | .expr _ | .text .. => []

/-- The subqueries of several filters. -/
def subqueriesParts : List Filter → List Subquery
  | [] => []
  | part :: rest => subqueries part ++ subqueriesParts rest

/-- The subqueries of tests. -/
def subqueriesTests : List Test → List Subquery
  | [] => []
  | test :: rest => subqueriesTest test ++ subqueriesTests rest

/-- The subqueries of one test. -/
def subqueriesTest : Test → List Subquery
  | .isIn candidates | .notIn candidates => subqueriesCandidates candidates
  | _ => []

/-- The subqueries of candidates. -/
def subqueriesCandidates : Candidates → List Subquery
  | .literal _ => []
  | .subquery site entity attr filter correlated =>
    ⟨site, entity, attr, filter, correlated⟩ :: subqueries filter

end

end Filter

namespace Subquery

/-- The keys of a subquery, from the labels that are bound outside of it. -/
def keys (v : View) (q : Subquery) (seed : Bindings) : Except QueryError (List String) :=
  Judge.keys v q.entity q.attr (fun row => q.filter.judge v row) seed

end Subquery

/-- What is known of a subquery is what it comes to without any outer labels. -/
def Memo.Sound (v : View) (subqueries : List Subquery) (m : Memo) : Prop :=
  ∀ q ∈ subqueries, ∀ keys, m.known.lookup q.site = some keys → q.keys v {} = .ok keys

/-! ## Simulation -/

/-- The result and the state of a check are those that a judgement gives, with a sound memo. A check
that fails may leave any labels. -/
inductive Realizes {α : Type} (sound : Memo → Prop) :
    Except QueryError (α × Bindings) → Except QueryError α × RowState → Prop where
  | ok (a : α) (b : Bindings) (m : Memo) (h : sound m) : Realizes sound (.ok (a, b)) (.ok a, ⟨b, m⟩)
  | error (e : QueryError) (b : Bindings) (m : Memo) (h : sound m) :
    Realizes sound (.error e) (.error e, ⟨b, m⟩)

theorem Realizes.result {α : Type} {sound : Memo → Prop} {y : Except QueryError (α × Bindings)}
    {r : Except QueryError α × RowState} (h : Realizes sound y r) : r.1 = y.map Prod.fst := by
  cases h <;> rfl

theorem Realizes.sound {α : Type} {sound : Memo → Prop} {y : Except QueryError (α × Bindings)}
    {r : Except QueryError α × RowState} (h : Realizes sound y r) : sound r.2.memo := by
  cases h <;> assumption

/-- From every sound memo the check does what the function of the bindings says. -/
def Simulates {α : Type} (sound : Memo → Prop) (x : Check α)
    (j : Bindings → Except QueryError (α × Bindings)) : Prop :=
  ∀ b m, sound m → Realizes sound (j b) (exec x ⟨b, m⟩)

namespace Simulates

variable {α β : Type} {sound : Memo → Prop} {x : Check α}
  {j j' : Bindings → Except QueryError (α × Bindings)}

theorem pure (a : α) : Simulates sound (pure a) fun b => .ok (a, b) :=
  fun b m hm => .ok a b m hm

theorem congr (h : Simulates sound x j) (hj : ∀ b, j b = j' b) : Simulates sound x j' :=
  fun b m hm => hj b ▸ h b m hm

theorem bind {f : α → Check β} {k : α → Bindings → Except QueryError (β × Bindings)}
    (hx : Simulates sound x j) (hf : ∀ a, Simulates sound (f a) (k a)) :
    Simulates sound (x >>= f) fun b => (j b).bind fun r => k r.1 r.2 := by
  intro b m hm
  have h := hx b m hm
  rw [exec_bind]
  generalize hr : exec x ⟨b, m⟩ = r at h ⊢
  dsimp only
  generalize hj : j b = y at h ⊢
  cases h with
  | ok a b' m' hm' => exact hf a b' m' hm'
  | error e b' m' hm' => exact .error e b' m' hm'

theorem map (f : α → β) (hx : Simulates sound x j) :
    Simulates sound (f <$> x) fun b => (j b).map fun r => (f r.1, r.2) := by
  rw [← bind_pure_comp]
  refine (hx.bind fun a => pure (f a)).congr fun b => ?_
  cases j b <;> rfl

theorem ofExcept (r : Except QueryError α) :
    Simulates sound (Check.ofExcept r) fun b => r.map fun a => (a, b) := by
  intro b m hm
  cases r with
  | error e => exact .error e b m hm
  | ok a => exact .ok a b m hm

/-- What a check reads of the bindings. -/
theorem read {f : Bindings → Check α} {k : Bindings → Bindings → Except QueryError (α × Bindings)}
    (hf : ∀ b, Simulates sound (f b) (k b)) :
    Simulates sound (do f (← get).bindings) fun b => k b b := fun b m hm => hf b b m hm

theorem isolated (seed : Bindings) (h : Simulates sound x j) :
    Simulates sound (Check.isolated seed x) fun b => (j seed).map fun r => (r.1, b) := by
  intro b m hm
  have h := h seed m hm
  have hexec : exec (Check.isolated seed x) ⟨b, m⟩ =
      ((exec x ⟨seed, m⟩).1, { (exec x ⟨seed, m⟩).2 with bindings := b }) := rfl
  rw [hexec]
  dsimp only
  generalize hr : exec x ⟨seed, m⟩ = r at h ⊢
  generalize hj : j seed = y at h ⊢
  cases h with
  | ok a b' m' hm' => exact .ok a b m' hm'
  | error e b' m' hm' => exact .error e b m' hm'

theorem label (label : String) (row : Row) :
    Simulates sound (Check.bind label row) fun b => (b.bind label row).map fun b => ((), b) := by
  intro b m hm
  have hread (r : Except QueryError Bindings) (s : RowState) :
      exec (Check.ofExcept r) s = (r, s) := rfl
  rw [Check.bind, exec_bind, exec_get, continueWith_ok, exec_bind, hread]
  dsimp only
  cases b.bind label row with
  | error e => exact .error e b m hm
  | ok b' => exact .ok () b' m hm

theorem filterM {γ : Type} {f : γ → Check Bool} {k : γ → Except QueryError Bool}
    (h : ∀ x, Simulates sound (f x) fun b => (k x).map fun passed => (passed, b)) (xs : List γ) :
    Simulates sound (xs.filterM f) fun b => (xs.filterM k).map fun ys => (ys, b) := by
  have haux (acc : List γ) : Simulates sound (List.filterAuxM f xs acc) fun b =>
      (List.filterAuxM k xs acc).map fun ys => (ys, b) := by
    induction xs generalizing acc with
    | nil => exact pure acc
    | cons x xs ih =>
      refine ((h x).bind fun passed => ih (cond passed (x :: acc) acc)).congr fun b => ?_
      rw [List.filterAuxM]
      cases k x <;> rfl
  refine ((haux []).map List.reverse).congr fun b => ?_
  rw [List.filterM]
  cases List.filterAuxM k xs [] <;> rfl

end Simulates

/-! ## Conjunctions and disjunctions -/

/-- Checks one after the other up to the first one whose verdict is `stop`. -/
def Check.join (stop : Bool) : List (Check Outcome) → List Condition → Check Outcome
  | [], deferred => return Judge.outcome stop (some deferred.reverse)
  | x :: xs, deferred => do
    match ← x with
    | .known passed => if passed = stop then return .known stop else Check.join stop xs deferred
    | .deferred c => Check.join stop xs (c :: deferred)

theorem Simulates.join {γ : Type} {sound : Memo → Prop} (stop : Bool) {xs : List γ}
    {f : γ → Check Outcome} {g : γ → Judge} (h : ∀ x ∈ xs, Simulates sound (f x) (g x))
    (deferred : List Condition) :
    Simulates sound (Check.join stop (xs.map f) deferred) fun b =>
      (Judge.conditions stop (xs.map g) b).map fun r =>
        (Judge.outcome stop (r.1.map (deferred.reverse ++ ·)), r.2) := by
  induction xs generalizing deferred with
  | nil =>
    refine (Simulates.pure _).congr fun b => ?_
    simp [Judge.conditions, Except.map]
  | cons x xs ih =>
    have ih := ih fun y hy => h y (List.mem_cons_of_mem _ hy)
    rw [List.map_cons, Check.join]
    let rest (o : Outcome) (b : Bindings) : Except QueryError (Outcome × Bindings) := match o with
      | .known passed => if passed = stop then .ok (.known stop, b) else
        (Judge.conditions stop (xs.map g) b).map fun r =>
          (Judge.outcome stop (r.1.map (deferred.reverse ++ ·)), r.2)
      | .deferred c => (Judge.conditions stop (xs.map g) b).map fun r =>
        (Judge.outcome stop (r.1.map ((c :: deferred).reverse ++ ·)), r.2)
    refine ((h x List.mem_cons_self).bind (k := rest) fun o => ?_).congr fun b => ?_
    · cases o with
      | known passed =>
        by_cases hp : passed = stop
        · simp only [rest, hp, if_true]
          exact .pure _
        · simp only [rest, hp, if_false]
          exact ih deferred
      | deferred c => exact ih (c :: deferred)
    · rw [List.map_cons, Judge.conditions]
      cases g x b with
      | error e => rfl
      | ok r =>
        obtain ⟨o, b⟩ := r
        cases o with
        | known passed =>
          by_cases hp : passed = stop
          · simp [rest, hp, Except.bind, Except.map, Judge.outcome]
          · simp [rest, hp, Except.bind]
        | deferred c =>
          cases hcs : Judge.conditions stop (xs.map g) b with
          | error e => simp [rest, hcs, Except.bind, Except.map]
          | ok r =>
            obtain ⟨cs, b⟩ := r
            cases cs <;> simp [rest, hcs, Except.bind, Except.map]

namespace Filter

variable {v : View} {obscure : Bool}

theorem evaluateClauses_eq_join (clauses : List Clause) (deferred : List Condition) (row : Row) :
    evaluateClauses v obscure clauses deferred row =
      Check.join false (clauses.map fun clause => evaluateClause v obscure clause row)
        deferred := by
  induction clauses generalizing deferred with
  | nil => rfl
  | cons clause rest ih =>
    rw [evaluateClauses, List.map_cons, Check.join]
    refine congrArg _ (funext fun o => ?_)
    cases o with
    | known passed => cases passed <;> simp [ih]
    | deferred c => exact ih (c :: deferred)

theorem evaluateAll_eq_join (parts : List Filter) (deferred : List Condition) (row : Row) :
    evaluateAll v parts deferred row =
      Check.join false (parts.map fun part => evaluate v part row) deferred := by
  induction parts generalizing deferred with
  | nil => rfl
  | cons part rest ih =>
    rw [evaluateAll, List.map_cons, Check.join]
    refine congrArg _ (funext fun o => ?_)
    cases o with
    | known passed => cases passed <;> simp [ih]
    | deferred c => exact ih (c :: deferred)

theorem evaluateAny_eq_join (parts : List Filter) (deferred : List Condition) (row : Row) :
    evaluateAny v parts deferred row =
      Check.join true (parts.map fun part => evaluate v part row) deferred := by
  induction parts generalizing deferred with
  | nil => rfl
  | cons part rest ih =>
    rw [evaluateAny, List.map_cons, Check.join]
    refine congrArg _ (funext fun o => ?_)
    cases o with
    | known passed => cases passed <;> simp [ih]
    | deferred c => exact ih (c :: deferred)

theorem passesTests_eq_join (tests : List Test) (value : Json) :
    Outcome.known <$> passesTests v obscure tests value =
      Check.join false (tests.map fun test => .known <$> passes v obscure test value) [] := by
  induction tests with
  | nil => rfl
  | cons test rest ih =>
    rw [passesTests, List.map_cons, Check.join, map_bind, bind_map_left]
    refine congrArg _ (funext fun passed => ?_)
    cases passed <;> simp [ih]

end Filter

end EntityStore
