import EntityStore.Proofs.Query.Judge
import EntityStore.Query.Monad

/-! The memo of a filter. Where no two subqueries share their site, a sound memo gives every
subquery its own keys, and the evaluation of a filter simulates its judgement
(`Filter.evaluate_simulates`). -/

namespace EntityStore

/-- No two subqueries have the same site. -/
def Distinct (subqueries : List Subquery) : Prop :=
  ∀ q ∈ subqueries, ∀ q' ∈ subqueries, q.site = q'.site → q = q'

namespace Memo.Sound

variable {v : View} {subqueries : List Subquery} {m : Memo}

theorem empty (v : View) (subqueries : List Subquery) : Sound v subqueries {} := nofun

theorem remember (h : m.Sound v subqueries) (hd : Distinct subqueries) {q : Subquery}
    (hq : q ∈ subqueries) {keys : List String} (hkeys : q.keys v {} = .ok keys) :
    Sound v subqueries { m with known := (q.site, keys) :: m.known } := by
  intro q' hq' keys' hlookup
  rw [List.lookup_cons] at hlookup
  by_cases hsite : q'.site = q.site
  · cases hd q' hq' q hq hsite
    simp only [beq_self_eq_true] at hlookup
    cases hlookup
    exact hkeys
  · rw [beq_eq_false_iff_ne.mpr hsite] at hlookup
    exact h q' hq' keys' hlookup

theorem start (h : m.Sound v subqueries) (site : Site) : (m.start site).Sound v subqueries := h

end Memo.Sound

namespace Simulates

variable {v : View} {subqueries : List Subquery}

theorem collect {site : Site} {entity attr : String} {passes : Row → Check Bool}
    {k : Row → Except QueryError Bool}
    (h : ∀ row, Simulates (Memo.Sound v subqueries) (passes row) fun b =>
      (k row).map fun passed => (passed, b)) :
    Simulates (Memo.Sound v subqueries) (Check.collect v site entity attr passes) fun b =>
      (((v.scan entity).filterM k).map fun rows =>
        rows.filterMap fun row => (Fields.get? row attr).map Json.memberKey).map fun keys =>
          (keys, b) := by
  have hcount : Simulates (Memo.Sound v subqueries)
      (modify fun s => { s with memo := s.memo.start site } : Check Unit)
      fun b => .ok ((), b) := fun b m hm => .ok () b (m.start site) (hm.start site)
  have hrows := filterM h (v.scan entity)
  refine (hcount.bind fun _ => hrows.bind fun rows => pure _).congr fun b => ?_
  cases (v.scan entity).filterM k <;> rfl

/-- A subquery that is remembered, computed without any outer labels. -/
theorem remembered (hd : Distinct subqueries) {q : Subquery} (hq : q ∈ subqueries)
    {compute : Check (List String)}
    (h : Simulates (Memo.Sound v subqueries) compute fun b =>
      (q.keys v {}).map fun keys => (keys, b)) :
    Simulates (Memo.Sound v subqueries) (Check.remembered q.site compute) fun b =>
      (q.keys v {}).map fun keys => (keys, b) := by
  intro b m hm
  rw [Check.remembered, exec_bind, exec_get, continueWith_ok]
  dsimp only
  cases hlookup : m.known.lookup q.site with
  | some keys =>
    rw [hm q hq keys hlookup]
    exact .ok keys b m hm
  | none =>
    have h := h b m hm
    rw [exec_bind]
    dsimp only at h
    generalize hr : exec compute ⟨b, m⟩ = r at h ⊢
    cases hkeys : q.keys v {} with
    | error e =>
      rw [hkeys] at h
      cases h with
      | error _ b' m' hm' => exact .error e b' m' hm'
    | ok keys =>
      rw [hkeys] at h
      cases h with
      | ok _ _ m' hm' => exact .ok keys b _ (hm'.remember hd hq hkeys)

/-- The outcome of a test whether a key is among those of a subquery. -/
theorem contains {x : Check (List String)} {k : Bindings → Except QueryError (List String)}
    (h : Simulates (Memo.Sound v subqueries) x fun b => (k b).map fun keys => (keys, b))
    (key : String) : Simulates (Memo.Sound v subqueries)
      (x >>= fun keys => Outcome.known <$> Pure.pure (keys.contains key)) fun b =>
        (k b).map fun keys => (Outcome.known (keys.contains key), b) := by
  refine (h.bind fun keys => pure (Outcome.known (keys.contains key))).congr fun b => ?_
  cases k b <;> rfl

end Simulates

namespace Filter

variable {v : View} {obscure : Bool} {subqueries : List Subquery}

theorem judgeClauses_eq_map (clauses : List Clause) (row : Row) :
    judgeClauses v obscure clauses row =
      clauses.map fun clause => judgeClause v obscure clause row := by
  induction clauses with
  | nil => rfl
  | cons clause rest ih => rw [judgeClauses, ih, List.map_cons]

theorem judgeParts_eq_map (parts : List Filter) (row : Row) :
    judgeParts v parts row = parts.map fun part => judge v part row := by
  induction parts with
  | nil => rfl
  | cons part rest ih => rw [judgeParts, ih, List.map_cons]

theorem judgeTests_eq_map (tests : List Test) (value : Json) :
    judgeTests v obscure tests value =
      tests.map fun test => judgeTest v obscure test value := by
  induction tests with
  | nil => rfl
  | cons test rest ih => rw [judgeTests, ih, List.map_cons]

theorem join_simulates {γ : Type} {sound : Memo → Prop} (stop : Bool) {xs : List γ}
    {f : γ → Check Outcome} {g : γ → Judge} (h : ∀ x ∈ xs, Simulates sound (f x) (g x)) :
    Simulates sound (Check.join stop (xs.map f) []) (Judge.join stop (xs.map g)) := by
  refine (Simulates.join stop h []).congr fun b => ?_
  rw [Judge.join]
  congr 1
  funext r
  cases r.1 <;> rfl

theorem known_simulates {sound : Memo → Prop} (passed : Bool) :
    Simulates sound (return .known passed) (Judge.known passed) := .pure _

theorem finish_simulates {sound : Memo → Prop} {x : Check Outcome} {j : Judge}
    (h : Simulates sound x j) : Simulates sound (do Check.finish (← x)) fun b =>
      (j b).bind fun r => (r.1.finish r.2).map fun passed => (passed, r.2) :=
  h.bind fun o => .read fun b => .ofExcept (o.finish b)

/-- A row that is checked on its own. -/
theorem isolated_simulates {sound : Memo → Prop} {x : Check Outcome} {j : Judge} (seed : Bindings)
    (h : Simulates sound x j) : Simulates sound (Check.isolated seed do Check.finish (← x)) fun b =>
      (j.verdict seed).map fun passed => (passed, b) := by
  refine ((finish_simulates h).isolated seed).congr fun b => ?_
  dsimp only [Judge.verdict]
  cases j seed with
  | error e => rfl
  | ok r =>
    dsimp only [Except.bind]
    cases r.1.finish r.2 <;> rfl

/-- The keys of a subquery, where every row is checked on its own. -/
theorem keys_simulate {subqueries : List Subquery} {f : Filter} (site : Site)
    (entity attr : String) (seed : Bindings) (h : ∀ row,
      Simulates (Memo.Sound v subqueries) (evaluate v f row) (judge v f row)) :
    Simulates (Memo.Sound v subqueries)
      (Check.collect v site entity attr fun row =>
        Check.isolated seed do Check.finish (← evaluate v f row))
      fun b => (Judge.keys v entity attr (fun row => judge v f row) seed).map fun keys =>
        (keys, b) :=
  .collect fun row => isolated_simulates seed (h row)

mutual

/-- From every sound memo a filter is evaluated as it is judged. -/
theorem evaluate_simulates (hd : Distinct subqueries) : (f : Filter) →
    (∀ q ∈ f.subqueries, q ∈ subqueries) → ∀ row,
      Simulates (Memo.Sound v subqueries) (evaluate v f row) (judge v f row)
  | .mk label obscure clauses, hf, row => by
    have hclauses : Simulates (Memo.Sound v subqueries)
        (evaluateClauses v obscure clauses [] row)
        (Judge.join false (judgeClauses v obscure clauses row)) := by
      rw [evaluateClauses_eq_join, judgeClauses_eq_map]
      exact join_simulates false (clauses_simulate hd obscure clauses hf row)
    cases label with
    | none => exact hclauses
    | some label =>
      refine ((Simulates.label label row).bind fun _ => hclauses).congr fun b => ?_
      rw [judge]
      dsimp only
      cases b.bind label row <;> rfl

theorem clauses_simulate (hd : Distinct subqueries) (obscure : Bool) : (clauses : List Clause) →
    (∀ q ∈ subqueriesClauses clauses, q ∈ subqueries) → ∀ row, ∀ clause ∈ clauses,
      Simulates (Memo.Sound v subqueries) (evaluateClause v obscure clause row)
        (judgeClause v obscure clause row)
  | [], _, _ => nofun
  | clause :: rest, hf, row => List.forall_mem_cons.mpr
    ⟨clause_simulates hd obscure clause (fun q hq => hf q (List.mem_append_left _ hq)) row,
      clauses_simulate hd obscure rest (fun q hq => hf q (List.mem_append_right _ hq)) row⟩

theorem clause_simulates (hd : Distinct subqueries) (obscure : Bool) : (clause : Clause) →
    (∀ q ∈ subqueriesClause clause, q ∈ subqueries) → ∀ row,
      Simulates (Memo.Sound v subqueries) (evaluateClause v obscure clause row)
        (judgeClause v obscure clause row)
  | .and parts, hf, row => by
    rw [evaluateClause, judgeClause, evaluateAll_eq_join, judgeParts_eq_map]
    exact join_simulates false (parts_simulate hd parts hf row)
  | .or parts, hf, row => by
    rw [evaluateClause, judgeClause, evaluateAny_eq_join, judgeParts_eq_map]
    exact join_simulates true (parts_simulate hd parts hf row)
  | .not part, hf, row => by
    rw [evaluateClause, judgeClause, bind_pure_comp]
    exact (evaluate_simulates hd part hf row).map Outcome.negate
  | .expr e, _, row => by
    rw [evaluateClause, judgeClause]
    intro b m hm
    rw [exec_bind, exec_get, continueWith_ok]
    dsimp only
    cases e.evaluate (some row) b with
    | resolved value => exact .ok _ b m hm
    | pending rest => exact .ok _ b m hm
  | .text attributes search, _, row => known_simulates _
  | .attribute name tests, hf, row => by
    rw [evaluateClause, judgeClause]
    cases Fields.get? row name with
    | none => exact known_simulates _
    | some value =>
      dsimp only
      rw [bind_pure_comp, passesTests_eq_join, judgeTests_eq_map]
      exact join_simulates false (tests_simulate hd obscure tests hf value)
  | .relation pointer part, hf, row => by
    rw [evaluateClause, judgeClause]
    cases v.follow pointer row with
    | found target => exact evaluate_simulates hd part hf target
    | elsewhere => exact known_simulates false
    | unset | missing =>
      intro b m hm
      cases obscure with
      | false => exact .ok _ b m hm
      | true => exact .ok _ (obscureLabels b part) m hm

theorem parts_simulate (hd : Distinct subqueries) : (parts : List Filter) →
    (∀ q ∈ subqueriesParts parts, q ∈ subqueries) → ∀ row, ∀ part ∈ parts,
      Simulates (Memo.Sound v subqueries) (evaluate v part row) (judge v part row)
  | [], _, _ => nofun
  | part :: rest, hf, row => List.forall_mem_cons.mpr
    ⟨evaluate_simulates hd part (fun q hq => hf q (List.mem_append_left _ hq)) row,
      parts_simulate hd rest (fun q hq => hf q (List.mem_append_right _ hq)) row⟩

theorem tests_simulate (hd : Distinct subqueries) (obscure : Bool) : (tests : List Test) →
    (∀ q ∈ subqueriesTests tests, q ∈ subqueries) → ∀ value, ∀ test ∈ tests,
      Simulates (Memo.Sound v subqueries) (.known <$> passes v obscure test value)
        (judgeTest v obscure test value)
  | [], _, _ => nofun
  | test :: rest, hf, value => List.forall_mem_cons.mpr
    ⟨test_simulates hd obscure test (fun q hq => hf q (List.mem_append_left _ hq)) value,
      tests_simulate hd obscure rest (fun q hq => hf q (List.mem_append_right _ hq)) value⟩

theorem test_simulates (hd : Distinct subqueries) (obscure : Bool) : (test : Test) →
    (∀ q ∈ subqueriesTest test, q ∈ subqueries) → ∀ value,
      Simulates (Memo.Sound v subqueries) (.known <$> passes v obscure test value)
        (judgeTest v obscure test value)
  | .compare .., _, _ | .between .., _, _ | .startsWith _, _, _ | .endsWith _, _, _
  | .includes _, _, _ | .present _, _, _ => known_simulates _
  | .isIn candidates, hf, value => by
    rw [passes, judgeTest]
    cases obscure with
    | true => exact known_simulates true
    | false => exact candidates_simulate hd candidates hf value
  | .notIn candidates, hf, value => by
    have hnegate : Outcome.known <$> passes v obscure (.notIn candidates) value =
        Outcome.negate <$> Outcome.known <$> isCandidate v candidates value := by
      rw [passes, bind_pure_comp, Functor.map_map, Functor.map_map]
      rfl
    rw [hnegate, judgeTest]
    exact (candidates_simulate hd candidates hf value).map Outcome.negate

theorem candidates_simulate (hd : Distinct subqueries) : (candidates : Candidates) →
    (∀ q ∈ subqueriesCandidates candidates, q ∈ subqueries) → ∀ value,
      Simulates (Memo.Sound v subqueries) (.known <$> isCandidate v candidates value)
        (judgeCandidates v candidates value)
  | .literal _, _, _ => known_simulates _
  | .subquery site entity attr filter correlated, hf, value => by
    have hq := hf _ List.mem_cons_self
    have hfilter := evaluate_simulates hd filter fun q hq => hf q (List.mem_cons_of_mem _ hq)
    have hkeys (seed : Bindings) := keys_simulate site entity attr seed hfilter
    cases hseed : correlated || !v.eagerSubqueries with
    | true =>
      -- The keys depend on the bindings around the subquery, and nothing is remembered.
      simp only [isCandidate, judgeCandidates, hseed, if_true, map_bind]
      intro b m hm
      exact (hkeys b).contains value.memberKey b m hm
    | false =>
      simp only [isCandidate, judgeCandidates, hseed, Bool.false_eq_true, if_false, map_bind]
      exact (Simulates.remembered hd hq (hkeys {})).contains value.memberKey

end

theorem memoAfter_sound (f : Filter) (hd : Distinct f.subqueries) (v : View)
    (earlier : List (Bindings × Row)) : (f.memoAfter v earlier).Sound v f.subqueries := by
  unfold memoAfter
  generalize hm : ({} : Memo) = m
  have hsound : m.Sound v f.subqueries := hm ▸ .empty v f.subqueries
  clear hm
  induction earlier generalizing m with
  | nil => exact hsound
  | cons entry earlier ih =>
    have h := finish_simulates (evaluate_simulates (v := v) hd f (fun _ hq => hq) entry.2)
    exact ih _ (h entry.1 m hsound).sound

/-- The verdict of a filter whose subqueries are told apart by their sites. -/
theorem verdict_eq (f : Filter) (hd : Distinct f.subqueries) (v : View)
    (earlier : List (Bindings × Row)) (seed : Bindings) (row : Row) :
    f.verdict v earlier seed row = (f.judge v row).verdict seed := by
  have h := finish_simulates (evaluate_simulates (v := v) hd f (fun _ hq => hq) row)
  rw [verdict, check, (h seed _ (memoAfter_sound f hd v earlier)).result, Judge.verdict]
  dsimp only
  cases judge v f row seed with
  | error e => rfl
  | ok r =>
    dsimp only [Except.bind]
    cases r.1.finish r.2 <;> rfl

end Filter

/-- The rows that match a filter are those with a verdict of its judgement, although all of them
share a memo. -/
theorem Query.matching_eq_filterM {f : Filter} (hd : Distinct f.subqueries) (v : View)
    (seed : Bindings) (rows : List Row) (w : Work) :
    (exec (Query.matching v f seed rows) w).1 =
      rows.filterM fun row => (f.judge v row).verdict seed := by
  have hcheck (row : Row) : Simulates (Memo.Sound v f.subqueries)
      (Check.isolated seed do Check.finish (← f.evaluate v row)) fun b =>
        ((f.judge v row).verdict seed).map fun passed => (passed, b) :=
    Filter.isolated_simulates seed (Filter.evaluate_simulates hd f (fun _ hq => hq) row)
  have h := Simulates.filterM hcheck rows {} {} (Memo.Sound.empty v f.subqueries)
  refine Eq.trans h.result ?_
  cases rows.filterM fun row => (f.judge v row).verdict seed <;> rfl

end EntityStore
