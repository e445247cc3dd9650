import EntityStore.Proofs.Query.Sites
import EntityStore.Proofs.Query.Verdict

/-! One compiled filter for many rows. What is remembered from one row never changes the verdict on
another, and in an eager view it pays off: as long as no row fails, a subquery that is not
correlated is started at most once for all of them (`Filter.verdict_shared`). Every start of such a
subquery is paid for by its keys, which are known from then on (`Memo.Advances`). -/

namespace EntityStore

namespace Memo

/-- One if the keys of the subquery at a site are known, and zero otherwise. -/
def credit (m : Memo) (site : Site) : Nat := (m.known.lookup site).isSome.toNat

/-- What becomes of a memo while subqueries are evaluated. Nothing else is remembered, and where a
subquery should be started once only, every start makes its keys known. -/
structure Advances (once : Site → Prop) (subqueries : List Subquery) (m m' : Memo) : Prop where
  lookup : ∀ site, (∀ q ∈ subqueries, q.site ≠ site) → m'.known.lookup site = m.known.lookup site
  paid : ∀ site, once site →
    m'.started.count site + m.credit site ≤ m.started.count site + m'.credit site

namespace Advances

variable {once : Site → Prop} {subqueries subqueries' : List Subquery} {m m' m'' : Memo}
  {site : Site} {keys : List String}

theorem refl (m : Memo) : Advances once subqueries m m := ⟨fun _ _ => rfl, fun _ _ => Nat.le_refl _⟩

theorem trans (h : Advances once subqueries m m') (h' : Advances once subqueries m' m'') :
    Advances once subqueries m m'' where
  lookup site hs := (h'.lookup site hs).trans (h.lookup site hs)
  paid site ho := by
    have hpaid := h.paid site ho
    have hpaid' := h'.paid site ho
    omega

theorem mono (h : Advances once subqueries m m') (hs : subqueries ⊆ subqueries') :
    Advances once subqueries' m m' where
  lookup site hsite := h.lookup site fun q hq => hsite q (hs hq)
  paid := h.paid

theorem start (m : Memo) (h : ¬once site) : Advances once subqueries m (m.start site) where
  lookup _ _ := rfl
  paid site' ho := by
    have hne : site ≠ site' := fun he => h (he ▸ ho)
    rw [Memo.start, List.count_cons_of_ne hne]
    exact Nat.le_refl _

/-- A subquery that is computed and remembered. Nothing in it has its site. -/
theorem remember {q : Subquery} (hunknown : m.known.lookup q.site = none)
    (h : Advances once subqueries (m.start q.site) m') (hq : ∀ q' ∈ subqueries, q'.site ≠ q.site) :
    Advances once (q :: subqueries) m { m' with known := (q.site, keys) :: m'.known } where
  lookup site hsite := by
    obtain ⟨hne, hsite⟩ := List.forall_mem_cons.mp hsite
    rw [List.lookup_cons, beq_eq_false_iff_ne.mpr hne.symm]
    exact h.lookup site hsite
  paid site ho := by
    have hpaid := h.paid site ho
    by_cases he : site = q.site
    · subst he
      -- Nothing inside of `q` touches the credit of its site, so the one start is the one payment.
      have hcount : (m.start q.site).started.count q.site = m.started.count q.site + 1 :=
        List.count_cons_self
      have hbefore : m.credit q.site = 0 := by rw [credit, hunknown]; rfl
      have hinside : m'.credit q.site = 0 := by
        rw [credit, h.lookup q.site hq]
        exact hbefore
      have hafter : credit { m' with known := (q.site, keys) :: m'.known } q.site = 1 := by
        rw [credit, List.lookup_cons, beq_self_eq_true]
        rfl
      dsimp only
      omega
    · have hcount : (m.start q.site).started.count site = m.started.count site :=
        List.count_cons_of_ne (Ne.symm he)
      have hbefore : (m.start q.site).credit site = m.credit site := rfl
      have hafter : credit { m' with known := (q.site, keys) :: m'.known } site =
          m'.credit site := by
        rw [credit, List.lookup_cons, beq_eq_false_iff_ne.mpr he]
        rfl
      dsimp only
      omega

end Advances

end Memo

/-- A check that succeeds advances the memo. -/
def Check.Advances {α : Type} (once : Site → Prop) (subqueries : List Subquery) (x : Check α) :
    Prop :=
  ∀ s a s', exec x s = (.ok a, s') → s.memo.Advances once subqueries s'.memo

namespace Check.Advances

variable {α β : Type} {once : Site → Prop} {subqueries subqueries' : List Subquery} {x : Check α}

theorem mono (h : x.Advances once subqueries) (hs : subqueries ⊆ subqueries') :
    x.Advances once subqueries' := fun s a s' hx => (h s a s' hx).mono hs

theorem pure (a : α) : Advances once subqueries (Pure.pure a : Check α) := by
  intro s a s' hx
  cases hx
  exact .refl _

theorem ofExcept (r : Except QueryError α) : Advances once subqueries (Check.ofExcept r) := by
  intro s a s' hx
  cases hx
  exact .refl _

/-- What a check reads of the bindings. -/
theorem read {f : Bindings → Check α} (hf : ∀ b, (f b).Advances once subqueries) :
    Advances once subqueries (do f (← get).bindings) := fun s => hf s.bindings s

/-- A check that changes the bindings only. -/
theorem rebind (f : Bindings → Bindings) :
    Advances once subqueries (modify fun s => { s with bindings := f s.bindings }) := by
  intro s a s' hx
  cases hx
  exact .refl _

theorem bind {f : α → Check β} (hx : x.Advances once subqueries)
    (hf : ∀ a, (f a).Advances once subqueries) : (x >>= f).Advances once subqueries := by
  intro s b s' h
  rw [exec_bind] at h
  obtain ⟨a, ha, hb⟩ := continueWith_eq_ok h
  exact (hx s a _ (Prod.ext ha rfl)).trans (hf a _ b s' hb)

theorem map (f : α → β) (hx : x.Advances once subqueries) :
    (f <$> x).Advances once subqueries := by
  rw [← bind_pure_comp]
  exact hx.bind fun a => pure (f a)

theorem isolated (seed : Bindings) (hx : x.Advances once subqueries) :
    (Check.isolated seed x).Advances once subqueries := by
  intro s a s' h
  have hexec : exec (Check.isolated seed x) s = ((exec x { s with bindings := seed }).1,
      { (exec x { s with bindings := seed }).2 with bindings := s.bindings }) := rfl
  rw [hexec] at h
  rcases hr : exec x { s with bindings := seed } with ⟨result, state⟩
  rw [hr] at h
  cases h
  exact hx { s with bindings := seed } a state hr

theorem label (label : String) (row : Row) :
    (Check.bind label row).Advances once subqueries :=
  read fun b => (ofExcept (b.bind label row)).bind fun b' => rebind fun _ => b'

theorem finish (o : Outcome) : (Check.finish o).Advances once subqueries :=
  read fun b => ofExcept (o.finish b)

theorem filterM {γ : Type} {f : γ → Check Bool} (h : ∀ x, (f x).Advances once subqueries)
    (xs : List γ) : Advances once subqueries (xs.filterM f) := by
  have haux (acc : List γ) : Advances once subqueries (List.filterAuxM f xs acc) := by
    induction xs generalizing acc with
    | nil => exact pure acc
    | cons x xs ih => exact (h x).bind fun passed => ih (cond passed (x :: acc) acc)
  exact (haux []).bind fun rows => pure rows.reverse

theorem join (stop : Bool) {γ : Type} {xs : List γ} {f : γ → Check Outcome}
    (h : ∀ x ∈ xs, (f x).Advances once subqueries) (deferred : List Condition) :
    Advances once subqueries (Check.join stop (xs.map f) deferred) := by
  induction xs generalizing deferred with
  | nil => exact pure _
  | cons x xs ih =>
    obtain ⟨hx, hxs⟩ := List.forall_mem_cons.mp h
    refine hx.bind fun o => ?_
    cases o with
    | known passed =>
      by_cases hp : passed = stop
      · simp only [hp, if_true]
        exact pure _
      · simp only [hp, if_false]
        exact ih hxs deferred
    | deferred c => exact ih hxs (c :: deferred)

/-- The keys of a subquery, from its start on. -/
theorem collect {v : View} {site : Site} {entity attr : String} {passes : Row → Check Bool}
    (h : ∀ row, (passes row).Advances once subqueries) {s s' : RowState} {keys : List String}
    (hs : exec (Check.collect v site entity attr passes) s = (.ok keys, s')) :
    (s.memo.start site).Advances once subqueries s'.memo := by
  have hrows := (filterM h (v.scan entity)).bind fun rows =>
    pure (rows.filterMap fun row => (Fields.get? row attr).map Json.memberKey)
  rw [Check.collect, exec_bind, exec_modify, continueWith_ok] at hs
  exact hrows _ keys s' hs

/-- A subquery that may be started again and again. -/
theorem collect_of_not (v : View) {site : Site} (entity attr : String) {passes : Row → Check Bool}
    (hsite : ¬once site) (h : ∀ row, (passes row).Advances once subqueries) :
    (Check.collect v site entity attr passes).Advances once subqueries :=
  fun s _ _ hs => (Memo.Advances.start s.memo hsite).trans (collect h hs)

theorem remembered {v : View} {q : Subquery} {passes : Row → Check Bool}
    (h : ∀ row, (passes row).Advances once subqueries) (hq : ∀ q' ∈ subqueries, q'.site ≠ q.site) :
    Advances once (q :: subqueries)
      (Check.remembered q.site (Check.collect v q.site q.entity q.attr passes)) := by
  intro s a s' hs
  rw [Check.remembered, exec_bind, exec_get, continueWith_ok] at hs
  cases hlookup : s.memo.known.lookup q.site with
  | some keys =>
    rw [hlookup] at hs
    cases hs
    exact .refl _
  | none =>
    rw [hlookup] at hs
    dsimp only at hs
    rw [exec_bind] at hs
    obtain ⟨keys, hkeys, hs⟩ := continueWith_eq_ok hs
    have hcollect := collect h (Prod.ext hkeys rfl)
    cases hs
    exact hcollect.remember hlookup hq

end Check.Advances

/-- The subqueries that should be started once only are not correlated, and none of them has a site
in common with a subquery inside of it. -/
structure Shares (once : Site → Prop) (subqueries : List Subquery) : Prop where
  correlated : ∀ q ∈ subqueries, q.correlated = true → ¬once q.site
  apart : ∀ q ∈ subqueries, ∀ q' ∈ q.filter.subqueries, q'.site ≠ q.site

theorem Shares.mono {once : Site → Prop} {subqueries subqueries' : List Subquery}
    (h : Shares once subqueries') (hs : subqueries ⊆ subqueries') : Shares once subqueries where
  correlated q hq := h.correlated q (hs hq)
  apart q hq := h.apart q (hs hq)

namespace Filter

variable {v : View} {once : Site → Prop}

mutual

/-- In an eager view the evaluation of a filter pays for the subqueries that it starts. -/
theorem evaluate_advances (hv : v.eagerSubqueries = true) : (f : Filter) →
    Shares once f.subqueries → ∀ row, (f.evaluate v row).Advances once f.subqueries
  | .mk label obscure clauses, h, row => by
    have hclauses : (evaluateClauses v obscure clauses [] row).Advances once
        (subqueriesClauses clauses) := by
      rw [evaluateClauses_eq_join]
      exact .join false (clauses_advance hv obscure clauses h row) []
    cases label with
    | none => exact hclauses
    | some label => exact (Check.Advances.label label row).bind fun _ => hclauses

theorem clauses_advance (hv : v.eagerSubqueries = true) (obscure : Bool) :
    (clauses : List Clause) → Shares once (subqueriesClauses clauses) → ∀ row,
      ∀ clause ∈ clauses,
        (evaluateClause v obscure clause row).Advances once (subqueriesClauses clauses)
  | [], _, _ => nofun
  | clause :: rest, h, row => List.forall_mem_cons.mpr
    ⟨(clause_advances hv obscure clause (h.mono (List.subset_append_left _ _)) row).mono
      (List.subset_append_left _ _),
      fun clause' hmem => (clauses_advance hv obscure rest
        (h.mono (List.subset_append_right _ _)) row clause' hmem).mono
          (List.subset_append_right _ _)⟩

theorem clause_advances (hv : v.eagerSubqueries = true) (obscure : Bool) : (clause : Clause) →
    Shares once (subqueriesClause clause) → ∀ row,
      (evaluateClause v obscure clause row).Advances once (subqueriesClause clause)
  | .and parts, h, row => by
    rw [evaluateClause, evaluateAll_eq_join]
    exact .join false (parts_advance hv parts h row) []
  | .or parts, h, row => by
    rw [evaluateClause, evaluateAny_eq_join]
    exact .join true (parts_advance hv parts h row) []
  | .not part, h, row => by
    rw [evaluateClause, bind_pure_comp]
    exact (evaluate_advances hv part h row).map Outcome.negate
  | .expr e, _, row => by
    intro s a s' hs
    rw [evaluateClause, exec_bind, exec_get, continueWith_ok] at hs
    cases he : e.evaluate (some row) s.bindings <;> (rw [he] at hs; cases hs; exact .refl _)
  | .text attributes search, _, row => .pure _
  | .attribute name tests, h, row => by
    rw [evaluateClause]
    cases Fields.get? row name with
    | none => exact .pure _
    | some value =>
      dsimp only
      rw [bind_pure_comp, passesTests_eq_join]
      exact .join false (tests_advance hv obscure tests h value) []
  | .relation pointer part, h, row => by
    rw [evaluateClause]
    cases v.follow pointer row with
    | found target => exact evaluate_advances hv part h target
    | elsewhere => exact .pure _
    | unset | missing =>
      cases obscure with
      | false => exact .pure _
      | true => exact (Check.Advances.rebind (obscureLabels · part)).bind fun _ => .pure _

theorem parts_advance (hv : v.eagerSubqueries = true) : (parts : List Filter) →
    Shares once (subqueriesParts parts) → ∀ row, ∀ part ∈ parts,
      (evaluate v part row).Advances once (subqueriesParts parts)
  | [], _, _ => nofun
  | part :: rest, h, row => List.forall_mem_cons.mpr
    ⟨(evaluate_advances hv part (h.mono (List.subset_append_left _ _)) row).mono
      (List.subset_append_left _ _),
      fun part' hmem => (parts_advance hv rest (h.mono (List.subset_append_right _ _)) row
        part' hmem).mono (List.subset_append_right _ _)⟩

theorem tests_advance (hv : v.eagerSubqueries = true) (obscure : Bool) : (tests : List Test) →
    Shares once (subqueriesTests tests) → ∀ value, ∀ test ∈ tests,
      Check.Advances once (subqueriesTests tests) (Outcome.known <$> passes v obscure test value)
  | [], _, _ => nofun
  | test :: rest, h, value => List.forall_mem_cons.mpr
    ⟨((test_advances hv obscure test (h.mono (List.subset_append_left _ _)) value).map _).mono
      (List.subset_append_left _ _),
      fun test' hmem => (tests_advance hv obscure rest (h.mono (List.subset_append_right _ _))
        value test' hmem).mono (List.subset_append_right _ _)⟩

theorem test_advances (hv : v.eagerSubqueries = true) (obscure : Bool) : (test : Test) →
    Shares once (subqueriesTest test) → ∀ value,
      (passes v obscure test value).Advances once (subqueriesTest test)
  | .compare .., _, _ | .between .., _, _ | .startsWith _, _, _ | .endsWith _, _, _
  | .includes _, _, _ | .present _, _, _ => .pure _
  | .isIn candidates, h, value => by
    rw [passes]
    cases obscure with
    | true => exact .pure _
    | false => exact candidates_advance hv candidates h value
  | .notIn candidates, h, value => by
    rw [passes, bind_pure_comp]
    exact (candidates_advance hv candidates h value).map _

theorem candidates_advance (hv : v.eagerSubqueries = true) : (candidates : Candidates) →
    Shares once (subqueriesCandidates candidates) → ∀ value,
      (isCandidate v candidates value).Advances once (subqueriesCandidates candidates)
  | .literal _, _, _ => .pure _
  | .subquery site entity attr filter correlated, h, value => by
    -- Eager views recompute the correlated subqueries only, and `once` holds of none of these.
    let q : Subquery := ⟨site, entity, attr, filter, correlated⟩
    have hmem : q ∈ q :: filter.subqueries := List.mem_cons_self
    have hinner := h.mono (List.subset_cons_self q filter.subqueries)
    have hpasses (seed : Bindings) (row : Row) : Check.Advances once filter.subqueries
        (Check.isolated seed do Check.finish (← evaluate v filter row)) :=
      ((evaluate_advances hv filter hinner row).bind .finish).isolated seed
    cases correlated with
    | true =>
      simp only [isCandidate, Bool.true_or, if_true]
      have hcollect (seed : Bindings) := (Check.Advances.collect_of_not v q.entity q.attr
        (h.correlated q hmem rfl) (hpasses seed)).mono (List.subset_cons_self q filter.subqueries)
      exact .read fun b => (hcollect b).bind fun keys => .pure (keys.contains value.memberKey)
    | false =>
      simp only [isCandidate, hv, Bool.not_true, Bool.or_false, Bool.false_eq_true, if_false]
      exact (Check.Advances.remembered (hpasses {}) (h.apart q hmem)).bind fun _ => .pure _

end

/-- The subqueries of a compiled filter that are not correlated. -/
def Uncorrelated (f : Filter) (site : Site) : Prop :=
  ∃ q ∈ f.subqueries, q.correlated = false ∧ q.site = site

theorem shares_of_compile {schema : Schema} {entity : String} {obscure : Bool} {site : Site}
    {document : Json} {f : Filter} (hf : compile schema entity obscure site document = .ok f) :
    Shares f.Uncorrelated f.subqueries where
  correlated q hq hcorrelated := by
    rintro ⟨q', hq', hfree, hsite⟩
    rw [distinct_of_compile hf q' hq' q hq hsite, hcorrelated] at hfree
    cases hfree
  apart q hq q' hq' he := by
    have hnodup := (compile_placed document hf).nodup
    have hsub := (sublist_subqueries f hq).map (·.site)
    have hinner := (List.nodup_cons.mp (hnodup.sublist hsub)).1
    exact hinner (List.mem_map.mpr ⟨q', hq', he⟩)

/-- A row whose check does not fail advances any sound memo. -/
theorem check_advances {f : Filter} (hd : Distinct f.subqueries) (hf : Shares once f.subqueries)
    (hv : v.eagerSubqueries = true) {m : Memo} (hm : m.Sound v f.subqueries)
    {bindings : Bindings} {row : Row} {o : Outcome}
    (h : (exec (f.evaluate v row) ⟨bindings, {}⟩).1 = .ok o) :
    m.Advances once f.subqueries (exec (f.check v row) ⟨bindings, m⟩).2.memo := by
  have hsimulates := evaluate_simulates (v := v) hd f (fun _ hq => hq) row
  have hresult := (hsimulates bindings m hm).result
  rw [← (hsimulates bindings {} (.empty v f.subqueries)).result, h] at hresult
  rcases hs : exec (f.evaluate v row) ⟨bindings, m⟩ with ⟨result, state⟩
  rw [hs] at hresult
  cases hresult
  have hmemo : (exec (f.check v row) ⟨bindings, m⟩).2.memo = state.memo := by
    rw [check, exec_bind, hs]
    rfl
  rw [hmemo]
  exact f.evaluate_advances hv hf row _ o state hs

theorem memoAfter_advances {f : Filter} (hd : Distinct f.subqueries)
    (hf : Shares once f.subqueries) (hv : v.eagerSubqueries = true)
    {checked : List (Bindings × Row)}
    (h : ∀ entry ∈ checked, ∃ o, (exec (f.evaluate v entry.2) ⟨entry.1, {}⟩).1 = .ok o) :
    Memo.Advances once f.subqueries {} (f.memoAfter v checked) := by
  have hfold (m : Memo) (hm : m.Sound v f.subqueries) : m.Advances once f.subqueries
      (checked.foldl (fun memo entry => (exec (f.check v entry.2) ⟨entry.1, memo⟩).2.memo) m) := by
    induction checked generalizing m with
    | nil => exact .refl m
    | cons entry rest ih =>
      obtain ⟨⟨o, ho⟩, hrest⟩ := List.forall_mem_cons.mp h
      have hevaluate := evaluate_simulates (v := v) hd f (fun _ hq => hq) entry.2
      have hsound := (finish_simulates hevaluate entry.1 m hm).sound
      exact (check_advances hd hf hv hm ho).trans (ih hrest _ hsound)
  exact hfold {} (.empty v f.subqueries)

/-- Rows that are checked with one compiled filter, each from its own labels, have no influence on
one another: the verdict on a row, or the error, is the one that the filter gives when it is new. In
an eager view, if no check fails, a subquery that is not correlated is started at most once. -/
theorem verdict_shared {schema : Schema} {entity : String} {obscure : Bool} {document : Json}
    {f : Filter} (hf : compile schema entity obscure [] document = .ok f) (v : View)
    (checked : List (Bindings × Row)) :
    (∀ seed row, f.verdict v checked seed row = f.verdict v [] seed row) ∧
      (v.eagerSubqueries = true →
        (∀ entry ∈ checked, ∃ o, (exec (f.evaluate v entry.2) ⟨entry.1, {}⟩).1 = .ok o) →
          ∀ q ∈ f.subqueries, q.correlated = false →
            (∀ q' ∈ f.subqueries, q'.site = q.site → q' = q) ∧
              (f.memoAfter v checked).started.count q.site ≤ 1) := by
  have hd := distinct_of_compile hf
  refine ⟨fun seed row => ?_, fun hv hchecked q hq hfree => ?_⟩
  · rw [verdict_eq f hd, verdict_eq f hd]
  · have hadvances := memoAfter_advances hd (shares_of_compile hf) hv hchecked
    have hpaid := hadvances.paid q.site ⟨q, hq, hfree, rfl⟩
    have hcredit : (f.memoAfter v checked).credit q.site ≤ 1 := Bool.toNat_le _
    have hstart : ({} : Memo).started.count q.site = 0 := rfl
    exact ⟨fun q' hq' hsite => hd q' hq' q hq hsite, by omega⟩

/-- Two tasks with one owner. One subquery finds the owners, and the one inside of it their teams:
neither is started for the second task again. -/
theorem verdict_shared_team :
    let task : Entity :=
      { attributes := Std.ExtTreeMap.ofList [("owner", { type := .ref "user" })] compare }
    let named : Entity :=
      { attributes := Std.ExtTreeMap.ofList [("name", { type := .string })] compare }
    let schema : Schema :=
      { entities := Std.ExtTreeMap.ofList
          [("task", task), ("team", named), ("user", named)] compare }
    let among (entity column : String) (filter : Json) : Json := .obj [("$in", .obj
      [("entity", .str entity), ("data", .obj [(column, .bool true)]), ("filter", filter)])]
    let teams : Json := .obj [("name", among "team" "name" (.obj []))]
    let document : Json := .obj [("ownerId", among "user" "id" teams)]
    let inner : Filter := .mk none false
      [.attribute "name" [.isIn (.subquery [0, 0, 0, 0] "team" "name" .empty false)]]
    let f : Filter := .mk none false
      [.attribute "ownerId" [.isIn (.subquery [0, 0] "user" "id" inner false)]]
    let rows : RowMap Row := Std.ExtTreeMap.ofList
      [(RowKey.mk "team" "t", [("id", .str "t"), ("name", .str "red")]),
        (RowKey.mk "user" "u", [("id", .str "u"), ("name", .str "red")])] RowKey.order
    let v : View := { schema, rows }
    let checked : List (Bindings × Row) :=
      [({}, [("id", .str "a"), ("ownerId", .str "u")]),
        ({}, [("id", .str "b"), ("ownerId", .str "u")])]
    compile schema "task" false [] document = .ok f ∧
      (f.memoAfter v checked).started.count [0, 0, 0, 0] ≤ 1 := by
  intro task named schema among teams document inner f rows v checked
  have hf : compile schema "task" false [] document = .ok f := rfl
  have hchecked : ∀ entry ∈ checked,
      ∃ o, (exec (f.evaluate v entry.2) ⟨entry.1, {}⟩).1 = .ok o := by
    refine List.forall_mem_cons.mpr ⟨⟨.known true, rfl⟩, List.forall_mem_cons.mpr ⟨⟨_, rfl⟩, nofun⟩⟩
  have hq : (⟨[0, 0, 0, 0], "team", "name", .empty, false⟩ : Subquery) ∈ f.subqueries :=
    .tail _ (.head _)
  exact ⟨hf, ((verdict_shared hf v checked).2 rfl hchecked _ hq rfl).2⟩

end Filter

end EntityStore
