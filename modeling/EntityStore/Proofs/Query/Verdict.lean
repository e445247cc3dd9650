import EntityStore.Proofs.Query.Sound

/-! The verdict on a row is the truth of the filter. Every check of a filter finds its truth
(`Filter.judge_sound`), in the environment where its labels stand for what they come to stand for on
this row. Where all labels are distinct there is such an environment, so the verdict does not depend
on the order in which the filter is checked (`Filter.truth_of_verdict`). -/

namespace EntityStore

/-- The labels of a filter are pairwise distinct, and none of them is a label of a subquery. -/
def Filter.Apart (f : Filter) : Prop :=
  f.ownLabels.Nodup ∧ ∀ q ∈ f.subqueries, ∀ label ∈ q.filter.ownLabels, label ∉ f.ownLabels

/-- What the labels of a filter come to stand for agrees with an environment in which the labels of
its subqueries stand for nothing. -/
structure Env.Suits (env : Env) (assigns : List (String × Status)) (subqueries : List Subquery) :
    Prop where
  own : ∀ entry ∈ assigns, env entry.1 = entry.2
  inner : ∀ q ∈ subqueries, ∀ label ∈ q.filter.ownLabels, env label = .unvisited
  apart : ∀ q ∈ subqueries, q.filter.Apart

namespace Env.Suits

variable {env : Env} {assigns assigns' : List (String × Status)}
  {subqueries subqueries' : List Subquery}

theorem mono (h : env.Suits assigns subqueries) (ha : assigns' ⊆ assigns)
    (hs : subqueries' ⊆ subqueries) : env.Suits assigns' subqueries' where
  own entry he := h.own entry (ha he)
  inner q hq := h.inner q (hs hq)
  apart q hq := h.apart q (hs hq)

end Env.Suits

namespace Filter

variable {v : View} {env : Env} {obscure : Bool}

theorem truthClauses_eq_map (clauses : List Clause) (row : Row) :
    truthClauses v env obscure clauses row =
      clauses.map fun clause => truthClause v env obscure clause row := by
  induction clauses with
  | nil => rfl
  | cons clause rest ih => rw [truthClauses, ih, List.map_cons]

theorem truthParts_eq_map (parts : List Filter) (row : Row) :
    truthParts v env parts row = parts.map fun part => truth v env part row := by
  induction parts with
  | nil => rfl
  | cons part rest ih => rw [truthParts, ih, List.map_cons]

theorem truthTests_eq_map (tests : List Test) (value : Json) :
    truthTests v env obscure tests value =
      tests.map fun test => truthTest v env obscure test value := by
  induction tests with
  | nil => rfl
  | cons test rest ih => rw [truthTests, ih, List.map_cons]

mutual

theorem assigns_sublist (v : View) : (f : Filter) → ∀ row,
    ((f.assigns v row).map (·.1)).Sublist f.ownLabels
  | .mk label obscure clauses, row => by
    rw [assigns, ownLabels, List.map_append]
    refine List.Sublist.append ?_ (assignsClauses_sublist v obscure clauses row)
    cases label with
    | none => exact .slnil
    | some label => exact List.Sublist.refl _

theorem assignsClauses_sublist (v : View) (obscure : Bool) : (clauses : List Clause) → ∀ row,
    ((assignsClauses v obscure clauses row).map (·.1)).Sublist (ownLabelsClauses clauses)
  | [], _ => .slnil
  | clause :: rest, row => by
    rw [assignsClauses, ownLabelsClauses, List.map_append]
    exact (assignsClause_sublist v obscure clause row).append
      (assignsClauses_sublist v obscure rest row)

theorem assignsClause_sublist (v : View) (obscure : Bool) : (clause : Clause) → ∀ row,
    ((assignsClause v obscure clause row).map (·.1)).Sublist (ownLabelsClause clause)
  | .and parts, row | .or parts, row => assignsParts_sublist v parts row
  | .not part, row => assigns_sublist v part row
  | .expr _, _ | .text .., _ | .attribute .., _ => .slnil
  | .relation pointer part, row => by
    rw [assignsClause, ownLabelsClause]
    cases v.follow pointer row with
    | found target => exact assigns_sublist v part target
    | elsewhere => exact List.nil_sublist _
    | unset | missing =>
      cases obscure with
      | false => exact List.nil_sublist _
      | true =>
        simp only [if_true, List.map_map]
        exact (List.map_id _) ▸ List.Sublist.refl _

theorem assignsParts_sublist (v : View) : (parts : List Filter) → ∀ row,
    ((assignsParts v parts row).map (·.1)).Sublist (ownLabelsParts parts)
  | [], _ => .slnil
  | part :: rest, row => by
    rw [assignsParts, ownLabelsParts, List.map_append]
    exact (assigns_sublist v part row).append (assignsParts_sublist v rest row)

end

/-- The environment of a filter over what is known outside of it. -/
theorem suits_extend {f : Filter} (h : f.Apart) (hq : ∀ q ∈ f.subqueries, q.filter.Apart)
    (henv : ∀ label ∈ f.labels, env label = .unvisited) (row : Row) :
    env ≤ env.extend (f.assigns v row) ∧
      (env.extend (f.assigns v row)).Suits (f.assigns v row) f.subqueries := by
  have hsub := assigns_sublist v f row
  refine ⟨fun label => ?_, fun entry he => ?_, fun q hmem label hl => ?_, hq⟩
  · by_cases hl : label ∈ (f.assigns v row).map (·.1)
    · exact .inl (henv label (List.mem_append_left _ (hsub.subset hl)))
    · exact .inr (Env.extend_of_not_mem hl).symm
  · exact Env.extend_of_mem (hsub.nodup h.1) he
  · rw [Env.extend_of_not_mem fun hown => h.2 q hmem label hl (hsub.subset hown)]
    exact henv label (List.mem_append_right _ (List.mem_flatMap.mpr ⟨q, hmem, hl⟩))

mutual

theorem obscureLabels_eq_foldl (b : Bindings) : (f : Filter) →
    obscureLabels b f = f.ownLabels.foldl Bindings.obscure b
  | .mk label _ clauses => by
    have hclauses (b : Bindings) := obscureClauses_eq_foldl b clauses
    rw [ownLabels, List.foldl_append, ← hclauses]
    cases label <;> rfl

theorem obscureClauses_eq_foldl (b : Bindings) : (clauses : List Clause) →
    obscureClauses b clauses = (ownLabelsClauses clauses).foldl Bindings.obscure b
  | [] => rfl
  | .and parts :: rest | .or parts :: rest => by
    rw [obscureClauses, ownLabelsClauses, List.foldl_append, ownLabelsClause,
      obscureParts_eq_foldl b parts, obscureClauses_eq_foldl _ rest]
  | .not part :: rest | .relation _ part :: rest => by
    rw [obscureClauses, ownLabelsClauses, List.foldl_append, ownLabelsClause,
      obscureLabels_eq_foldl b part, obscureClauses_eq_foldl _ rest]
  | .expr _ :: rest | .text .. :: rest | .attribute .. :: rest => obscureClauses_eq_foldl b rest

theorem obscureParts_eq_foldl (b : Bindings) : (parts : List Filter) →
    obscureParts b parts = (ownLabelsParts parts).foldl Bindings.obscure b
  | [] => rfl
  | part :: rest => by
    rw [obscureParts, ownLabelsParts, List.foldl_append, obscureLabels_eq_foldl b part,
      obscureParts_eq_foldl _ rest]

end

mutual

/-- A check finds the truth of a filter. -/
theorem judge_sound : (f : Filter) → ∀ {env row},
    env.Suits (f.assigns v row) f.subqueries → Judge.Sound env (f.truth v env row) (f.judge v row)
  | .mk label obscure clauses, env, row, h => by
    have hclauses : Judge.Sound env (.many false (truthClauses v env obscure clauses row))
        (Judge.join false (judgeClauses v obscure clauses row)) := by
      rw [truthClauses_eq_map, judgeClauses_eq_map]
      refine .join false (judgeClauses_sound obscure clauses ?_)
      exact h.mono (List.subset_append_right _ _) (List.Subset.refl _)
    cases label with
    | none => exact hclauses
    | some label => exact hclauses.label (h.own (label, .bound row) List.mem_cons_self)

theorem judgeClauses_sound (obscure : Bool) : (clauses : List Clause) → ∀ {env row},
    env.Suits (assignsClauses v obscure clauses row) (subqueriesClauses clauses) →
      ∀ clause ∈ clauses, Judge.Sound env (truthClause v env obscure clause row)
        (judgeClause v obscure clause row)
  | [], _, _, _ => nofun
  | clause :: rest, _, _, h => List.forall_mem_cons.mpr
    ⟨judgeClause_sound obscure clause
      (h.mono (List.subset_append_left _ _) (List.subset_append_left _ _)),
      judgeClauses_sound obscure rest
        (h.mono (List.subset_append_right _ _) (List.subset_append_right _ _))⟩

theorem judgeClause_sound (obscure : Bool) : (clause : Clause) → ∀ {env row},
    env.Suits (assignsClause v obscure clause row) (subqueriesClause clause) →
      Judge.Sound env (truthClause v env obscure clause row) (judgeClause v obscure clause row)
  | .and parts, env, row, h => by
    rw [truthClause, judgeClause, truthParts_eq_map, judgeParts_eq_map]
    exact .join false (judgeParts_sound parts h)
  | .or parts, env, row, h => by
    rw [truthClause, judgeClause, truthParts_eq_map, judgeParts_eq_map]
    exact .join true (judgeParts_sound parts h)
  | .not part, env, row, h => (judge_sound part h).negate
  | .expr e, env, row, _ => .expr row e
  | .text attributes search, _, row, _ => .known (findsText obscure attributes search row)
  | .attribute name tests, env, row, h => by
    rw [truthClause, judgeClause]
    cases Fields.get? row name with
    | none => exact .known _
    | some value =>
      dsimp only
      rw [truthTests_eq_map, judgeTests_eq_map]
      exact .join false (judgeTests_sound obscure tests value h)
  | .relation pointer part, env, row, h => by
    rw [truthClause, judgeClause]
    rw [assignsClause] at h
    cases hf : v.follow pointer row with
    | found target =>
      rw [hf] at h
      exact judge_sound part h
    | elsewhere => exact .known false
    | unset | missing =>
      rw [hf] at h
      cases obscure with
      | false => exact .known false
      | true =>
        simp only [if_true, obscureLabels_eq_foldl]
        exact .obscured true fun label hl => h.own (label, .obscured) (List.mem_map_of_mem hl)

theorem judgeParts_sound : (parts : List Filter) → ∀ {env row},
    env.Suits (assignsParts v parts row) (subqueriesParts parts) →
      ∀ part ∈ parts, Judge.Sound env (truth v env part row) (judge v part row)
  | [], _, _, _ => nofun
  | part :: rest, _, _, h => List.forall_mem_cons.mpr
    ⟨judge_sound part (h.mono (List.subset_append_left _ _) (List.subset_append_left _ _)),
      judgeParts_sound rest
        (h.mono (List.subset_append_right _ _) (List.subset_append_right _ _))⟩

theorem judgeTests_sound (obscure : Bool) : (tests : List Test) → ∀ (value) {env assigns},
    env.Suits assigns (subqueriesTests tests) →
      ∀ test ∈ tests, Judge.Sound env (truthTest v env obscure test value)
        (judgeTest v obscure test value)
  | [], _, _, _, _ => nofun
  | test :: rest, value, _, _, h => List.forall_mem_cons.mpr
    ⟨judgeTest_sound obscure test value
      (h.mono (List.Subset.refl _) (List.subset_append_left _ _)),
      judgeTests_sound obscure rest value
        (h.mono (List.Subset.refl _) (List.subset_append_right _ _))⟩

theorem judgeTest_sound (obscure : Bool) : (test : Test) → ∀ (value) {env assigns},
    env.Suits assigns (subqueriesTest test) →
      Judge.Sound env (truthTest v env obscure test value) (judgeTest v obscure test value)
  | .compare .., _, _, _, _ | .between .., _, _, _, _ | .startsWith _, _, _, _, _
  | .endsWith _, _, _, _, _ | .includes _, _, _, _, _ | .present _, _, _, _, _ => .known _
  | .isIn candidates, value, _, _, h => by
    rw [truthTest, judgeTest]
    cases obscure with
    | true => exact .known true
    | false => exact judgeCandidates_sound candidates value h
  | .notIn candidates, value, _, _, h => (judgeCandidates_sound candidates value h).negate

theorem judgeCandidates_sound : (candidates : Candidates) → ∀ (value) {env assigns},
    env.Suits assigns (subqueriesCandidates candidates) →
      Judge.Sound env (truthCandidates v env candidates value) (judgeCandidates v candidates value)
  | .literal _, _, _, _, _ => .known _
  | .subquery site entity attr filter correlated, value, env, assigns, h => by
    intro b o b' hb hj
    rw [judgeCandidates] at hj
    obtain ⟨keys, hkeys, he⟩ := map_eq_ok.mp hj
    cases he
    refine ⟨Env.le_refl _, hb, fun final x _ _ hx => ?_⟩
    cases hx
    rw [truthCandidates]
    generalize hseed : (if correlated || !v.eagerSubqueries then b else {}) = seed at hkeys
    generalize houter : (if correlated || !v.eagerSubqueries then env else Env.empty) = outer
    have hle : seed.env ≤ outer ∧ outer ≤ env := by
      rw [← hseed, ← houter]
      split
      · exact ⟨hb, Env.le_refl _⟩
      · exact ⟨Env.le_refl _, Env.empty_le _⟩
    -- Nothing around the subquery visits its labels, so each of its rows may give them a meaning.
    have houter : ∀ label ∈ filter.labels, outer label = .unvisited := by
      intro label hl
      have henv : env label = .unvisited := by
        rcases List.mem_append.mp hl with hl | hl
        · exact h.inner _ List.mem_cons_self label hl
        · obtain ⟨q, hq, hl⟩ := List.mem_flatMap.mp hl
          exact h.inner q (List.mem_cons_of_mem _ hq) label hl
      exact (hle.2 label).elim id fun he => he.trans henv
    have hapart := List.forall_mem_cons.mp h.apart
    have hrows (row : Row) := suits_extend (v := v) hapart.1 hapart.2 houter row
    obtain ⟨rows, hpassing, rfl⟩ := Judge.Sound.keys (fun row => judge_sound filter (hrows row).2)
      (fun row => Env.le_trans hle.1 (hrows row).1) hkeys
    rw [hpassing]
    rfl

end

/-! ## Filters whose labels are pairwise distinct -/

mutual

theorem sublist_subqueries {q : Subquery} : (f : Filter) → q ∈ f.subqueries →
    (q :: q.filter.subqueries).Sublist f.subqueries
  | .mk _ _ clauses, hq => sublist_subqueriesClauses clauses hq

theorem sublist_subqueriesClauses {q : Subquery} : (clauses : List Clause) →
    q ∈ subqueriesClauses clauses → (q :: q.filter.subqueries).Sublist (subqueriesClauses clauses)
  | clause :: rest, hq => (List.mem_append.mp hq).elim
    (fun h => (sublist_subqueriesClause clause h).trans (List.sublist_append_left _ _))
    (fun h => (sublist_subqueriesClauses rest h).trans (List.sublist_append_right _ _))

theorem sublist_subqueriesClause {q : Subquery} : (clause : Clause) →
    q ∈ subqueriesClause clause → (q :: q.filter.subqueries).Sublist (subqueriesClause clause)
  | .and parts, hq | .or parts, hq => sublist_subqueriesParts parts hq
  | .not part, hq | .relation _ part, hq => sublist_subqueries part hq
  | .attribute _ tests, hq => sublist_subqueriesTests tests hq

theorem sublist_subqueriesParts {q : Subquery} : (parts : List Filter) →
    q ∈ subqueriesParts parts → (q :: q.filter.subqueries).Sublist (subqueriesParts parts)
  | part :: rest, hq => (List.mem_append.mp hq).elim
    (fun h => (sublist_subqueries part h).trans (List.sublist_append_left _ _))
    (fun h => (sublist_subqueriesParts rest h).trans (List.sublist_append_right _ _))

theorem sublist_subqueriesTests {q : Subquery} : (tests : List Test) →
    q ∈ subqueriesTests tests → (q :: q.filter.subqueries).Sublist (subqueriesTests tests)
  | test :: rest, hq => (List.mem_append.mp hq).elim
    (fun h => (sublist_subqueriesTest test h).trans (List.sublist_append_left _ _))
    (fun h => (sublist_subqueriesTests rest h).trans (List.sublist_append_right _ _))

theorem sublist_subqueriesTest {q : Subquery} : (test : Test) →
    q ∈ subqueriesTest test → (q :: q.filter.subqueries).Sublist (subqueriesTest test)
  | .isIn candidates, hq | .notIn candidates, hq => sublist_subqueriesCandidates candidates hq

theorem sublist_subqueriesCandidates {q : Subquery} : (candidates : Candidates) →
    q ∈ subqueriesCandidates candidates →
      (q :: q.filter.subqueries).Sublist (subqueriesCandidates candidates)
  | .subquery site entity attr filter correlated, hq => by
    rcases List.mem_cons.mp hq with rfl | hq
    · exact List.Sublist.refl _
    · exact (sublist_subqueries filter hq).cons _

end

theorem apart_of_nodup {f : Filter} (h : f.labels.Nodup) :
    f.Apart ∧ ∀ q ∈ f.subqueries, q.filter.Apart := by
  obtain ⟨hown, hinner, hne⟩ := List.nodup_append.mp h
  obtain ⟨heach, hpairs⟩ := List.pairwise_flatMap.mp hinner
  refine ⟨⟨hown, fun q hq label hl hl' => ?_⟩,
    fun q hq => ⟨heach q hq, fun q' hq' label hl hl' => ?_⟩⟩
  · exact hne label hl' label (List.mem_flatMap.mpr ⟨q, hq, hl⟩) rfl
  · have hpairs := List.rel_of_pairwise_cons (hpairs.sublist (sublist_subqueries f hq)) hq'
    exact hpairs label hl' label hl rfl

/-- The verdict on a row is the truth of the filter: nothing of it depends on the order in which the
filter is checked. -/
theorem truth_of_verdict {f : Filter} (hd : f.labels.Nodup) {seed : Bindings}
    (hseed : ∀ label ∈ f.labels, seed.env label = .unvisited) {row : Row} {passed : Bool}
    (h : (f.judge v row).verdict seed = .ok passed) :
    (f.truth v (seed.env.extend (f.assigns v row)) row).verdict? = some passed := by
  obtain ⟨hapart, hq⟩ := apart_of_nodup hd
  obtain ⟨hle, hsuits⟩ := suits_extend (v := v) hapart hq hseed row
  exact (judge_sound f hsuits).verdict hle h

end Filter

end EntityStore
