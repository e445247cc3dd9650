import EntityStore.Proofs.Query.Alike
import EntityStore.Proofs.Query.Labels
import EntityStore.Proofs.Query.Sites
import EntityStore.Proofs.Query.Verdict

/-! Eager and plain views. In an eager view an uncorrelated subquery is computed without any outer
labels, in a plain one with those that are bound around it. A filter that fits into its scope judges
every row alike in both (`Filter.compile_alike`), so the same rows match it
(`Filter.matching_eager`). -/

namespace EntityStore

/-- The view that computes uncorrelated subqueries once, or the one that computes them for every row
anew. -/
def View.eager (v : View) (on : Bool) : View := { v with eagerSubqueries := on }

/-- Labels of the scope, and judgements of rows that are alike. -/
structure FitsAs (s : Scope) (labels : List String) (j j' : Row → Judge) : Prop where
  own : labels ⊆ s.known
  alike : ∀ row, Judge.Alike s (j row) (j' row)

/-- The rows of a subquery pass in both views. -/
theorem Judge.Alike.keys {v : View} {s : Scope} {j j' : Row → Judge}
    (h : ∀ row, Judge.Alike s (j row) (j' row)) {b b' : Bindings} (hb : b.Alike s b')
    (entity attr : String) : Judge.keys (v.eager true) entity attr j b =
      Judge.keys (v.eager false) entity attr j' b' := by
  have hverdict : (fun row => (j row).verdict b) = fun row => (j' row).verdict b' :=
    funext fun row => (h row).verdict hb
  unfold Judge.keys
  rw [hverdict]
  rfl

namespace Filter

/-- The filter fits into a scope, whichever view it is judged in. -/
def Fits (v : View) (s : Scope) (f : Filter) : Prop :=
  FitsAs s f.ownLabels (f.judge (v.eager true)) (f.judge (v.eager false))

/-- The test fits into a scope. Tests write no labels. -/
def TestFits (v : View) (s : Scope) (obscure : Bool) (test : Test) : Prop :=
  ∀ value, Judge.Alike s (judgeTest (v.eager true) obscure test value)
    (judgeTest (v.eager false) obscure test value)

/-- The clause fits into a scope. -/
def ClauseFits (v : View) (s : Scope) (obscure : Bool) (clause : Clause) : Prop :=
  FitsAs s (ownLabelsClause clause) (judgeClause (v.eager true) obscure clause)
    (judgeClause (v.eager false) obscure clause)

/-- Whatever a document that fits is compiled to fits. -/
def CompilesAlike (v : View) (schema : Schema) (document : Json) : Prop :=
  ∀ {s : Scope} {entity obscure site f}, fitsIn s.known document → Avoids s.hidden document →
    compile schema entity obscure site document = .ok f → f.Fits v s

variable {v : View} {schema : Schema} {s : Scope} {entity attr name : String} {obscure : Bool}
  {site : Site} {index : Nat}

theorem fits_empty (v : View) (s : Scope) : empty.Fits v s where
  own := List.nil_subset _
  alike _ := by
    have hnone : ∀ x ∈ ([] : List Unit), Judge.Alike s (.known true) (.known true) := nofun
    exact Judge.Alike.join false hnone

theorem compileItems_alike {items : List Json} {parts : List Filter}
    (hitems : ∀ x ∈ items, ∀ {site f}, compile schema entity obscure site x = .ok f → f.Fits v s)
    (h : compileItems schema entity obscure site index items = .ok parts) :
    ∀ part ∈ parts, part.Fits v s := by
  induction items generalizing index parts with
  | nil =>
    cases h
    nofun
  | cons x xs ih =>
    obtain ⟨hx, hxs⟩ := List.forall_mem_cons.mp hitems
    rw [compileItems_cons] at h
    obtain ⟨part, hpart, h⟩ := bind_eq_ok.mp h
    obtain ⟨parts, hparts, rfl⟩ := map_eq_ok.mp h
    exact List.forall_mem_cons.mpr ⟨hx hpart, ih hxs hparts⟩

/-- A subquery gives the same keys in both views. If it is uncorrelated, its filter must not look at
the labels around it. -/
theorem subquery_alike {filter : Filter} {correlated : Bool} (s' : Scope)
    (hknown : s.known ⊆ s'.known)
    (hhidden : s'.hidden = if correlated then s.hidden else s.known) (hfilter : filter.Fits v s')
    (target column : String) (value : Json) :
    Judge.Alike s
      (judgeCandidates (v.eager true) (.subquery site target column filter correlated) value)
      (judgeCandidates (v.eager false) (.subquery site target column filter correlated) value) := by
  intro b b' hb
  -- The eager view starts an uncorrelated subquery without bindings, the plain one with all.
  have hseeds : (if correlated then b else {}).Alike s' b' := by
    refine ⟨?_, hb.within.mono hknown⟩
    rw [hhidden]
    cases correlated with
    | true => exact hb.agree
    | false => exact hb.within.agree_empty
  have hkeys := Judge.Alike.keys (v := v) hfilter.alike hseeds target column
  rw [judgeCandidates, judgeCandidates]
  have hon : (correlated || !(v.eager true).eagerSubqueries) = correlated := Bool.or_false _
  have hoff : (correlated || !(v.eager false).eagerSubqueries) = true := Bool.or_true _
  simp only [hon, hoff, if_true]
  rw [hkeys]
  cases Judge.keys (v.eager false) target column (judge (v.eager false) filter) b' with
  | error e => exact .error e
  | ok keys => exact .ok (.known _) hb

theorem compileCandidates_alike {operand : Json} {candidates : Candidates}
    (hoperand : operand.Throughout (CompilesAlike v schema))
    (hfit : ∀ fields, operand = .obj fields → fitsInOperand s.known fields)
    (havoid : Avoids s.hidden operand)
    (h : compileCandidates schema name attr site operand = .ok candidates) (value : Json) :
    Judge.Alike s (judgeCandidates (v.eager true) candidates value)
      (judgeCandidates (v.eager false) candidates value) := by
  cases operand with
  | arr items =>
    cases h
    exact .known _
  | obj fields =>
    rw [compileCandidates_obj] at h
    obtain ⟨column, -, h⟩ := bind_eq_ok.mp (mapError_eq_ok.mp h)
    obtain ⟨filter, hfilter, rfl⟩ := map_eq_ok.mp h
    cases hget : Fields.get? fields "filter" with
    | none =>
      rw [hget] at hfilter
      cases hfilter
      have hknown : s.known ⊆ s.known := List.Subset.refl _
      exact subquery_alike ⟨s.known, s.known⟩ hknown rfl (fits_empty v _) _ _ value
    | some document =>
      rw [hget] at hfilter
      have hmem := Fields.mem_of_get? hget
      obtain ⟨hin, hapart⟩ := fitsIn_of_operand (hfit fields rfl) hget
      -- Inside an uncorrelated subquery all labels around it are hidden.
      let hidden := if isCorrelated document then s.hidden else s.known
      have hhidden : Avoids hidden document := by
        dsimp only [hidden]
        cases hc : isCorrelated document with
        | true => exact havoid.field hmem
        | false => exact hapart hc
      refine subquery_alike ⟨s.known ++ openLabels document, hidden⟩
        (List.subset_append_left _ _) rfl ?_ _ _ value
      exact (hoperand.field hmem).self hin hhidden hfilter
  | null | bool _ | num _ | str _ => cases h

theorem testFits_of_subqueries {test : Test} (h : subqueriesTest test = []) :
    TestFits v s obscure test := by
  intro value
  cases test with
  | isIn candidates | notIn candidates =>
    cases candidates with
    | literal keys => cases obscure <;> exact .known _
    | subquery => cases h
  | _ => exact .known _

theorem compileTest_alike {operand : Json} {test : Test}
    (hoperand : operand.Throughout (CompilesAlike v schema))
    (hfit : ∀ fields, name = "$in" ∨ name = "$nin" → operand = .obj fields →
      fitsInOperand s.known fields)
    (havoid : Avoids s.hidden operand)
    (h : compileTest schema attr site name operand = .ok test) : TestFits v s obscure test := by
  unfold compileTest at h
  split at h
  · rename_i hname
    obtain ⟨candidates, hcandidates, rfl⟩ := map_eq_ok.mp h
    intro value
    have halike := compileCandidates_alike hoperand (hfit · hname) havoid hcandidates value
    split
    · -- An obscured `$in` passes without its subquery.
      cases obscure with
      | true => exact .known true
      | false => exact halike
    · exact halike.negate
  · exact testFits_of_subqueries (subqueriesTest_of_plainTest h)

theorem compileTests_alike {operators : List (String × Json)} {tests : List Test}
    (hoperators : ∀ field ∈ operators, ∀ {site test},
      compileTest schema attr site field.1 field.2 = .ok test → TestFits v s obscure test)
    (h : compileTests schema attr site index operators = .ok tests) :
    ∀ test ∈ tests, TestFits v s obscure test := by
  induction operators generalizing index tests with
  | nil =>
    cases h
    nofun
  | cons operator rest ih =>
    obtain ⟨hoperator, hrest⟩ := List.forall_mem_cons.mp hoperators
    rw [compileTests_cons] at h
    obtain ⟨test, htest, h⟩ := bind_eq_ok.mp h
    obtain ⟨tests, htests, rfl⟩ := map_eq_ok.mp h
    exact List.forall_mem_cons.mpr ⟨hoperator htest, ih hrest htests⟩

theorem attribute_fits {tests : List Test} (h : ∀ test ∈ tests, TestFits v s obscure test) :
    ClauseFits v s obscure (.attribute attr tests) := by
  refine ⟨List.nil_subset _, fun row => ?_⟩
  rw [judgeClause, judgeClause]
  cases Fields.get? row attr with
  | none => exact .known _
  | some value =>
    dsimp only
    rw [judgeTests_eq_map, judgeTests_eq_map]
    exact .join false fun test htest => h test htest value

theorem parts_alike (stop : Bool) {parts : List Filter} (h : ∀ part ∈ parts, part.Fits v s)
    (row : Row) : Judge.Alike s (Judge.join stop (judgeParts (v.eager true) parts row))
      (Judge.join stop (judgeParts (v.eager false) parts row)) := by
  rw [judgeParts_eq_map, judgeParts_eq_map]
  exact .join stop fun part hpart => (h part hpart).alike row

theorem relation_fits {pointer : Pointer} {part : Filter} (h : part.Fits v s) :
    ClauseFits v s obscure (.relation pointer part) := by
  refine ⟨h.own, fun row => ?_⟩
  have hfollow (on : Bool) : (v.eager on).follow pointer row = v.follow pointer row := rfl
  rw [judgeClause, judgeClause, hfollow, hfollow]
  cases v.follow pointer row with
  | found target => exact h.alike target
  | elsewhere => exact .known false
  | unset | missing =>
    cases obscure with
    | false => exact .known false
    | true =>
      simp only [if_true, obscureLabels_eq_foldl]
      exact .obscured true h.own

theorem ownLabelsParts_subset {parts : List Filter} (h : ∀ part ∈ parts, part.Fits v s) :
    ownLabelsParts parts ⊆ s.known := by
  induction parts with
  | nil => exact List.nil_subset _
  | cons part rest ih =>
    obtain ⟨hpart, hrest⟩ := List.forall_mem_cons.mp h
    exact List.append_subset.mpr ⟨hpart.own, ih hrest⟩

theorem compileField_alike {key : String} {value : Json} {clause : Clause}
    (hvalue : value.Throughout (CompilesAlike v schema))
    (hfit : key ≠ "$in" → key ≠ "$nin" → fitsIn s.known value) (havoid : Avoids s.hidden value)
    (h : compileField schema entity obscure site key value = .ok clause) :
    ClauseFits v s obscure clause := by
  obtain ⟨form, hform, h⟩ := bind_eq_ok.mp h
  have hheld := value_of_clauseForm hform
  have hfit : fitsIn s.known value := by
    refine hfit ?_ ?_
    · rintro rfl
      cases hform
    · rintro rfl
      cases hform
  cases form with
  | junction stop items =>
    obtain ⟨parts, hparts, rfl⟩ := map_eq_ok.mp h
    rw [hheld] at hvalue hfit havoid
    have hitems := compileItems_alike (fun x hx _ _ =>
      (hvalue.item hx).self (fitsIn_of_item hfit hx) (havoid.item hx)) hparts
    cases stop <;> exact ⟨ownLabelsParts_subset hitems, parts_alike _ hitems⟩
  | not document =>
    obtain ⟨part, hpart, rfl⟩ := map_eq_ok.mp h
    rw [hheld] at hvalue hfit havoid
    have hfits := hvalue.self hfit havoid hpart
    exact ⟨hfits.own, fun row => (hfits.alike row).negate⟩
  | relation p document =>
    obtain ⟨part, hpart, rfl⟩ := map_eq_ok.mp h
    rw [hheld] at hvalue hfit havoid
    have hfits := hvalue.self hfit havoid hpart
    exact relation_fits hfits
  | plain plain =>
    cases h
    cases hheld with
    | text attributes search => exact ⟨List.nil_subset _, fun row => .known _⟩
    | expr he =>
      refine ⟨List.nil_subset _, fun row => .expr row fun label hl hhidden => ?_⟩
      exact (havoid label hhidden).2 (Expression.labels_parse value he label hl)
    | equal =>
      refine attribute_fits fun test htest value => ?_
      cases List.mem_singleton.mp htest
      exact .known _
  | tests attr operators =>
    obtain ⟨tests, htests, rfl⟩ := map_eq_ok.mp h
    rw [hheld.2] at hvalue hfit havoid
    refine attribute_fits (compileTests_alike (fun field hmem _ _ htest => ?_) htests)
    refine compileTest_alike (hvalue.field hmem) ?_ (havoid.field hmem) htest
    rintro fields hname hfields
    exact fitsInOperand_of_field hfit (hfields ▸ hmem) hname

theorem compileFields_alike {fields : List (String × Json)} {clauses : List Clause}
    (hfields : ∀ field ∈ fields, ∀ {site clause},
      compileField schema entity obscure site field.1 field.2 = .ok clause →
        ClauseFits v s obscure clause)
    (h : compileFields schema entity obscure site index fields = .ok clauses) :
    ∀ clause ∈ clauses, ClauseFits v s obscure clause := by
  induction fields generalizing index clauses with
  | nil =>
    cases h
    nofun
  | cons field rest ih =>
    obtain ⟨hfield, hrest⟩ := List.forall_mem_cons.mp hfields
    obtain ⟨key, value⟩ := field
    by_cases hk : key = "#id"
    · rw [hk, compileFields_label] at h
      exact ih hrest h
    · rw [compileFields_cons hk] at h
      obtain ⟨clause, hclause, h⟩ := bind_eq_ok.mp h
      obtain ⟨clauses, hclauses, rfl⟩ := map_eq_ok.mp h
      exact List.forall_mem_cons.mpr ⟨hfield hclause, ih hrest hclauses⟩

theorem ownLabelsClauses_subset {clauses : List Clause}
    (h : ∀ clause ∈ clauses, ClauseFits v s obscure clause) :
    ownLabelsClauses clauses ⊆ s.known := by
  induction clauses with
  | nil => exact List.nil_subset _
  | cons clause rest ih =>
    obtain ⟨hclause, hrest⟩ := List.forall_mem_cons.mp h
    exact List.append_subset.mpr ⟨hclause.own, ih hrest⟩

/-- A filter that fits into its scope, and avoids what is hidden there, judges every row alike in an
eager view and in a plain one. -/
theorem compile_alike (document : Json) : CompilesAlike v schema document := by
  induction document using Json.document_induction with
  | object fields ih =>
    intro s entity obscure site f hfit havoid h
    rw [compile] at h
    obtain ⟨label, hlabel, h⟩ := bind_eq_ok.mp h
    obtain ⟨clauses, hclauses, h⟩ := bind_eq_ok.mp h
    cases h
    have hclauses : ∀ clause ∈ clauses, ClauseFits v s obscure clause :=
      compileFields_alike (fun field hmem _ _ hclause =>
        compileField_alike (ih field hmem) (fitsIn_of_field hfit hmem) (havoid.field hmem) hclause)
        hclauses
    have hown := ownLabelsClauses_subset hclauses
    have halike (row : Row) :
        Judge.Alike s (Judge.join false (judgeClauses (v.eager true) obscure clauses row))
          (Judge.join false (judgeClauses (v.eager false) obscure clauses row)) := by
      rw [judgeClauses_eq_map, judgeClauses_eq_map]
      exact .join false fun clause hclause => (hclauses clause hclause).alike row
    cases label with
    | none => exact ⟨hown, halike⟩
    | some label =>
      have hmem := mem_of_label? hlabel
      have hknown := fitsIn_of_label hfit hmem
      exact ⟨List.cons_subset.mpr ⟨hknown, hown⟩, fun row =>
        .label hknown (havoid.label hmem) row (halike row)⟩
  | other document hdocument =>
    intro s entity obscure site f hfit havoid h
    cases document with
    | obj fields => exact absurd rfl (hdocument fields)
    | _ => cases h

/-- The same rows match, or the same error is raised, in an eager view and in a plain one. -/
theorem matching_eager {document : Json} {f : Filter}
    (h : compile schema entity obscure site document = .ok f) {scope : List String}
    (hfit : fitsIn scope document) {seed : Bindings} (hseed : seed.Within scope) (v : View)
    (rows : List Row) (w w' : Work) : (exec (Query.matching (v.eager true) f seed rows) w).1 =
      (exec (Query.matching (v.eager false) f seed rows) w').1 := by
  have hfits : f.Fits v ⟨scope, []⟩ := compile_alike document hfit (fun _ => nofun) h
  have halike : seed.Alike ⟨scope, []⟩ seed := ⟨.refl _ _, hseed⟩
  have hverdict : (fun row => (f.judge (v.eager true) row).verdict seed) =
      fun row => (f.judge (v.eager false) row).verdict seed :=
    funext fun row => (hfits.alike row).verdict halike
  have hd := distinct_of_compile h
  rw [Query.matching_eq_filterM hd, Query.matching_eq_filterM hd, hverdict]

end Filter

end EntityStore
