import EntityStore.Proofs.Query.Decided
import EntityStore.Proofs.Query.Sites

/-! Obscure mode. Both modes compile a document to the same filter but for the flag
(`Filter.compile_inMode`). A row that passes the filter passes the relaxed one too
(`Filter.verdict_relaxed`), provided that on its way nothing is relaxed below a `$not`
(`Filter.firm`): a relaxed check holds at once, so its negation fails at once
(`Filter.verdict_relaxed_not`). -/

namespace EntityStore

namespace Judge

theorem many_mono {γ : Type} (stop : Bool) {xs : List γ} {f g : γ → Bool}
    (h : ∀ x ∈ xs, f x → g x) : many stop (xs.map f) → many stop (xs.map g) := by
  induction xs with
  | nil => exact id
  | cons x xs ih =>
    obtain ⟨hx, hxs⟩ := List.forall_mem_cons.mp h
    rw [List.map_cons, List.map_cons, many_cons, many_cons]
    intro hmany
    cases stop with
    | false =>
      split at hmany
      · cases hmany
      · rename_i hf
        rw [hx (eq_true_of_ne_false hf)]
        exact ih hxs hmany
    | true =>
      split
      · rfl
      · rename_i hg
        rw [if_neg fun hf => hg (hx hf)] at hmany
        exact ih hxs hmany

/-- Neither check needs labels, and what passes the strict one passes the relaxed one, or the other
way round below an odd number of negations. -/
structure Relaxed (denied : Bool) (strict relaxed : Judge) : Prop where
  decided : strict.Decided
  decided' : relaxed.Decided
  pass : denied = false → strict.passes → relaxed.passes
  fail : denied = true → relaxed.passes → strict.passes

namespace Relaxed

variable {denied : Bool} {j strict relaxed : Judge}

theorem refl (h : j.Decided) : Relaxed denied j j := ⟨h, h, fun _ => id, fun _ => id⟩

theorem known {passed passed' : Bool} (hpass : denied = false → passed → passed')
    (hfail : denied = true → passed' → passed) :
    Relaxed denied (known passed) (Judge.known passed') :=
  ⟨decided_known _, decided_known _, hpass, hfail⟩

theorem negate (h : Relaxed (!denied) strict relaxed) :
    Relaxed denied strict.negate relaxed.negate := by
  obtain ⟨hstrict, hs⟩ := h.decided.negate
  obtain ⟨hrelaxed, hr⟩ := h.decided'.negate
  refine ⟨hstrict, hrelaxed, fun hd => ?_, fun hd => ?_⟩
  · subst hd
    rw [hs, hr, Bool.not_eq_true', Bool.not_eq_true', Bool.eq_false_iff, Bool.eq_false_iff]
    exact mt (h.fail rfl)
  · subst hd
    rw [hs, hr, Bool.not_eq_true', Bool.not_eq_true', Bool.eq_false_iff, Bool.eq_false_iff]
    exact mt (h.pass rfl)

theorem join {γ : Type} (stop : Bool) {xs : List γ} {f g : γ → Judge}
    (h : ∀ x ∈ xs, Relaxed denied (f x) (g x)) :
    Relaxed denied (Judge.join stop (xs.map f)) (Judge.join stop (xs.map g)) := by
  obtain ⟨hstrict, hs⟩ := Decided.join stop (List.forall_mem_map.mpr fun x hx => (h x hx).decided)
  obtain ⟨hrelaxed, hr⟩ :=
    Decided.join stop (List.forall_mem_map.mpr fun x hx => (h x hx).decided')
  rw [List.map_map] at hs hr
  refine ⟨hstrict, hrelaxed, fun hd => ?_, fun hd => ?_⟩
  · rw [hs, hr]
    exact many_mono stop fun x hx => (h x hx).pass hd
  · rw [hs, hr]
    exact many_mono stop fun x hx => (h x hx).fail hd

end Relaxed

end Judge

/-- Whether obscure mode relaxes the test. -/
def Test.relaxes : Test → Bool
  | .isIn _ => true
  | _ => false

namespace Filter

mutual

/-- A filter in one of the modes. Subqueries stay as they are. -/
def inMode (obscure : Bool) : Filter → Filter
  | .mk label _ clauses => .mk label obscure (inModeClauses obscure clauses)

/-- Clauses in one of the modes. -/
def inModeClauses (obscure : Bool) : List Clause → List Clause
  | [] => []
  | clause :: rest => inModeClause obscure clause :: inModeClauses obscure rest

/-- A clause in one of the modes. -/
def inModeClause (obscure : Bool) : Clause → Clause
  | .and parts => .and (inModeParts obscure parts)
  | .or parts => .or (inModeParts obscure parts)
  | .not part => .not (inMode obscure part)
  | .expr e => .expr e
  | .text attributes search => .text attributes search
  | .attribute name tests => .attribute name tests
  | .relation pointer part => .relation pointer (inMode obscure part)

/-- Filters in one of the modes. -/
def inModeParts (obscure : Bool) : List Filter → List Filter
  | [] => []
  | part :: rest => inMode obscure part :: inModeParts obscure rest

end

mutual

/-- Whether nothing is relaxed below an odd number of `$not`s when a row is checked. The flag says
whether the number of those above the filter is odd. -/
def firm (v : View) (denied : Bool) : Filter → Row → Bool
  | .mk _ _ clauses, row => firmClauses v denied clauses row

/-- Whether nothing is relaxed below an odd number of `$not`s in clauses. -/
def firmClauses (v : View) (denied : Bool) : List Clause → Row → Bool
  | [], _ => true
  | clause :: rest, row => firmClause v denied clause row && firmClauses v denied rest row

/-- Whether nothing is relaxed below an odd number of `$not`s in one clause. -/
def firmClause (v : View) (denied : Bool) : Clause → Row → Bool
  | .and parts, row | .or parts, row => firmParts v denied parts row
  | .not part, row => firm v (!denied) part row
  | .expr _, _ => true
  | .text attributes search, row =>
    !denied || findsText false attributes search row ||
      attributes.all fun name => (Fields.get? row name).isSome
  | .attribute name tests, row =>
    !denied || match Fields.get? row name with
      | none => tests.all Test.holdsOfAbsent
      | some _ => !tests.any Test.relaxes
  | .relation pointer part, row =>
    match v.follow pointer row with
    | .found target => firm v denied part target
    | .elsewhere => true
    | .unset | .missing => !denied

/-- Whether nothing is relaxed below an odd number of `$not`s in several filters. -/
def firmParts (v : View) (denied : Bool) : List Filter → Row → Bool
  | [], _ => true
  | part :: rest, row => firm v denied part row && firmParts v denied rest row

end

/-! ## Compilation -/

section

variable {schema : Schema} {entity attr : String}

/-- In both modes a document is compiled to the same filter, but for the mode. -/
def CompilesInMode (schema : Schema) (document : Json) : Prop :=
  ∀ entity obscure site, compile schema entity obscure site document =
    (compile schema entity false site document).map (inMode obscure)

theorem compileItems_inMode {items : List Json} (h : ∀ x ∈ items, CompilesInMode schema x)
    (obscure : Bool) (site : Site) (index : Nat) :
    compileItems schema entity obscure site index items =
      (compileItems schema entity false site index items).map (inModeParts obscure) := by
  induction items generalizing index with
  | nil => rfl
  | cons x xs ih =>
    obtain ⟨hx, hxs⟩ := List.forall_mem_cons.mp h
    rw [compileItems_cons, compileItems_cons, hx, ih hxs]
    cases compile schema entity false (index :: site) x with
    | error e => rfl
    | ok part => cases compileItems schema entity false site (index + 1) xs <;> rfl

theorem compileField_inMode {value : Json} (h : value.Throughout (CompilesInMode schema))
    (obscure : Bool) (site : Site) (key : String) :
    compileField schema entity obscure site key value =
      (compileField schema entity false site key value).map (inModeClause obscure) := by
  unfold compileField
  cases hform : clauseForm schema entity key value with
  | error e => rfl
  | ok form =>
    have hheld := value_of_clauseForm hform
    dsimp only [Except.bind]
    cases form with
    | junction stop items =>
      rw [hheld] at h
      rw [compileForm, compileForm, compileItems_inMode (fun x hx => (h.item hx).self)]
      cases compileItems schema entity false site 0 items <;> cases stop <;> rfl
    | not document =>
      rw [hheld] at h
      rw [compileForm, compileForm, h.self]
      cases compile schema entity false site document <;> rfl
    | plain clause => cases hheld <;> rfl
    | tests attr operators =>
      rw [compileForm, compileForm]
      cases compileTests schema attr site 0 operators <;> rfl
    | relation p document =>
      rw [hheld] at h
      rw [compileForm, compileForm, h.self]
      cases compile schema p.target false site document <;> rfl

theorem compileFields_inMode {fields : List (String × Json)}
    (h : ∀ field ∈ fields, field.2.Throughout (CompilesInMode schema))
    (obscure : Bool) (site : Site) (index : Nat) :
    compileFields schema entity obscure site index fields =
      (compileFields schema entity false site index fields).map (inModeClauses obscure) := by
  induction fields generalizing index with
  | nil => rfl
  | cons field rest ih =>
    obtain ⟨hvalue, hrest⟩ := List.forall_mem_cons.mp h
    obtain ⟨key, value⟩ := field
    by_cases hk : key = "#id"
    · subst hk
      rw [compileFields_label, compileFields_label, ih hrest]
    · rw [compileFields_cons hk, compileFields_cons hk, compileField_inMode hvalue, ih hrest]
      cases compileField schema entity false (index :: site) key value with
      | error e => rfl
      | ok clause => cases compileFields schema entity false site (index + 1) rest <;> rfl

theorem compile_inMode (document : Json) : CompilesInMode schema document := by
  induction document using Json.document_induction with
  | object fields ih =>
    intro entity obscure site
    rw [compile, compile, compileFields_inMode ih]
    cases label? fields with
    | error e => rfl
    | ok label => cases compileFields schema entity false site 0 fields <;> rfl
  | other document hdocument =>
    cases document with
    | obj fields => exact absurd rfl (hdocument fields)
    | _ => exact fun _ _ _ => rfl

end

/-! ## Bare filters -/

section

variable {v : View}

mutual

theorem bare_inMode (obscure : Bool) : (f : Filter) → (f.inMode obscure).bare = f.bare
  | .mk none _ clauses => bareClauses_inMode obscure clauses
  | .mk (some _) _ _ => rfl

theorem bareClauses_inMode (obscure : Bool) : (clauses : List Clause) →
    bareClauses (inModeClauses obscure clauses) = bareClauses clauses
  | [] => rfl
  | clause :: rest => by
    rw [inModeClauses, bareClauses, bareClause_inMode obscure clause,
      bareClauses_inMode obscure rest, bareClauses]

theorem bareClause_inMode (obscure : Bool) : (clause : Clause) →
    bareClause (inModeClause obscure clause) = bareClause clause
  | .and parts | .or parts => bareParts_inMode obscure parts
  | .not part | .relation _ part => bare_inMode obscure part
  | .expr _ | .text .. | .attribute .. => rfl

theorem bareParts_inMode (obscure : Bool) : (parts : List Filter) →
    bareParts (inModeParts obscure parts) = bareParts parts
  | [] => rfl
  | part :: rest => by
    rw [inModeParts, bareParts, bare_inMode obscure part, bareParts_inMode obscure rest, bareParts]

end

theorem judgeClauses_inMode (obscure : Bool) (clauses : List Clause) (row : Row) :
    judgeClauses v obscure (inModeClauses obscure clauses) row =
      clauses.map fun clause => judgeClause v obscure (inModeClause obscure clause) row := by
  induction clauses with
  | nil => rfl
  | cons clause rest ih => rw [inModeClauses, judgeClauses, ih, List.map_cons]

theorem judgeParts_inMode (obscure : Bool) (parts : List Filter) (row : Row) :
    judgeParts v (inModeParts obscure parts) row =
      parts.map fun part => judge v (inMode obscure part) row := by
  induction parts with
  | nil => rfl
  | cons part rest ih => rw [inModeParts, judgeParts, ih, List.map_cons]

theorem test_relaxed {denied : Bool} {test : Test} (hbare : bareTest test)
    (h : denied → test.relaxes = false) (value : Json) :
    Judge.Relaxed denied (judgeTest v false test value) (judgeTest v true test value) := by
  cases test with
  | isIn candidates =>
    have hstrict : (judgeTest v false (.isIn candidates) value).Decided :=
      judgeTest_decided false (.isIn candidates) hbare value
    -- In obscure mode every value passes, whatever the candidates are.
    refine ⟨hstrict, Judge.decided_known true, fun _ _ => rfl, fun hd => ?_⟩
    cases h hd
  | notIn candidates => exact .refl (judgeTest_decided false (.notIn candidates) hbare value)
  | _ => exact .refl (Judge.decided_known _)

theorem tests_relaxed {denied : Bool} {tests : List Test} (hbare : bareTests tests)
    (h : denied → tests.any Test.relaxes = false) (value : Json) :
    Judge.Relaxed denied (Judge.join false (judgeTests v false tests value))
      (Judge.join false (judgeTests v true tests value)) := by
  rw [judgeTests_eq_map, judgeTests_eq_map]
  refine .join false fun test htest => ?_
  refine test_relaxed (bareTest_of_mem hbare htest) (fun hd => ?_) value
  exact eq_false_of_ne_true (List.any_eq_false.mp (h hd) test htest)

theorem findsText_relaxed {denied : Bool} {attributes : List String} {search : String} {row : Row}
    (h : denied → findsText false attributes search row ∨
      attributes.all fun name => (Fields.get? row name).isSome) :
    Judge.Relaxed denied (.known (findsText false attributes search row))
      (.known (findsText true attributes search row)) := by
  refine .known (fun _ hfound => ?_) (fun hd hfound => ?_)
  · simp only [findsText, Bool.false_and, Bool.or_false] at hfound
    simp only [findsText, hfound, Bool.true_or]
  · rcases h hd with hstrict | hall
    · exact hstrict
    · have hnone : (attributes.map (Fields.get? row)).any Option.isNone = false := by
        rw [List.any_map, List.any_eq_false]
        intro name hname hnone
        have hsome := List.all_eq_true.mp hall name hname
        exact absurd hnone (by simp [Option.isSome_iff_ne_none.mp hsome])
      simpa only [findsText, hnone, Bool.and_false, Bool.false_and] using hfound

mutual

theorem judge_relaxed : (f : Filter) → f.bare → ∀ {denied row}, f.firm v denied row →
    Judge.Relaxed denied ((f.inMode false).judge v row) ((f.inMode true).judge v row)
  | .mk none _ clauses, hbare, denied, row, h => by
    have hclauses := judgeClauses_relaxed clauses hbare h
    have hjoin := Judge.Relaxed.join false hclauses
    rw [← judgeClauses_inMode, ← judgeClauses_inMode] at hjoin
    exact hjoin

theorem judgeClauses_relaxed : (clauses : List Clause) → bareClauses clauses →
    ∀ {denied row}, firmClauses v denied clauses row → ∀ clause ∈ clauses,
      Judge.Relaxed denied (judgeClause v false (inModeClause false clause) row)
        (judgeClause v true (inModeClause true clause) row)
  | [], _, _, _, _ => List.forall_mem_nil _
  | clause :: rest, hbare, denied, row, h => by
    obtain ⟨hp, hprest⟩ := Bool.and_eq_true_iff.mp hbare
    obtain ⟨hclause, hrest⟩ := Bool.and_eq_true_iff.mp h
    exact List.forall_mem_cons.mpr
      ⟨judgeClause_relaxed clause hp hclause, judgeClauses_relaxed rest hprest hrest⟩

theorem judgeClause_relaxed : (clause : Clause) → bareClause clause →
    ∀ {denied row}, firmClause v denied clause row →
      Judge.Relaxed denied (judgeClause v false (inModeClause false clause) row)
        (judgeClause v true (inModeClause true clause) row)
  | .and parts, hbare, denied, row, h => by
    have hjoin := Judge.Relaxed.join false (judgeParts_relaxed parts hbare h)
    rw [← judgeParts_inMode, ← judgeParts_inMode] at hjoin
    exact hjoin
  | .or parts, hbare, denied, row, h => by
    have hjoin := Judge.Relaxed.join true (judgeParts_relaxed parts hbare h)
    rw [← judgeParts_inMode, ← judgeParts_inMode] at hjoin
    exact hjoin
  | .not part, hbare, denied, row, h => (judge_relaxed part hbare h).negate
  | .text attributes search, _, denied, row, h => by
    refine findsText_relaxed fun hd => ?_
    rw [firmClause, hd] at h
    exact Bool.or_eq_true_iff.mp h
  | .attribute name tests, hbare, denied, row, h => by
    rw [firmClause] at h
    rw [inModeClause, inModeClause, judgeClause, judgeClause]
    cases hget : Fields.get? row name with
    | none =>
      rw [hget] at h
      refine .known (fun _ _ => rfl) (fun hd _ => ?_)
      rwa [hd] at h
    | some value =>
      rw [hget] at h
      refine tests_relaxed hbare (fun hd => ?_) value
      rwa [hd, Bool.not_true, Bool.false_or, Bool.not_eq_true'] at h
  | .relation pointer part, hbare, denied, row, h => by
    have hrelaxed : bareClause (.relation pointer (inMode true part)) :=
      (bare_inMode true part).trans hbare
    rw [firmClause] at h
    rw [inModeClause, inModeClause]
    cases hfollow : v.follow pointer row with
    | found target =>
      rw [hfollow] at h
      rw [judgeClause, judgeClause, hfollow]
      exact judge_relaxed part hbare h
    | elsewhere =>
      rw [judgeClause, judgeClause, hfollow]
      exact .refl (Judge.decided_known false)
    | unset | missing =>
      rw [hfollow] at h
      rw [judgeClause, judgeClause, hfollow]
      simp only [obscureLabels_of_bare _ hrelaxed, ite_self]
      refine .known (fun _ _ => rfl) (fun hd _ => ?_)
      rw [hd] at h
      cases h

theorem judgeParts_relaxed : (parts : List Filter) → bareParts parts →
    ∀ {denied row}, firmParts v denied parts row → ∀ part ∈ parts,
      Judge.Relaxed denied (judge v (inMode false part) row) (judge v (inMode true part) row)
  | [], _, _, _, _ => List.forall_mem_nil _
  | part :: rest, hbare, denied, row, h => by
    obtain ⟨hp, hprest⟩ := Bool.and_eq_true_iff.mp hbare
    obtain ⟨hpart, hrest⟩ := Bool.and_eq_true_iff.mp h
    exact List.forall_mem_cons.mpr
      ⟨judge_relaxed part hp hpart, judgeParts_relaxed rest hprest hrest⟩

end

end

/-- Obscure mode is conservative as long as it relaxes nothing below a `$not`: a row that passes a
filter without labels and expressions passes the same filter in obscure mode. -/
theorem verdict_relaxed {schema : Schema} {entity : String} {document : Json} {f : Filter}
    (hf : compile schema entity false [] document = .ok f) (hbare : f.bare) :
    ∃ f', compile schema entity true [] document = .ok f' ∧
      ∀ v row, f.firm v false row → ∀ earlier earlier' seed seed',
        f.verdict v earlier seed row = .ok true → f'.verdict v earlier' seed' row = .ok true := by
  have hmode (obscure : Bool) (site : Site) : compile schema entity obscure site document =
      (compile schema entity false site document).map (inMode obscure) :=
    compile_inMode document entity obscure site
  have hstrict : f.inMode false = f := by
    have h := hmode false []
    rw [hf] at h
    exact (Except.ok.inj h).symm
  have hrelaxed : compile schema entity true [] document = .ok (f.inMode true) := by
    rw [hmode, hf]
    rfl
  refine ⟨f.inMode true, hrelaxed, fun v row hfirm earlier earlier' seed seed' hp => ?_⟩
  have h := judge_relaxed f hbare hfirm
  rw [hstrict] at h
  rw [verdict_eq f (distinct_of_compile hf), h.decided.verdict] at hp
  rw [verdict_eq _ (distinct_of_compile hrelaxed), h.decided'.verdict]
  exact congrArg Except.ok (h.pass rfl (Except.ok.inj hp))

/-- A row without an age passes a disjunction by its name, whatever becomes of the age. -/
theorem verdict_relaxed_age :
    let user : Entity := { attributes :=
      Std.ExtTreeMap.ofList [("age", { type := .int }), ("name", { type := .string })] compare }
    let schema : Schema := { entities := Std.ExtTreeMap.ofList [("user", user)] compare }
    let adult : Json := .obj [("age", .obj [("$gte", .ofNat 18)])]
    let named : Json := .obj [("name", .obj [("$startsWith", .str "a")])]
    let document : Json := .obj
      [("$or", .arr [adult, named]), ("$not", .obj [("name", .str "bob")])]
    let row : Row := [("id", .str "u"), ("name", .str "ann")]
    let rows : RowMap Row := Std.ExtTreeMap.ofList [(RowKey.mk "user" "u", row)] RowKey.order
    let v : View := { schema, rows }
    ∃ f, compile schema "user" false [] document = .ok f ∧ f.bare ∧ f.firm v false row ∧
      f.verdict v [] {} row = .ok true ∧
      ∃ f', compile schema "user" true [] document = .ok f' ∧
        f'.verdict v [] {} row = .ok true := by
  intro user schema adult named document row rows v
  have hf : compile schema "user" false [] document = .ok (.mk none false
      [.or [.mk none false [.attribute "age" [.compare .gte (.ofNat 18)]],
        .mk none false [.attribute "name" [.startsWith "a"]]],
        .not (.mk none false [.attribute "name" [.compare .eq (.str "bob")]])]) := rfl
  refine ⟨_, hf, rfl, rfl, rfl, ?_⟩
  obtain ⟨f', hf', hrelaxed⟩ := verdict_relaxed hf rfl
  exact ⟨f', hf', hrelaxed v row rfl [] [] {} {} rfl⟩

/-- Below a `$not` obscure mode is not conservative: a row without an age is not known to be of age
and passes, but in obscure mode it counts as of age at once and fails. -/
theorem verdict_relaxed_not :
    let user : Entity := { attributes := Std.ExtTreeMap.ofList [("age", { type := .int })] compare }
    let schema : Schema := { entities := Std.ExtTreeMap.ofList [("user", user)] compare }
    let document : Json := .obj [("$not", .obj [("age", .obj [("$gte", .ofNat 18)])])]
    let row : Row := [("id", .str "u")]
    let rows : RowMap Row := Std.ExtTreeMap.ofList [(RowKey.mk "user" "u", row)] RowKey.order
    let v : View := { schema, rows }
    ∃ f f', compile schema "user" false [] document = .ok f ∧ f.bare ∧
      compile schema "user" true [] document = .ok f' ∧
      f.verdict v [] {} row = .ok true ∧ f'.verdict v [] {} row = .ok false :=
  ⟨_, _, rfl, rfl, rfl, rfl, rfl⟩

end Filter

end EntityStore
