import EntityStore.Proofs.Query.Form
import EntityStore.Proofs.Query.Truth

/-! The meaning of a filter: its labels, what they come to stand for, and its truth. A document has
its meaning wherever it is compiled (`Filter.compile_meaning`), so the meaning of a filter object is
put together from those of its fields (`Filter.documentMeaning_obj`). -/

namespace EntityStore

/-- What a part of a filter means to the filter around it. -/
@[ext]
structure Meaning (α : Type) where
  /-- Its labels, without those of its subqueries. -/
  own : List String
  /-- The labels of its subqueries. -/
  inner : List String
  assigns : View → α → List (String × Status)
  truth : View → Env → α → Truth

namespace Meaning

variable {α : Type}

/-- The meanings are equal, up to the order of labels. -/
structure Same (m m' : Meaning α) : Prop where
  own : m.own.Perm m'.own
  inner : m.inner.Perm m'.inner
  assigns : ∀ v a, (m.assigns v a).Perm (m'.assigns v a)
  truth : ∀ v env a, m.truth v env a = m'.truth v env a

/-- A conjunction of nothing, or a disjunction if `true` stops. -/
def unit (stop : Bool) : Meaning α := ⟨[], [], fun _ _ => [], fun _ _ _ => .known !stop⟩

/-- A conjunction, or a disjunction if `true` stops. -/
def join (stop : Bool) (m m' : Meaning α) : Meaning α where
  own := m.own ++ m'.own
  inner := m.inner ++ m'.inner
  assigns v a := m.assigns v a ++ m'.assigns v a
  truth v env a := (m.truth v env a).join stop (m'.truth v env a)

/-- The conjunction or disjunction of several meanings. -/
def many (stop : Bool) (ms : List (Meaning α)) : Meaning α := ms.foldr (join stop) (unit stop)

/-- The opposite. -/
def negate (m : Meaning α) : Meaning α :=
  { m with truth := fun v env a => (m.truth v env a).negate }

/-- A meaning under a label for the row. -/
def labelled (label : Option String) (m : Meaning Row) : Meaning Row where
  own := label.toList ++ m.own
  inner := m.inner
  assigns v row := label.toList.map (·, .bound row) ++ m.assigns v row
  truth := m.truth

/-- A meaning for the row that a pointer leads to. -/
def follow (pointer : Pointer) (obscure : Bool) (m : Meaning Row) : Meaning Row where
  own := m.own
  inner := m.inner
  assigns v row :=
    match v.follow pointer row with
    | .found target => m.assigns v target
    | .elsewhere => []
    | .unset | .missing => if obscure then m.own.map (·, .obscured) else []
  truth v env row :=
    match v.follow pointer row with
    | .found target => m.truth v env target
    | .elsewhere => .known false
    | .unset | .missing => .known obscure

/-- A meaning for the value of an attribute, if there is one. -/
def ofAttribute (name : String) (m : Meaning (Option Json)) : Meaning Row where
  own := m.own
  inner := m.inner
  assigns v row := m.assigns v (Fields.get? row name)
  truth v env row := m.truth v env (Fields.get? row name)

/-- The membership in the values of an attribute over the rows that a meaning holds of. -/
def candidates (entity attr : String) (correlated : Bool) (m : Meaning Row) : Meaning Json where
  own := []
  inner := m.own ++ m.inner
  assigns _ _ := []
  truth v env value :=
    let outer := if correlated || !v.eagerSubqueries then env else .empty
    let passing := (v.scan entity).filterM fun row =>
      (m.truth v (outer.extend (m.assigns v row)) row).verdict?
    match passing with
    | some rows => .known <|
      (rows.filterMap fun row => (Fields.get? row attr).map Json.memberKey).contains value.memberKey
    | none => .fails

/-- The test of `$in`, or of `$nin` if it is negated. -/
def membership (obscure negated : Bool) (m : Meaning Json) : Meaning (Option Json) where
  own := m.own
  inner := m.inner
  assigns _ _ := []
  truth v env value :=
    match value with
    | none => .known obscure
    | some value =>
      if negated then (m.truth v env value).negate
      else if obscure then .known true else m.truth v env value

namespace Same

variable {m m' m'' n n' : Meaning α}

theorem refl (m : Meaning α) : Same m m := ⟨.refl _, .refl _, fun _ _ => .refl _, fun _ _ _ => rfl⟩

theorem trans (h : Same m m') (h' : Same m' m'') : Same m m'' where
  own := h.own.trans h'.own
  inner := h.inner.trans h'.inner
  assigns v a := (h.assigns v a).trans (h'.assigns v a)
  truth v env a := (h.truth v env a).trans (h'.truth v env a)

theorem join (stop : Bool) (h : Same m m') (h' : Same n n') :
    Same (m.join stop n) (m'.join stop n') where
  own := h.own.append h'.own
  inner := h.inner.append h'.inner
  assigns v a := (h.assigns v a).append (h'.assigns v a)
  truth v env a := by simp only [Meaning.join, h.truth, h'.truth]

theorem join_left_comm (stop : Bool) (a b c : Meaning α) :
    Same (a.join stop (b.join stop c)) (b.join stop (a.join stop c)) where
  own := List.perm_append_comm_assoc _ _ _
  inner := List.perm_append_comm_assoc _ _ _
  assigns _ _ := List.perm_append_comm_assoc _ _ _
  truth _ _ _ := Truth.join_left_comm stop _ _ _

theorem many_perm {ms ms' : List (Meaning α)} (stop : Bool) (h : ms.Perm ms') :
    Same (many stop ms) (many stop ms') := by
  induction h with
  | nil => exact refl _
  | cons m _ ih => exact (refl m).join stop ih
  | swap m m' ms => exact join_left_comm stop m' m _
  | trans _ _ ih ih' => exact ih.trans ih'

theorem many_replace {before after : List (Meaning α)} (stop : Bool) (h : Same m m') :
    Same (many stop (before ++ m :: after)) (many stop (before ++ m' :: after)) := by
  induction before with
  | nil => exact h.join stop (refl _)
  | cons n before ih => exact (refl n).join stop ih

theorem negate (h : Same m m') : Same m.negate m'.negate :=
  { h with truth := fun v env a => congrArg Truth.negate (h.truth v env a) }

variable {k k' : Meaning Row}

theorem labelled (label : Option String) (h : Same k k') :
    Same (k.labelled label) (k'.labelled label) where
  own := h.own.append_left _
  inner := h.inner
  assigns v row := (h.assigns v row).append_left _
  truth := h.truth

theorem follow (pointer : Pointer) (obscure : Bool) (h : Same k k') :
    Same (k.follow pointer obscure) (k'.follow pointer obscure) where
  own := h.own
  inner := h.inner
  assigns v row := by
    simp only [Meaning.follow]
    cases v.follow pointer row with
    | found target => exact h.assigns v target
    | elsewhere => exact .refl _
    | unset | missing =>
      cases obscure with
      | false => exact .refl _
      | true => exact h.own.map _
  truth v env row := by
    simp only [Meaning.follow]
    cases v.follow pointer row with
    | found target => exact h.truth v env target
    | elsewhere | unset | missing => rfl

theorem ofAttribute (name : String) {m m' : Meaning (Option Json)} (h : Same m m') :
    Same (m.ofAttribute name) (m'.ofAttribute name) :=
  ⟨h.own, h.inner, fun v _ => h.assigns v _, fun v env _ => h.truth v env _⟩

theorem candidates (entity attr : String) (correlated : Bool) (h : Same k k') :
    Same (k.candidates entity attr correlated) (k'.candidates entity attr correlated) where
  own := .refl _
  inner := h.own.append h.inner
  assigns _ _ := .refl _
  truth v env value := by
    simp only [Meaning.candidates, h.truth, Env.extend_perm (h.assigns v _)]

theorem membership (obscure negated : Bool) {m m' : Meaning Json} (h : Same m m') :
    Same (m.membership obscure negated) (m'.membership obscure negated) where
  own := h.own
  inner := h.inner
  assigns _ _ := .refl _
  truth v env value := by
    simp only [Meaning.membership, h.truth]

end Same

end Meaning

namespace Filter

/-! ## The meaning of each part -/

/-- The meaning of a filter. -/
def meaning (f : Filter) : Meaning Row :=
  ⟨f.ownLabels, f.innerLabels, fun v row => f.assigns v row, fun v env row => f.truth v env row⟩

/-- The labels of subqueries. -/
def labelsOf (subqueries : List Subquery) : List String :=
  subqueries.flatMap fun q => q.filter.ownLabels

/-- The meaning of a clause. -/
def clauseMeaning (obscure : Bool) (clause : Clause) : Meaning Row :=
  ⟨ownLabelsClause clause, labelsOf (subqueriesClause clause),
    fun v row => assignsClause v obscure clause row,
    fun v env row => truthClause v env obscure clause row⟩

/-- The meaning of a test for a value, if there is one. -/
def testMeaning (obscure : Bool) (test : Test) : Meaning (Option Json) where
  own := []
  inner := labelsOf (subqueriesTest test)
  assigns _ _ := []
  truth v env value := match value with
    | none => .known (obscure || test.holdsOfAbsent)
    | some value => truthTest v env obscure test value

/-- The meaning of candidates for a value. -/
def candidatesMeaning (candidates : Candidates) : Meaning Json :=
  ⟨[], labelsOf (subqueriesCandidates candidates), fun _ _ => [],
    fun v env value => truthCandidates v env candidates value⟩

variable {obscure : Bool}

theorem labelsOf_append (qs qs' : List Subquery) :
    labelsOf (qs ++ qs') = labelsOf qs ++ labelsOf qs' := List.flatMap_append

theorem many_clauses (clauses : List Clause) :
    Meaning.many false (clauses.map (clauseMeaning obscure)) =
      ⟨ownLabelsClauses clauses, labelsOf (subqueriesClauses clauses),
        fun v row => assignsClauses v obscure clauses row,
        fun v env row => .many false (truthClauses v env obscure clauses row)⟩ := by
  induction clauses with
  | nil => rfl
  | cons clause rest ih =>
    have hcons : Meaning.many false ((clause :: rest).map (clauseMeaning obscure)) =
        (clauseMeaning obscure clause).join false
          (Meaning.many false (rest.map (clauseMeaning obscure))) := rfl
    rw [hcons, ih, subqueriesClauses, labelsOf_append]
    rfl

theorem many_parts (stop : Bool) (parts : List Filter) :
    Meaning.many stop (parts.map meaning) =
      ⟨ownLabelsParts parts, labelsOf (subqueriesParts parts),
        fun v row => assignsParts v parts row,
        fun v env row => .many stop (truthParts v env parts row)⟩ := by
  induction parts with
  | nil => rfl
  | cons part rest ih =>
    have hcons : Meaning.many stop ((part :: rest).map meaning) =
        part.meaning.join stop (Meaning.many stop (rest.map meaning)) := rfl
    rw [hcons, ih, subqueriesParts, labelsOf_append]
    rfl

theorem many_tests (tests : List Test) :
    Meaning.many false (tests.map (testMeaning obscure)) =
      { own := []
        inner := labelsOf (subqueriesTests tests)
        assigns := fun _ _ => []
        truth := fun v env value => match value with
          | none => .known (obscure || tests.all Test.holdsOfAbsent)
          | some value => .many false (truthTests v env obscure tests value) } := by
  induction tests with
  | nil =>
    refine Meaning.ext rfl rfl rfl (funext fun v => funext fun env => funext fun value => ?_)
    cases value with
    | none => exact congrArg Truth.known (Bool.or_true obscure).symm
    | some value => rfl
  | cons test rest ih =>
    have hcons : Meaning.many false ((test :: rest).map (testMeaning obscure)) =
        (testMeaning obscure test).join false
          (Meaning.many false (rest.map (testMeaning obscure))) := rfl
    rw [hcons, ih, subqueriesTests, labelsOf_append]
    refine Meaning.ext rfl rfl rfl (funext fun v => funext fun env => funext fun value => ?_)
    cases value with
    | none => cases obscure <;> cases h : test.holdsOfAbsent <;>
        simp [Meaning.join, testMeaning, Truth.join, h]
    | some value => rfl

theorem meaning_mk (label : Option String) (clauses : List Clause) :
    (Filter.mk label obscure clauses).meaning =
      (Meaning.many false (clauses.map (clauseMeaning obscure))).labelled label := by
  rw [many_clauses]
  rfl

theorem clauseMeaning_junction (stop : Bool) (parts : List Filter) :
    clauseMeaning obscure (junction stop parts) = Meaning.many stop (parts.map meaning) := by
  rw [many_parts]
  cases stop <;> rfl

theorem clauseMeaning_attribute (name : String) (tests : List Test) :
    clauseMeaning obscure (.attribute name tests) =
      (Meaning.many false (tests.map (testMeaning obscure))).ofAttribute name := by
  rw [many_tests]
  refine Meaning.ext rfl rfl rfl (funext fun v => funext fun env => funext fun row => ?_)
  cases hvalue : Fields.get? row name <;>
    simp only [clauseMeaning, Meaning.ofAttribute, truthClause, hvalue]

theorem testMeaning_membership (negated : Bool) (candidates : Candidates) :
    testMeaning obscure (if negated then .notIn candidates else .isIn candidates) =
      (candidatesMeaning candidates).membership obscure negated := by
  refine Meaning.ext rfl ?_ rfl (funext fun v => funext fun env => funext fun value => ?_)
  · cases negated <;> rfl
  · cases value with
    | none => cases negated <;> exact congrArg Truth.known (Bool.or_false obscure)
    | some value => cases negated <;> rfl

end Filter

end EntityStore
