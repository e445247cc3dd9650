import Mathlib.Logic.Function.Iterate
import EntityStore.Proofs.Query.Growth

/-! A select ends, also where rows lead back to themselves. A projection comes back to projections
only, of the rows that its pointers lead to or of those that point back. Where these inner
projections are taken from elsewhere (`View.projectBy`), as many rounds as the selection is high
give the select, whatever is taken below them (`View.selectBy_iterate`). On the way from a select to
another one below it the one-to-many nesting falls (`View.nesting_lt_of_reaches`), as hoisted sort
keys bring no back-references (`Projected.Grows`). -/

namespace EntityStore

/-! ## One round -/

/-- A way to project a row: in an entity, with filters obscure or not, for a place in the row that
is formed. -/
abbrev Projector := String → Bool → List String → Fields Json → Row → Form Row

namespace View

/-- `form`, with the rows projected by `inner`. -/
def formBy (v : View) (inner : Projector) (entity : String) (rows : List Row) (s : Selection)
    (option : SelectOption) : Query (List Row) := do
  let hoisted := v.hoist entity s
  let plan ← Query.ofExcept hoisted.1
  let projected ← rows.mapM fun row => do
    let (out, forming) ← (inner entity option.obscure [] hoisted.2 row).run
      { bindings := option.bindings }
    Query.ofExcept (settle forming out)
  let sorted := match plan with
    | some plan => plan.sort v rows projected
    | none => projected
  return s.page sorted

/-- `select`, with the rows projected by `inner`. -/
def selectBy (v : View) (inner : Projector) (entity : String) (s : Selection)
    (option : SelectOption) : Query (List Row) := do
  let matched ← v.matching entity s option
  let rows ← v.formBy inner entity matched s option
  finishSelect v entity matched.length rows.length
  return rows

/-- `projectField`, with the rows below projected by `inner`. -/
def projectFieldBy (v : View) (inner : Projector) (entity : String) (obscure : Bool)
    (path : List String) (key : String) (out row : Row) : Projected → Form Row
  | .expr e => v.projectField entity obscure path key out row (.expr e)
  | .column => v.projectField entity obscure path key out row .column
  | .children target back selection => do
    let children ← match Fields.get? row "id" with
      | none => pure []
      | some id =>
        v.selectBy inner target (Projected.selectionOf entity id back selection)
          { obscure, bindings := (← get).bindings }
    return Fields.insert out key (.arr (children.map .obj))
  | .pointer p nested => do
    let kept := Projected.copyColumns (Projected.pointerColumns p) row out
    match v.follow p row, p with
    | .found target, _ => do
      let value ← inner p.target obscure (path ++ [key]) nested target
      return Fields.insert kept key (.obj value)
    | .unset, .polymorphic _ | .elsewhere, .polymorphic _ => return out
    | _, _ => return Fields.insert kept key .null

/-- `projectFields`, with the rows below projected by `inner`. -/
def projectFieldsBy (v : View) (inner : Projector) (entity : String) (obscure : Bool)
    (path : List String) : Fields Json → Row → Row → Form Row
  | [], out, _ => return out
  | (key, spec) :: rest, out, row =>
    if key = "#id" then v.projectFieldsBy inner entity obscure path rest out row
    else do
      let kind ← Query.ofExcept (Projected.ofField v.schema entity key spec)
      let out ← v.projectFieldBy inner entity obscure path key out row kind
      v.projectFieldsBy inner entity obscure path rest out row

/-- `project`, with the rows below projected by `inner`. -/
def projectBy (v : View) (inner : Projector) : Projector :=
  fun entity obscure path projection row => do
    if let some label ← Query.ofExcept (Filter.label? projection) then Form.bind label row
    v.projectFieldsBy inner entity obscure path projection [] row

variable (v : View) (entity : String) (obscure : Bool) (path : List String)

theorem formBy_project (rows : List Row) (s : Selection) (option : SelectOption) :
    v.formBy v.project entity rows s option = v.form entity rows s option := by
  unfold formBy form
  refine bind_congr fun plan => bind_congr fun projected => ?_
  cases plan <;> rfl

theorem selectBy_project : v.selectBy v.project = v.select := by
  funext entity s option
  rw [select, selectBy]
  simp only [formBy_project]

theorem projectFieldBy_project (key : String) (out row : Row) (kind : Projected) :
    v.projectFieldBy v.project entity obscure path key out row kind =
      v.projectField entity obscure path key out row kind := by
  cases kind with
  | expr | column => rfl
  | pointer => rfl
  | children =>
    unfold projectFieldBy projectField
    cases Fields.get? row "id" with
    | none => rfl
    | some id => simp only [selectBy_project]

theorem projectFieldsBy_project (projection : Fields Json) (out row : Row) :
    v.projectFieldsBy v.project entity obscure path projection out row =
      v.projectFields entity obscure path projection out row := by
  induction projection generalizing out with
  | nil => rw [projectFieldsBy, projectFields]
  | cons entry rest ih =>
    obtain ⟨key, spec⟩ := entry
    rw [projectFieldsBy]
    by_cases hkey : key = "#id"
    · subst hkey
      rw [if_pos rfl, projectFields_label, ih]
    · rw [if_neg hkey, projectFields_cons v hkey]
      simp only [projectFieldBy_project, ih]

/-- A projection is a round over itself. -/
theorem projectBy_project : v.projectBy v.project = v.project := by
  funext entity obscure path projection row
  unfold projectBy project
  refine bind_congr fun label => ?_
  cases label with
  | none => exact v.projectFieldsBy_project entity obscure path projection [] row
  | some label => simp only [projectFieldsBy_project]

end View

/-! ## Rounds -/

theorem Form.ofExcept_bind_congr {α β : Type} {r : Except QueryError α} {f g : α → Form β}
    (h : ∀ a, r = .ok a → f a = g a) :
    ((liftM (Query.ofExcept r) : Form α) >>= f) = ((liftM (Query.ofExcept r) : Form α) >>= g) := by
  cases r with
  | error e => rfl
  | ok a => exact h a rfl

/-- A selection of rows that point back is no higher than what it is asked for by. -/
theorem Projected.height_le_of_children {schema : Schema} {entity key target : String} {spec : Json}
    {back : Option String} {s : Selection}
    (h : ofField schema entity key spec = .ok (.children target back s)) :
    s.height ≤ spec.height := by
  rcases ofField_eq_ok h with ⟨-, e, -, he⟩ | ⟨-, ⟨he, -⟩ | ⟨_, _, _, he, -, hs⟩ | ⟨_, _, he, -⟩⟩
  · cases he
  · cases he
  · cases he
    refine Selection.height_le_of_ofJson? ?_
    unfold Selection.decode at hs
    split at hs
    · cases hs
      assumption
    · cases hs
  · cases he

/-- The two ways to project are one for projections below a height. -/
def Projector.Agree (height : Nat) (f g : Projector) : Prop :=
  ∀ entity obscure path projection row, Json.heightFields projection < height →
    f entity obscure path projection row = g entity obscure path projection row

namespace View

variable (v : View) {f g : Projector} {height : Nat} (entity : String) (obscure : Bool)
  (path : List String)

/-- The hoisted projection is lower than the selection. -/
theorem selectBy_congr (h : f.Agree height g) {s : Selection} (hs : s.height ≤ height)
    (option : SelectOption) : v.selectBy f entity s option = v.selectBy g entity s option := by
  have hprojection := v.heightFields_hoist_lt entity s
  have hrow (row : Row) := h entity option.obscure [] (v.hoist entity s).2 row (by omega)
  simp only [selectBy, formBy, hrow]

theorem projectFieldBy_congr (h : f.Agree height g) {key : String} {spec : Json}
    (hspec : spec.height ≤ height) {kind : Projected}
    (hfield : Projected.ofField v.schema entity key spec = .ok kind) (out row : Row) :
    v.projectFieldBy f entity obscure path key out row kind =
      v.projectFieldBy g entity obscure path key out row kind := by
  cases kind with
  | expr | column => rfl
  | children target back s =>
    have hs (id : Json) : (Projected.selectionOf entity id back s).height ≤ height :=
      (Projected.height_le_of_children hfield).trans hspec
    have hselect (id : Json) := v.selectBy_congr target h (hs id)
    simp only [projectFieldBy, hselect]
  | pointer p nested =>
    cases Projected.eq_obj_of_pointer hfield
    have hinner (found : Row) := h p.target obscure (path ++ [key]) nested found hspec
    simp only [projectFieldBy, hinner]

theorem projectFieldsBy_congr (h : f.Agree height g) {projection : Fields Json}
    (hprojection : Json.heightFields projection ≤ height) (out row : Row) :
    v.projectFieldsBy f entity obscure path projection out row =
      v.projectFieldsBy g entity obscure path projection out row := by
  induction projection generalizing out with
  | nil => rfl
  | cons entry rest ih =>
    obtain ⟨key, spec⟩ := entry
    obtain ⟨hspec, hrest⟩ := Nat.max_le.mp hprojection
    rw [projectFieldsBy, projectFieldsBy]
    split
    · exact ih hrest out
    · refine Form.ofExcept_bind_congr fun kind hfield => ?_
      rw [v.projectFieldBy_congr entity obscure path h hspec hfield]
      simp only [ih hrest]

/-- A round agrees on projections that are higher by one. -/
theorem projectBy_agree (h : f.Agree height g) :
    (v.projectBy f).Agree (height + 1) (v.projectBy g) := by
  intro entity obscure path projection row hprojection
  have hfields :=
    v.projectFieldsBy_congr entity obscure path h (Nat.le_of_lt_succ hprojection) [] row
  simp only [projectBy, hfields]

theorem iterate_agree (f : Projector) (height : Nat) :
    ((v.projectBy)^[height] f).Agree height v.project := by
  induction height with
  | zero => exact fun _ _ _ _ _ h => absurd h (Nat.not_lt_zero _)
  | succ height ih =>
    rw [Function.iterate_succ_apply', ← v.projectBy_project]
    exact v.projectBy_agree ih

/-- As many rounds as the selection is high give the select. -/
theorem selectBy_iterate (v : View) (f : Projector) {depth : Nat} {s : Selection}
    (h : s.height ≤ depth) (entity : String) (option : SelectOption) :
    v.selectBy ((v.projectBy)^[depth] f) entity s option = v.select entity s option := by
  rw [← selectBy_project]
  exact v.selectBy_congr entity (v.iterate_agree f depth) h option

end View

/-! ## Nesting -/

/-- The one-to-many nesting of what is asked for at a moment. -/
def Moment.nesting : Moment → Nat
  | select _ s _ => Json.nestingFields s.data
  | project _ _ projection _ _ => Json.nestingFields projection
  | fields _ _ left _ _ _ => Json.nestingFields left

namespace View

variable {v : View} {obscure : Bool} {m m' : Moment} {entity : String} {s : Selection}
  {bindings : Bindings}

theorem nesting_le_of_leads (h : v.Leads obscure m m') : m'.nesting ≤ m.nesting := by
  cases h <;> simp only [Moment.nesting]
  case row => exact nestingFields_hoist_le v _ _
  case label => exact Nat.le_refl _
  case skip | next => exact Json.nestingFields_tail_le _ _
  case pointer _ hfield _ => exact Projected.nestingFields_le_of_pointer _ hfield
  case children hfield _ => exact (Projected.nestingFields_lt_of_children _ hfield).le

theorem nesting_le_of_reaches (h : Relation.ReflTransGen (v.Leads obscure) m m') :
    m'.nesting ≤ m.nesting := by
  induction h with
  | refl => exact Nat.le_refl _
  | tail _ hlast ih => exact (nesting_le_of_leads hlast).trans ih

/-- Whatever leads to a select nests deeper, as only the rows that point back are selected. -/
theorem nesting_lt_of_leads (h : v.Leads obscure m (.select entity s bindings)) :
    Json.nestingFields s.data < m.nesting := by
  cases h with
  | children _ hfield =>
    have hlt (rest : Fields Json) := Projected.nestingFields_lt_of_children rest hfield
    exact hlt _

theorem nesting_lt_of_reaches
    (h : Relation.TransGen (v.Leads obscure) m (.select entity s bindings)) :
    Json.nestingFields s.data < m.nesting := by
  obtain ⟨before, hbefore, hlast⟩ := Relation.TransGen.tail'_iff.mp h
  exact (nesting_lt_of_leads hlast).trans_le (nesting_le_of_reaches hbefore)

/-- A select ends, whatever the schema is and however the rows lead to each other. It is what comes
of as many rounds as the selection is high, whatever the projections below them would do. Every
select in its course has a lower one-to-many nesting than those that lead to it: the sorter only
adds expressions and pointers with expressions to the projection, and its back-references stay. -/
theorem select_ends (v : View) (entity : String) (s : Selection) (option : SelectOption) :
    (∀ (below : Projector) depth, s.height ≤ depth →
      v.selectBy ((v.projectBy)^[depth] below) entity s option = v.select entity s option) ∧
    (∀ obscure bindings entity' s' bindings', Relation.TransGen (v.Leads obscure)
      (.select entity s bindings) (.select entity' s' bindings') →
        Json.nestingFields s'.data < Json.nestingFields s.data) ∧
    Projected.Grows v.schema entity s.data (v.hoist entity s).2 ∧
    Json.backReferencesIn (v.hoist entity s).2 = Json.backReferencesIn s.data :=
  ⟨fun below _ h => v.selectBy_iterate below h entity option,
    fun _ _ _ _ _ h => nesting_lt_of_reaches h, v.grows_hoist entity s,
    (v.grows_hoist entity s).backReferences_eq⟩

/-- A user who is her own boss, asked for those who she is the boss of and for her boss, by what is
computed for her boss. -/
theorem select_ends_circle :
    let user := ({} : Entity).withAttribute "boss" { type := .ref "user" }
    let ann : Row := [("id", .str "a"), ("bossId", .str "a")]
    let v : View := {
      schema := ({} : Schema).withEntity "user" user
      rows := Std.ExtTreeMap.ofList [(⟨"user", "a"⟩, ann)] RowKey.order }
    let id : String × Json := ("id", .bool true)
    let inner : Selection := { data := [("user$boss", .obj [("data", .obj [id])])] }
    let sorter : Json :=
      .arr [.obj [("$attr", .obj [("boss", .obj [("$expr", .obj [("#attr", .str "id")])])])]]
    let s : Selection := {
      data :=
        [("user$boss", .obj [("data", .obj inner.data)]), ("boss", .obj [("boss", .obj [id])])]
      sorter := some sorter }
    let s' := Projected.selectionOf "user" (.str "a") (some "boss") inner
    s.height = 5 ∧
      (v.select "user" s {}).result = .ok
        [[("user$boss", .arr [.obj [("user$boss", .arr [.obj [("id", .str "a")]])]]),
          ("bossId", .str "a"),
          ("boss", .obj [("bossId", .str "a"), ("boss", .obj [("id", .str "a")]),
            ("$expr1", .str "a")])]] ∧
      Relation.TransGen (v.Leads false) (.select "user" s {}) (.select "user" s' {}) ∧
      Json.nestingFields s'.data < Json.nestingFields s.data := by
  intro user ann v id inner sorter s s'
  obtain ⟨hrounds, hdescent, -⟩ := v.select_ends "user" s {}
  have hmatched : (v.matching "user" s {}).result = .ok [ann] := by decide +kernel
  have hplan : (v.hoist "user" s).1 = .ok (some
      ⟨[(.relation "boss" (.foreignKey "user" "bossId") (.hoisted "$expr1"), .asc)]⟩) := by
    decide +kernel
  have hprojection : (v.hoist "user" s).2 = [("user$boss", .obj [("data", .obj inner.data)]),
      ("boss", .obj [("boss", .obj [id]), ("$expr1", .obj [("#attr", .str "id")])])] := by
    decide +kernel
  have hlabel : Filter.label? (v.hoist "user" s).2 = .ok none := by rw [hprojection]; rfl
  have hfield : Projected.ofField v.schema "user" "user$boss" (.obj [("data", .obj inner.data)]) =
      .ok (.children "user" (some "boss") inner) := rfl
  have hcourse :
      Relation.TransGen (v.Leads false) (.select "user" s {}) (.select "user" s' {}) := by
    refine .tail (.tail (.single (.row hmatched hplan (.head _))) (.label hlabel rfl)) ?_
    rw [hprojection]
    exact .children (by decide) hfield rfl
  refine ⟨by decide, ?_, hcourse, hdescent false {} "user" s' {} hcourse⟩
  rw [← hrounds (fun _ _ _ _ _ => throw (.invalid .selection)) 5 (by decide)]
  decide +kernel

end View

end EntityStore
