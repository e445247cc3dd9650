import EntityStore.Proofs.Query.Settling

/-! Names of columns and pointers in queries. Filters, sorters and projections ask the schema what a
name is, but each of them has names of its own that it looks for first. So they take a name alike
unless it is one of those (`Schema.names_taken`): a filter keeps every name that begins with a
dollar sign, though three columns of every row begin with one (`Schema.filter_refuses_createAt`). -/

namespace EntityStore

/-! ## Names that the schema is not asked for -/

/-- The clause is about no column and no pointer. -/
def Clause.isLogical : Clause → Bool
  | .attribute .. | .relation .. => false
  | .and _ | .or _ | .not _ | .expr _ | .text .. => true

namespace Filter

variable {schema : Schema} {entity key : String} {obscure : Bool} {site : Site} {value : Json}
  {clause : Clause}

/-- A key that begins with a dollar sign is about no column and no pointer. -/
theorem isLogical_of_compileField (hkey : Expression.isOperatorKey key = true)
    (h : compileField schema entity obscure site key value = .ok clause) :
    clause.isLogical = true := by
  obtain ⟨form, hform, h⟩ := bind_eq_ok.mp h
  unfold clauseForm at hform
  -- Conjunctions, negations, text searches and expressions; other operators are refused.
  split at hform
  · split at hform
    · cases hform
      obtain ⟨parts, -, rfl⟩ := map_eq_ok.mp h
      rw [junction]
      split <;> rfl
    · cases hform
  split at hform
  · cases hform
    obtain ⟨part, -, rfl⟩ := map_eq_ok.mp h
    rfl
  split at hform
  · obtain ⟨search, -, hform⟩ := bind_eq_ok.mp hform
    obtain ⟨attributes, -, rfl⟩ := map_eq_ok.mp hform
    cases h
    rfl
  split at hform
  · obtain ⟨e, -, rfl⟩ := map_eq_ok.mp hform
    cases h
    rfl
  · cases hform

theorem clauseForm_column (hkey : Expression.isOperatorKey key = false)
    (hc : schema.relation entity key = .ok .column) (hvalue : value.obj? = none) :
    clauseForm schema entity key value = .ok (.plain (.attribute key [.compare .eq value])) := by
  obtain ⟨⟨hand, hor⟩, hnot, htext, hexpr⟩ := not_operatorKey hkey
  unfold clauseForm
  rw [if_neg (by simp [hand, hor]), if_neg hnot, if_neg htext, hexpr, hkey, hc]
  cases value with
  | obj fields => cases hvalue
  | _ => rfl

/-- An object with a label and nothing else has no clauses. -/
theorem compile_label (value : Json) : compile schema entity obscure site (.obj [("#id", value)]) =
    (label? [("#id", value)]).map fun label => .mk label obscure [] := by
  rw [compile, compileFields_label, compileFields]
  cases label? [("#id", value)] <;> rfl

/-- A name of which a filter object makes a clause on a column or a pointer is no label and begins
with no dollar sign. -/
theorem name_of_compile {label : Option String} (hclause : clause.isLogical = false)
    (h : compile schema entity obscure site (.obj [(key, value)]) =
      .ok (.mk label obscure [clause])) :
    Expression.isOperatorKey key = false ∧ key ≠ "#id" := by
  by_cases hlabel : key = "#id"
  · subst hlabel
    rw [compile_label] at h
    obtain ⟨_, -, h⟩ := map_eq_ok.mp h
    cases h
  · rw [compile_field hlabel] at h
    obtain ⟨_, h, he⟩ := map_eq_ok.mp h
    cases he
    refine ⟨Bool.eq_false_iff.mpr fun hkey => ?_, hlabel⟩
    rw [isLogical_of_compileField hkey h] at hclause
    cases hclause

end Filter

namespace SortKey

variable {schema : Schema} {entity attr : String} {projection : Fields Json} {value : Json}
  {p : Pointer}

theorem exists_slot_of_compile {key : SortKey} (hkey : Expression.isKey attr = true)
    (h : (compile schema entity projection (.obj [(attr, value)])).1 = .ok key) :
    ∃ name, key = .hoisted name := by
  rw [compile, if_pos hkey] at h
  split at h
  · cases h
  · cases h
    exact ⟨_, rfl⟩

theorem compile_column (hkey : Expression.isKey attr = false)
    (hr : schema.relation entity attr = .ok .column) :
    compile schema entity projection (.obj [(attr, value)]) = (.ok (.column attr), projection) := by
  rw [compile, hkey, hr]
  rfl

theorem compile_pointer (hkey : Expression.isKey attr = false)
    (hr : schema.relation entity attr = .ok (.pointer p)) :
    (compile schema entity projection (.obj [(attr, value)])).1 =
      (compile schema p.target
        (if holdsExpression value then nestedProjection projection attr else []) value).1.map
        (.relation attr p) := by
  rw [compile, hkey, hr]
  dsimp only [QueryError.ofSchema]
  cases holdsExpression value <;> rfl

end SortKey

/-- A sorter with one item in ascending order. -/
theorem SortPlan.compile_item (schema : Schema) (entity : String) (spec : Json)
    (projection : Fields Json) :
    compile schema entity (.arr [.obj [("$attr", spec)]]) projection =
      let first := SortKey.compile schema entity projection spec
      (first.1.map fun key => ⟨[(key, .asc)]⟩, first.2) := by
  have hattr : (Json.obj [("$attr", spec)]).field? "$attr" = some spec := rfl
  have hdirection : SortDirection.ofItem (.obj [("$attr", spec)]) = .ok .asc := rfl
  simp only [compile, compileItems, hattr, hdirection]
  rcases SortKey.compile schema entity projection spec with ⟨_ | key, extended⟩ <;> rfl

namespace View

variable {v : View} {entity key : String} {obscure : Bool} {path : List String} {spec : Json}
  {row : Row} {g : Forming}

/-- A projection of one key comes to what the key asks for. -/
theorem result_project_key (hkey : key ≠ "#id") :
    ((v.project entity obscure path [(key, spec)] row).run g).result =
      (Projected.ofField v.schema entity key spec).bind fun kind =>
        ((v.projectField entity obscure path key [] row kind).run g).result := by
  rw [result_project, Filter.label?_of_not_mem fun h => hkey (List.mem_singleton.mp h).symm]
  dsimp only [Except.bind, Forming.labelled]
  rw [result_projectFields v entity hkey]
  cases Projected.ofField v.schema entity key spec with
  | error e => rfl
  | ok kind =>
    dsimp only [Except.bind]
    simp only [result_projectFields_nil]
    exact bind_ok _

/-- A constant has its value at once. -/
theorem result_project_const {value : Json} (hkey : Expression.isKey key = true)
    (hparse : Expression.parse spec = .ok (.const value)) :
    ((v.project entity obscure path [(key, spec)] row).run g).result = .ok ([(key, value)], g) := by
  rw [result_project_key (Expression.ne_label hkey), Projected.ofField_expr hkey hparse]
  dsimp only [Except.bind]
  rw [result_expr, Expression.evaluate]
  rfl

theorem result_project_nil :
    ((v.project entity obscure path [] row).run g).result = .ok ([], g) := by
  rw [result_project]
  exact result_projectFields_nil ..

/-- The label of a projection is a text. -/
theorem result_project_label (hspec : spec.str? = none) :
    ((v.project entity obscure path [("#id", spec)] row).run g).result =
      .error (.invalid .labelNotString) := by
  rw [result_project]
  cases spec with
  | str text => cases hspec
  | _ => rfl

/-- Every pointer finds a row, in some view. -/
theorem exists_follow (schema : Schema) (p : Pointer) : ∃ rows row found,
    View.follow { schema, rows } p row = .found found ∧
      ∃ column ∈ Projected.pointerColumns p, (Fields.get? row column).isSome := by
  let v : View := { schema, rows := (∅ : RowMap Row).insert ⟨p.target, ""⟩ [] }
  have hlookUp : v.lookUp p.target (some (.str "")) = .found [] := by
    have hrow : v.row? p.target "" = some [] := Std.ExtTreeMap.getElem?_insert_self
    simp only [lookUp, Option.bind, Json.str?, hrow]
  cases p with
  | foreignKey target column =>
    have hid : Fields.get? [(column, Json.str "")] column = some (.str "") := by
      rw [Fields.get?_cons, if_pos rfl]
    refine ⟨v.rows, [(column, .str "")], [], ?_, column, .head _, Option.isSome_of_eq_some hid⟩
    rw [follow, hid]
    exact hlookUp
  | polymorphic target =>
    let row : Row := [(entityColumn, .str target), (entityIdColumn, .str "")]
    have hentity : Fields.get? row entityColumn = some (.str target) := rfl
    have hid : Fields.get? row entityIdColumn = some (.str "") := rfl
    refine ⟨v.rows, row, [], ?_, entityColumn, .head _, rfl⟩
    rw [follow, hentity, hid]
    exact (if_pos rfl).trans hlookUp

end View

namespace Schema

variable (s : Schema) (entity attr : String)

/-! ## Columns -/

/-- A filter puts the column to a test of equality. -/
def FiltersColumn : Prop :=
  ∀ obscure site value, value.obj? = none →
    Filter.compile s entity obscure site (.obj [(attr, value)]) =
      .ok (.mk none obscure [.attribute attr [.compare .eq value]])

/-- A sorter compares the values of the column. -/
def SortsColumn : Prop :=
  ∀ projection value,
    SortPlan.compile s entity (.arr [.obj [("$attr", .obj [(attr, value)])]]) projection =
      (.ok ⟨[(.column attr, .asc)]⟩, projection)

/-- A projection copies the column. -/
def ProjectsColumn : Prop :=
  ∀ (v : View) obscure seed row spec, v.schema = s →
    v.formRow entity obscure [(attr, spec)] seed row = .ok (Projected.copyColumns [attr] row [])

/-! ## Pointers -/

/-- A filter has a filter on the entity that the pointer leads to. -/
def FiltersPointer (p : Pointer) : Prop :=
  ∀ obscure site document,
    Filter.compile s entity obscure site (.obj [(attr, document)]) =
      (Filter.compile s p.target obscure (0 :: site) document).map fun part =>
        .mk none obscure [.relation p part]

/-- A sorter has a sort key of the entity that the pointer leads to. -/
def SortsPointer (p : Pointer) : Prop :=
  ∀ projection spec,
    (SortKey.compile s entity projection (.obj [(attr, spec)])).1 =
      (SortKey.compile s p.target
        (if SortKey.holdsExpression spec then SortKey.nestedProjection projection attr else [])
        spec).1.map (.relation attr p)

/-- A projection has a projection of the row that the pointer leads to. -/
def ProjectsPointer (p : Pointer) : Prop :=
  ∀ (v : View) obscure path nested row found g, v.schema = s → v.follow p row = .found found →
    ((v.project entity obscure path [(attr, .obj nested)] row).run g).result =
      ((v.project p.target obscure (path ++ [attr]) nested found).run g).result.map fun r =>
        (Fields.insert (Projected.copyColumns (Projected.pointerColumns p) row []) attr (.obj r.1),
          r.2)

variable {s} {entity} {attr} {p : Pointer}

theorem filtersColumn_iff (hr : s.relation entity attr = .ok .column) :
    s.FiltersColumn entity attr ↔ Expression.isOperatorKey attr = false ∧ attr ≠ "#id" := by
  constructor
  · intro h
    exact Filter.name_of_compile rfl (h false [] .null rfl)
  · rintro ⟨hkey, hlabel⟩ obscure site value hvalue
    rw [Filter.compile_field hlabel, Filter.compileField, Filter.clauseForm_column hkey hr hvalue]
    rfl

theorem filtersPointer_iff (hr : s.relation entity attr = .ok (.pointer p)) :
    s.FiltersPointer entity attr p ↔ Expression.isOperatorKey attr = false ∧ attr ≠ "#id" := by
  constructor
  · intro h
    exact Filter.name_of_compile rfl (h false [] (.obj []))
  · rintro ⟨hkey, hlabel⟩ obscure site document
    rw [Filter.compile_field hlabel, Filter.compileField, Filter.clauseForm_pointer hkey hr]
    dsimp only [Except.bind, Filter.compileForm]
    cases Filter.compile s p.target obscure (0 :: site) document <;> rfl

theorem sortsColumn_iff (hr : s.relation entity attr = .ok .column) :
    s.SortsColumn entity attr ↔ Expression.isKey attr = false := by
  constructor
  · intro h
    refine Bool.eq_false_iff.mpr fun hkey => ?_
    have hplan := congrArg Prod.fst (h [] .null)
    rw [SortPlan.compile_item] at hplan
    obtain ⟨key, hcompile, he⟩ := map_eq_ok.mp hplan
    obtain ⟨name, rfl⟩ := SortKey.exists_slot_of_compile hkey hcompile
    cases he
  · intro hkey projection value
    rw [SortPlan.compile_item, SortKey.compile_column hkey hr]
    rfl

/-- Every row of the target has an id to sort by. -/
theorem sortsPointer_iff (hr : s.relation entity attr = .ok (.pointer p))
    (ht : ∃ e, s.entity p.target = .ok e) :
    s.SortsPointer entity attr p ↔ Expression.isKey attr = false := by
  constructor
  · intro h
    refine Bool.eq_false_iff.mpr fun hkey => ?_
    obtain ⟨e, he⟩ := ht
    have hid : s.relation p.target "id" = .ok .column := relation_of_implicit he (by decide)
    have hcompile := h [] (.obj [("id", .null)])
    rw [SortKey.compile_column (by decide) hid] at hcompile
    obtain ⟨name, hname⟩ := SortKey.exists_slot_of_compile hkey hcompile
    cases hname
  · exact fun hkey projection spec => SortKey.compile_pointer hkey hr

theorem projectsColumn_iff (hr : s.relation entity attr = .ok .column) :
    s.ProjectsColumn entity attr ↔ Expression.isKey attr = false ∧ attr ≠ "#id" := by
  constructor
  · intro h
    have hformed := h { schema := s, rows := ∅ } false {} [] .null rfl
    rw [View.formRow] at hformed
    refine ⟨Bool.eq_false_iff.mpr fun hkey => ?_, ?_⟩
    · rw [View.result_project_const hkey rfl] at hformed
      cases hformed
    · rintro rfl
      rw [View.result_project_label rfl] at hformed
      cases hformed
  · rintro ⟨hkey, hlabel⟩ v obscure seed row spec rfl
    rw [View.formRow, View.result_project_key hlabel, Projected.ofField_column hkey hr]
    rfl

theorem projectsPointer_iff (hr : s.relation entity attr = .ok (.pointer p)) :
    s.ProjectsPointer entity attr p ↔ Expression.isKey attr = false ∧ attr ≠ "#id" := by
  constructor
  · intro h
    obtain ⟨rows, row, found, hfollow, column, hcolumn, hvalue⟩ := View.exists_follow s p
    have hproject := h { schema := s, rows } false [] [] row found { bindings := {} } rfl hfollow
    rw [View.result_project_nil] at hproject
    refine ⟨Bool.eq_false_iff.mpr fun hkey => ?_, ?_⟩
    · -- A pointer is projected with its columns, and an expression without.
      rw [View.result_project_const hkey rfl] at hproject
      have hne : column ≠ attr := fun he => not_mem_pointerColumns_of_isKey hkey hr (he ▸ hcolumn)
      have hrow := congrArg (Fields.get? · column) (Prod.ext_iff.mp (Except.ok.inj hproject)).1
      dsimp only at hrow
      rw [Fields.get?_insert, if_neg hne, Projected.get?_copyColumns, if_pos hcolumn,
        Fields.get?_cons, if_neg hne] at hrow
      obtain ⟨value, hvalue⟩ := Option.isSome_iff_exists.mp hvalue
      rw [hvalue] at hrow
      cases hrow
    · rintro rfl
      rw [View.result_project_label rfl] at hproject
      cases hproject
  · rintro ⟨hkey, hlabel⟩ v obscure path nested row found g rfl hfollow
    rw [View.result_project_key hlabel, Projected.ofField_pointer hkey hr]
    exact View.result_pointer hfollow

/-- In an accepted schema the three stages agree on a name that begins with no dollar sign and is
not that of a label: a column is tested by filters, compared by sorters and copied by projections,
and a pointer leads each of them to the entity that it points at. A name that begins with a dollar
sign is taken by no filter, a label also by no projection, and the name of an expression by none of
the three. -/
theorem names_taken (h : s.Accepted) (entity attr : String) :
    (s.relation entity attr = .ok .column →
      (s.FiltersColumn entity attr ↔ Expression.isOperatorKey attr = false ∧ attr ≠ "#id") ∧
      (s.SortsColumn entity attr ↔ Expression.isKey attr = false) ∧
      (s.ProjectsColumn entity attr ↔ Expression.isKey attr = false ∧ attr ≠ "#id")) ∧
    ∀ p, s.relation entity attr = .ok (.pointer p) →
      (∃ target, s.entity p.target = .ok target) ∧
      (s.FiltersPointer entity attr p ↔ Expression.isOperatorKey attr = false ∧ attr ≠ "#id") ∧
      (s.SortsPointer entity attr p ↔ Expression.isKey attr = false) ∧
      (s.ProjectsPointer entity attr p ↔ Expression.isKey attr = false ∧ attr ≠ "#id") := by
  refine ⟨fun hr => ⟨filtersColumn_iff hr, sortsColumn_iff hr, projectsColumn_iff hr⟩,
    fun p hr => ?_⟩
  have ht := h.target_declared hr
  exact ⟨ht, filtersPointer_iff hr, sortsPointer_iff hr ht, projectsPointer_iff hr⟩

/-- The name of a user and the user of an order are taken by all three. -/
theorem names_taken_order :
    let user : Entity := { attributes := Std.ExtTreeMap.ofList [("name", ⟨.string, true⟩)] compare }
    let order : Entity :=
      { attributes := Std.ExtTreeMap.ofList [("user", ⟨.ref "user", true⟩)] compare }
    let entities := [("user", user), ("order", order)]
    let s : Schema := { entities := Std.ExtTreeMap.ofList entities compare }
    let p : Pointer := .foreignKey "user" "userId"
    s.Accepted ∧
      (s.FiltersColumn "user" "name" ∧ s.SortsColumn "user" "name" ∧
        s.ProjectsColumn "user" "name") ∧
      s.FiltersPointer "order" "user" p ∧ s.SortsPointer "order" "user" p ∧
        s.ProjectsPointer "order" "user" p := by
  intro user order entities s p
  have h : s.Accepted := accepted_of_complaint? (by decide)
  obtain ⟨hfilter, hsort, hproject⟩ := (names_taken h "user" "name").1 (by rfl)
  obtain ⟨-, hfilter', hsort', hproject'⟩ :=
    (names_taken h "order" "user").2 p (by rfl)
  exact ⟨h, ⟨hfilter.mpr (by decide), hsort.mpr (by decide), hproject.mpr (by decide)⟩,
    hfilter'.mpr (by decide), hsort'.mpr (by decide), hproject'.mpr (by decide)⟩

/-- The time of creation is a column that sorters and projections read, but a filter on it is
refused. -/
theorem filter_refuses_createAt :
    let s : Schema := { entities := Std.ExtTreeMap.ofList [("user", {})] compare }
    let one : Json := .num (.int 1)
    s.Accepted ∧ s.relation "user" "$$createAt$$" = .ok .column ∧
      Filter.compile s "user" false [] (.obj [("$$createAt$$", one)]) =
        .error (.invalid (.unsupportedLogical "$$createAt$$")) ∧
      ¬ s.FiltersColumn "user" "$$createAt$$" ∧ s.SortsColumn "user" "$$createAt$$" ∧
        s.ProjectsColumn "user" "$$createAt$$" := by
  intro s one
  have hr : s.relation "user" "$$createAt$$" = .ok .column := by rfl
  refine ⟨accepted_of_complaint? (by decide), hr, by rfl, ?_, ?_, ?_⟩
  · exact fun h => absurd ((filtersColumn_iff hr).mp h).1 (by decide)
  · exact (sortsColumn_iff hr).mpr (by decide)
  · exact (projectsColumn_iff hr).mpr (by decide)

end Schema

end EntityStore
