import EntityStore.Proofs.Query.Course
import EntityStore.Proofs.Query.Evaluates

/-! Structural errors of selects. Whether the filter and the sorter of a selection compile is found
out before any row is looked at (`Selection.Compiles`), but whether a projection compiles only once
a row is projected by it (`Projected.Compiles`). A select with a structural error either has a
selection that does not compile, or gets a row to a projection that does not
(`View.exists_of_structural`); and no select succeeds that gets a row to such a projection
(`View.compiles_of_projects`). -/

namespace EntityStore

theorem isOk_iff {ε α : Type} {x : Except ε α} : x.isOk ↔ ∃ a, x = .ok a := by
  cases x with
  | error e => exact ⟨nofun, nofun⟩
  | ok a => exact ⟨fun _ => ⟨a, rfl⟩, fun _ => rfl⟩

theorem not_isOk {ε α : Type} {x : Except ε α} {e : ε} (h : x = .error e) : ¬x.isOk := by
  rw [h]
  nofun

theorem isOk_map {ε α β : Type} (f : α → β) (x : Except ε α) : (x.map f).isOk = x.isOk := by
  cases x <;> rfl

theorem isOk_bind_map {ε α β γ : Type} (x : Except ε α) (y : Except ε β) (f : α → β → γ) :
    (x.bind fun a => y.map (f a)).isOk = (x.isOk && y.isOk) := by
  cases x <;> cases y <;> rfl

/-! ## What compiles -/

/-- The entity is declared, and the filter and the sorter compile. -/
structure Selection.Compiles (schema : Schema) (obscure : Bool) (entity : String)
    (s : Selection) : Prop where
  declared : (QueryError.ofSchema (schema.entity entity)).isOk
  filter : ∀ {document}, s.filter = some document →
    (Filter.compile schema entity obscure [] document).isOk
  sorter : ∀ {sorter}, s.sorter = some sorter →
    (SortPlan.compile schema entity sorter s.data).1.isOk

/-- Without a filter and a sorter there is nothing to compile. -/
theorem Selection.Compiles.of_declared {schema : Schema} {entity : String} {e : Entity}
    (h : schema.entity entity = .ok e) (obscure : Bool) (data : Fields Json) :
    Selection.Compiles schema obscure entity { data } :=
  ⟨isOk_iff.mpr ⟨e, by rw [h]; rfl⟩, nofun, nofun⟩

namespace Projected

/-- The key is one that the entity has, and the selection of rows that point back compiles. -/
def FieldCompiles (schema : Schema) (obscure : Bool) (entity key : String) (spec : Json) : Prop :=
  ∃ kind, ofField schema entity key spec = .ok kind ∧
    ∀ target back s, kind = .children target back s →
      ∀ id, (selectionOf entity (.str id) back s).Compiles schema obscure target

theorem not_fieldCompiles_of_error {schema : Schema} {obscure : Bool} {entity key : String}
    {spec : Json} {e : QueryError} (h : ofField schema entity key spec = .error e) :
    ¬FieldCompiles schema obscure entity key spec := by
  rintro ⟨kind, hkind, -⟩
  cases h.symm.trans hkind

theorem not_fieldCompiles_of_children {schema : Schema} {obscure : Bool}
    {entity key target : String} {spec : Json} {back : Option String} {s : Selection} {id : String}
    (h : ofField schema entity key spec = .ok (.children target back s))
    (hs : ¬(selectionOf entity (.str id) back s).Compiles schema obscure target) :
    ¬FieldCompiles schema obscure entity key spec := by
  rintro ⟨kind, hkind, hchildren⟩
  cases h.symm.trans hkind
  exact hs (hchildren target back s rfl id)

/-- Every key of the projection compiles. -/
structure Compiles (schema : Schema) (obscure : Bool) (entity : String)
    (projection : Fields Json) : Prop where
  label : (Filter.label? projection).isOk
  field : ∀ key spec, (key, spec) ∈ projection → key ≠ "#id" →
    FieldCompiles schema obscure entity key spec

end Projected

section Id

variable {schema : Schema} {entity target : String} {obscure : Bool} {site : Site} {index : Nat}

namespace Filter

theorem isOk_compile {fields : List (String × Json)} (h : Fields.get? fields "#id" = none) :
    (compile schema entity obscure site (.obj fields)).isOk =
      (compileFields schema entity obscure site 0 fields).isOk := by
  rw [compile, label?, h]
  cases compileFields schema entity obscure site 0 fields <;> rfl

theorem isOk_compileFields_cons {key : String} (hk : key ≠ "#id") (value : Json)
    (rest : List (String × Json)) :
    (compileFields schema entity obscure site index ((key, value) :: rest)).isOk =
      ((compileField schema entity obscure (index :: site) key value).isOk &&
        (compileFields schema entity obscure site (index + 1) rest).isOk) := by
  rw [compileFields_cons hk, isOk_bind_map]

/-- Whether a field with a text compiles does not depend on the text. -/
theorem isOk_compileField_str (key a b : String) :
    (compileField schema entity obscure site key (.str a)).isOk =
      (compileField schema entity obscure site key (.str b)).isOk := by
  unfold compileField clauseForm
  split
  · rfl
  split
  · rfl
  split
  · rfl
  split
  · rfl
  split
  · rfl
  cases QueryError.ofSchema (schema.relation entity key) with
  | error e => rfl
  | ok relation => cases relation <;> rfl

theorem isOk_compile_backReference (a b : String) (back : Option String) :
    (compile schema target obscure site (Projected.backReference entity (.str a) back)).isOk =
      (compile schema target obscure site (Projected.backReference entity (.str b) back)).isOk := by
  cases back with
  | some attr =>
    have hlabel (id : String) :
        Fields.get? [(foreignKeyColumn attr, Json.str id)] "#id" = none := by
      rw [Fields.get?_cons, if_neg (foreignKeyColumn_ne attr).symm]
      rfl
    simp only [Projected.backReference]
    rw [isOk_compile (hlabel a), isOk_compile (hlabel b),
      isOk_compileFields_cons (foreignKeyColumn_ne attr),
      isOk_compileFields_cons (foreignKeyColumn_ne attr), isOk_compileField_str _ a b]
  | none =>
    have hentity : entityColumn ≠ "#id" := by decide
    have hid : entityIdColumn ≠ "#id" := by decide
    simp only [Projected.backReference]
    rw [isOk_compile rfl, isOk_compile rfl, isOk_compileFields_cons hentity,
      isOk_compileFields_cons hentity, isOk_compileFields_cons hid, isOk_compileFields_cons hid,
      isOk_compileField_str entityIdColumn a b]

/-- A conjunction compiles if its parts do. -/
theorem isOk_compile_and (a b : Json) :
    (compile schema entity obscure site (.obj [("$and", .arr [a, b])])).isOk =
      ((compile schema entity obscure (0 :: 0 :: site) a).isOk &&
        (compile schema entity obscure (1 :: 0 :: site) b).isOk) := by
  have hjunction : (compileField schema entity obscure (0 :: site) "$and" (.arr [a, b])).isOk =
      (compileItems schema entity obscure (0 :: site) 0 [a, b]).isOk := by
    rw [compileField, clauseForm_junction (.inl rfl)]
    exact isOk_map _ _
  rw [isOk_compile rfl, isOk_compileFields_cons (by decide), hjunction, compileItems_cons,
    isOk_bind_map, compileItems_cons, isOk_bind_map]
  simp [compileFields, compileItems, Except.isOk, Except.toBool]

end Filter

/-- Whether the selection of the rows that point back compiles does not depend on the row. -/
theorem Selection.Compiles.of_id {back : Option String} {s : Selection} {a : String}
    (h : (Projected.selectionOf entity (.str a) back s).Compiles schema obscure target)
    (b : String) :
    (Projected.selectionOf entity (.str b) back s).Compiles schema obscure target where
  declared := h.declared
  filter {document} hdocument := by
    have ha := h.filter rfl
    cases hdocument
    cases hf : s.filter with
    | none =>
      rw [hf] at ha
      rw [Filter.isOk_compile_backReference b a]
      exact ha
    | some filter =>
      rw [hf] at ha
      dsimp only at ha ⊢
      rw [Filter.isOk_compile_and] at ha ⊢
      rw [Filter.isOk_compile_backReference b a]
      exact ha
  sorter := h.sorter

end Id

theorem Forming.labelled_evaluates (g : Forming) (label : Option String) (row : Row) :
    Evaluates (g.labelled label row) := by
  cases label with
  | none => exact evaluates_ok g
  | some label => exact (g.bindings.bind_evaluates label row).map _

namespace View

variable {v : View} {entity : String} {s : Selection} {option : SelectOption}

/-- In the course of the select a row of the entity `target` is to be projected. -/
def Projects (v : View) (entity : String) (s : Selection) (option : SelectOption) (target : String)
    (projection : Fields Json) : Prop :=
  ∃ path row g, Relation.ReflTransGen (v.Leads option.obscure)
    (.select entity s option.bindings) (.project target path projection row g)

/-! ## Selects that succeed -/

/-- The selection of a select that succeeds compiles, whether or not there are rows. -/
theorem compiles_of_select {rows : List Row} (h : (v.select entity s option).result = .ok rows) :
    s.Compiles v.schema option.obscure entity := by
  rw [result_select] at h
  obtain ⟨matched, hmatched, h⟩ := bind_eq_ok.mp h
  rw [result_matching_eq] at hmatched
  obtain ⟨e, he, hmatched⟩ := bind_eq_ok.mp hmatched
  rw [result_form] at h
  obtain ⟨plan, hplan, -⟩ := bind_eq_ok.mp h
  refine ⟨isOk_iff.mpr ⟨e, he⟩, fun {document} hdocument => ?_, fun {sorter} hsorter => ?_⟩
  · rw [hdocument] at hmatched
    obtain ⟨filter, hfilter, -⟩ := bind_eq_ok.mp hmatched
    exact isOk_iff.mpr ⟨filter, hfilter⟩
  · rw [hoist, hsorter] at hplan
    obtain ⟨plan, hplan, -⟩ := map_eq_ok.mp hplan
    exact isOk_iff.mpr ⟨plan, hplan⟩

/-- Without rows nothing is projected, and a projection that does not compile goes unnoticed. -/
theorem result_select_of_scan_nil (hc : s.Compiles v.schema option.obscure entity)
    (h : v.scan entity = []) : (v.select entity s option).result = .ok [] := by
  have hmatching : (v.matching entity s option).result = .ok [] := by
    obtain ⟨e, he⟩ := isOk_iff.mp hc.declared
    rw [result_matching_eq, he, h]
    cases hf : s.filter with
    | none => rfl
    | some document =>
      obtain ⟨filter, hfilter⟩ := isOk_iff.mp (hc.filter hf)
      dsimp only [Except.bind]
      rw [hfilter]
      rfl
  have hform : (v.form entity [] s option).result = .ok (s.page []) := by
    rw [result_form, hoist]
    cases hs : s.sorter with
    | none => rfl
    | some sorter =>
      obtain ⟨plan, hplan⟩ := isOk_iff.mp (hc.sorter hs)
      have hsort : plan.sort v [] [] = [] := by simp [SortPlan.sort]
      dsimp only
      rw [hplan]
      exact congrArg (fun rows => Except.ok (s.page rows)) hsort
  have hpage : s.page [] = [] := by
    unfold Selection.page
    cases s.count <;> simp
  rw [result_select, hmatching]
  exact hform.trans (congrArg _ hpage)

theorem fieldCompiles_of_succeeds {obscure : Bool} {path : List String} {left : Fields Json}
    {out row : Row} {g : Forming} (hrow : row.Named)
    (h : v.Succeeds obscure (.fields entity path left out row g)) :
    ∀ key spec, (key, spec) ∈ left → key ≠ "#id" →
      Projected.FieldCompiles v.schema obscure entity key spec := by
  induction left generalizing out g with
  | nil => exact nofun
  | cons field rest ih =>
    obtain ⟨first, firstSpec⟩ := field
    intro key spec hmem hkey
    rcases List.mem_cons.mp hmem with hfirst | hrest
    · cases hfirst
      obtain ⟨kind, r, hkind, hr, -⟩ := h.fields_cons hkey
      refine ⟨kind, hkind, fun target back selection hchildren id => ?_⟩
      obtain ⟨text, htext⟩ := hrow
      rw [hchildren, result_children htext] at hr
      obtain ⟨children, hselect, -⟩ := map_eq_ok.mp hr
      exact (compiles_of_select hselect).of_id id
    · by_cases hlabel : first = "#id"
      · cases hlabel
        exact ih (h.of_leads .skip) key spec hrest hkey
      · obtain ⟨kind, r, -, -, hleft⟩ := h.fields_cons hlabel
        exact ih hleft key spec hrest hkey

/-- Every projection that a row gets to compiles if the select succeeds. -/
theorem compiles_of_projects (hv : v.Named) {rows : List Row}
    (h : (v.select entity s option).result = .ok rows) {target : String}
    {projection : Fields Json} (hp : v.Projects entity s option target projection) :
    Projected.Compiles v.schema option.obscure target projection := by
  obtain ⟨path, row, g, hreaches⟩ := hp
  have hrow : row.Named := hv.of_reaches hreaches trivial
  have hroot : v.Succeeds option.obscure (.select entity s option.bindings) := ⟨rows, h⟩
  have hproject := hroot.of_reaches hreaches
  obtain ⟨r, hr⟩ := hproject
  rw [result_project] at hr
  obtain ⟨label, hlabel, hr⟩ := bind_eq_ok.mp hr
  obtain ⟨g', hbound, hr⟩ := bind_eq_ok.mp hr
  exact ⟨isOk_iff.mpr ⟨label, hlabel⟩, fieldCompiles_of_succeeds hrow ⟨r, hr⟩⟩

/-! ## Selects with a structural error -/

section First

variable {e : QueryError} {obscure : Bool} {path : List String} {key : String} {spec : Json}
  {rest : Fields Json} {row : Row} {g : Forming}

/-- The first row fails. -/
theorem result_select_of_project {declared : Entity} {rows : List Row} {data : Fields Json}
    (hdeclared : v.schema.entity entity = .ok declared) (hrows : v.scan entity = row :: rows)
    (h : ((v.project entity option.obscure [] data row).run
      { bindings := option.bindings }).result = .error e) :
    (v.select entity { data } option).result = .error e := by
  have hmatching : (v.matching entity { data } option).result = .ok (row :: rows) := by
    rw [result_matching_eq, hdeclared, hrows]
    rfl
  have hhoist : v.hoist entity { data } = (.ok none, data) := rfl
  rw [result_select, hmatching]
  dsimp only [Except.bind]
  rw [result_form, hhoist, mapM_cons, h]
  rfl

/-- The first key is none that the entity has. -/
theorem result_project_of_ofField (hlabel : Filter.label? ((key, spec) :: rest) = .ok none)
    (hkey : key ≠ "#id") (hfield : Projected.ofField v.schema entity key spec = .error e) :
    ((v.project entity obscure path ((key, spec) :: rest) row).run g).result = .error e := by
  rw [result_project, hlabel]
  dsimp only [Except.bind, Forming.labelled]
  rw [v.result_projectFields entity hkey, hfield]
  rfl

/-- The first key leads to a row that fails. -/
theorem result_project_of_follow {p : Pointer} {nested : Fields Json} {found : Row}
    (hlabel : Filter.label? ((key, spec) :: rest) = .ok none) (hkey : key ≠ "#id")
    (hfield : Projected.ofField v.schema entity key spec = .ok (.pointer p nested))
    (hfollow : v.follow p row = .found found)
    (h : ((v.project p.target obscure (path ++ [key]) nested found).run g).result = .error e) :
    ((v.project entity obscure path ((key, spec) :: rest) row).run g).result = .error e := by
  rw [result_project, hlabel]
  dsimp only [Except.bind, Forming.labelled]
  rw [v.result_projectFields entity hkey, hfield]
  dsimp only [Except.bind]
  rw [result_pointer hfollow, h]
  rfl

end First

/-- The moment leads to a row that is to be projected by a projection that does not compile. -/
def Stumbles (v : View) (obscure : Bool) (m : Moment) : Prop :=
  ∃ target path projection row g, Relation.ReflTransGen (v.Leads obscure) m
    (.project target path projection row g) ∧
      ¬Projected.Compiles v.schema obscure target projection

theorem Stumbles.of_leads {obscure : Bool} {m m' : Moment} (h : v.Leads obscure m m')
    (hm : v.Stumbles obscure m') : v.Stumbles obscure m := by
  obtain ⟨target, path, projection, row, g, hreaches, hcompiles⟩ := hm
  exact ⟨target, path, projection, row, g, .head h hreaches, hcompiles⟩

/-- A structural error before any row is projected. -/
theorem not_compiles_of_matching {e : QueryError} (he : e.Structural)
    (h : (v.matching entity s option).result = .error e) :
    ¬s.Compiles v.schema option.obscure entity := by
  intro hc
  rw [result_matching_eq] at h
  rcases bind_eq_error.mp h with hdeclared | ⟨declared, -, h⟩
  · exact not_isOk hdeclared hc.declared
  cases hf : s.filter with
  | none =>
    rw [hf] at h
    cases h
  | some document =>
    rw [hf] at h
    rcases bind_eq_error.mp h with hfilter | ⟨filter, hfilter, h⟩
    · exact not_isOk hfilter (hc.filter hf)
    · exact filter_evaluates hfilter v option.bindings (v.scan entity) {} e h he

theorem not_compiles_of_hoist {e : QueryError} (h : (v.hoist entity s).1 = .error e)
    {obscure : Bool} : ¬s.Compiles v.schema obscure entity := by
  intro hc
  cases hs : s.sorter with
  | none =>
    rw [hoist, hs] at h
    cases h
  | some sorter =>
    rw [hoist, hs] at h
    exact not_isOk (map_eq_error.mp h) (hc.sorter hs)

theorem stumbles_here {obscure : Bool} {path : List String} {projection : Fields Json} {row : Row}
    {g : Forming} (h : ¬Projected.Compiles v.schema obscure entity projection) :
    v.Stumbles obscure (.project entity path projection row g) :=
  ⟨entity, path, projection, row, g, .refl, h⟩

mutual

/-- A select fails with a structural error because its selection does not compile, or because of a
projection in its course. -/
theorem select_stumbles (hv : v.Named) {e : QueryError} (he : e.Structural) (obscure : Bool)
    (entity : String) (s : Selection) (bindings : Bindings)
    (h : (v.select entity s { obscure, bindings }).result = .error e) :
    ¬s.Compiles v.schema obscure entity ∨ v.Stumbles obscure (.select entity s bindings) := by
  rw [result_select] at h
  rcases bind_eq_error.mp h with hmatching | ⟨matched, hmatched, h⟩
  · exact .inl (not_compiles_of_matching he hmatching)
  rw [result_form] at h
  rcases bind_eq_error.mp h with hplan | ⟨plan, hplan, h⟩
  · exact .inl (not_compiles_of_hoist hplan)
  · right
    -- One of the rows fails, and it is not the expressions that wait for a label.
    obtain ⟨row, hrow, h⟩ := exists_of_mapM_eq_error (map_eq_error.mp h)
    have hleads := Leads.row hmatched hplan hrow
    have hnamed : row.Named := hv.of_leads hleads trivial
    rcases bind_eq_error.mp h with hproject | ⟨r, -, hsettle⟩
    · have hstumbles := project_stumbles hv he obscure entity [] (v.hoist entity s).2 row _
        hnamed hproject
      exact hstumbles.of_leads hleads
    · exact absurd he (settle_evaluates r.2 r.1 e hsettle)
termination_by (Json.nestingFields s.data, 2, 0)
decreasing_by
  have := nestingFields_hoist_le v entity s
  simp only [Prod.lex_def]
  omega

theorem project_stumbles (hv : v.Named) {e : QueryError} (he : e.Structural) (obscure : Bool)
    (entity : String) (path : List String) (projection : Fields Json) (row : Row) (g : Forming)
    (hrow : row.Named)
    (h : ((v.project entity obscure path projection row).run g).result = .error e) :
    v.Stumbles obscure (.project entity path projection row g) := by
  rw [result_project] at h
  rcases bind_eq_error.mp h with hlabel | ⟨label, hlabel, h⟩
  · exact stumbles_here fun hc => not_isOk hlabel hc.label
  rcases bind_eq_error.mp h with hbound | ⟨g', hbound, h⟩
  · exact absurd he (g.labelled_evaluates label row e hbound)
  rcases fields_stumble hv he obscure entity path projection [] row g' hrow h with
    ⟨key, spec, hmem, hkey, hfield⟩ | hstumbles
  · exact stumbles_here fun hc => hfield (hc.field key spec hmem hkey)
  · exact hstumbles.of_leads (.label hlabel hbound)
termination_by (Json.nestingFields projection, 0, sizeOf projection + 1)

theorem fields_stumble (hv : v.Named) {e : QueryError} (he : e.Structural) (obscure : Bool)
    (entity : String) (path : List String) (left : Fields Json) (out row : Row) (g : Forming)
    (hrow : row.Named)
    (h : ((v.projectFields entity obscure path left out row).run g).result = .error e) :
    (∃ key spec, (key, spec) ∈ left ∧ key ≠ "#id" ∧
      ¬Projected.FieldCompiles v.schema obscure entity key spec) ∨
        v.Stumbles obscure (.fields entity path left out row g) := by
  match left with
  | [] =>
    rw [projectFields] at h
    cases h
  | (key, spec) :: rest =>
    -- A key that is done leads to the keys after it.
    have hrest {out' : Row} {g' : Forming}
        (h : ((v.projectFields entity obscure path rest out' row).run g').result = .error e)
        (hleads : v.Leads obscure (.fields entity path ((key, spec) :: rest) out row g)
          (.fields entity path rest out' row g')) :
        (∃ name spec', (name, spec') ∈ (key, spec) :: rest ∧ name ≠ "#id" ∧
          ¬Projected.FieldCompiles v.schema obscure entity name spec') ∨
            v.Stumbles obscure (.fields entity path ((key, spec) :: rest) out row g) := by
      rcases fields_stumble hv he obscure entity path rest out' row g' hrow h with
        ⟨name, spec', hmem, hname, hfield⟩ | hstumbles
      · exact .inl ⟨name, spec', List.mem_cons_of_mem _ hmem, hname, hfield⟩
      · exact .inr (hstumbles.of_leads hleads)
    by_cases hkey : key = "#id"
    · subst hkey
      rw [projectFields_label] at h
      exact hrest h .skip
    rw [v.result_projectFields entity hkey] at h
    rcases bind_eq_error.mp h with hfield | ⟨kind, hfield, h⟩
    · exact .inl ⟨key, spec, List.mem_cons_self, hkey, Projected.not_fieldCompiles_of_error hfield⟩
    rcases bind_eq_error.mp h with hfailed | ⟨r, hdone, h⟩
    · rcases exists_of_projectField hfailed with
        ⟨target, back, selection, id, rfl, hid, hselect⟩ | ⟨p, nested, found, rfl, hf, hproject⟩
      · rcases select_stumbles hv he obscure target _ g.bindings hselect with hc | hstumbles
        · obtain ⟨text, htext⟩ := hrow
          cases hid.symm.trans htext
          have hnot := Projected.not_fieldCompiles_of_children hfield hc
          exact .inl ⟨key, spec, List.mem_cons_self, hkey, hnot⟩
        · exact .inr (hstumbles.of_leads (.children hkey hfield hid))
      · have hstumbles := project_stumbles hv he obscure p.target (path ++ [key]) nested found g
          (hv.follow hf) hproject
        exact .inr (hstumbles.of_leads (.pointer hkey hfield hf))
    · exact hrest h (.next hkey hfield hdone)
termination_by (Json.nestingFields left, 0, sizeOf left)
decreasing_by
  · exact descends_tail ..
  · have hlt := Projected.nestingFields_lt_of_children rest hfield
    exact .left _ _ hlt
  · have hle := Projected.nestingFields_le_of_pointer rest hfield
    cases Projected.eq_obj_of_pointer hfield
    exact descends hle (by
      simp only [List.cons.sizeOf_spec, Prod.mk.sizeOf_spec, Json.obj.sizeOf_spec]; omega)

end

/-- A structural error is a fault of the selection, or of a projection that some row gets to. -/
theorem exists_of_structural (hv : v.Named) {e : QueryError} (he : e.Structural)
    (h : (v.select entity s option).result = .error e) :
    ¬s.Compiles v.schema option.obscure entity ∨
      ∃ target projection, v.Projects entity s option target projection ∧
        ¬Projected.Compiles v.schema option.obscure target projection := by
  refine (select_stumbles hv he option.obscure entity s option.bindings h).imp_right ?_
  rintro ⟨target, path, projection, row, g, hreaches, hcompiles⟩
  exact ⟨target, projection, ⟨path, row, g, hreaches⟩, hcompiles⟩

end View

end EntityStore
