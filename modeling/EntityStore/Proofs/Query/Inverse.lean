import EntityStore.Proofs.Query.Passing
import EntityStore.Proofs.Query.Reading
import EntityStore.Proofs.Query.Settling

/-! Back-references. The rows under a back-reference are found by a filter on the columns that keep
the pointer back. The filter asks for what following the pointer finds
(`Filter.judge_texts`, `View.follow_back_iff`), so a back-reference lists the rows whose pointer
leads back to the row at hand (`View.lists_of_select`). They stand under its name in the projected
row, unless a column that is copied later has the same name (`View.children_of_project`). -/

namespace EntityStore

/-- The pointer that leads back from the rows under a back-reference of an entity. -/
def Pointer.back (entity : String) : Option String → Pointer
  | some attr => .foreignKey entity (foreignKeyColumn attr)
  | none => .polymorphic entity

namespace Projected

/-- The columns that keep the pointer back to a row, with the texts that they hold. -/
def backColumns (entity id : String) : Option String → List (String × String)
  | some attr => [(foreignKeyColumn attr, id)]
  | none => [(entityColumn, entity), (entityIdColumn, id)]

/-- Whether a row keeps a pointer back to a row. -/
def pointsBack (entity id : String) (back : Option String) (row : Row) : Bool :=
  (backColumns entity id back).all fun column => Fields.get? row column.1 = some (.str column.2)

theorem backReference_eq (entity id : String) (back : Option String) :
    backReference entity (.str id) back =
      .obj ((backColumns entity id back).map fun column => (column.1, .str column.2)) := by
  cases back <;> rfl

theorem backColumns_plain (entity id : String) (back : Option String) :
    ∀ column ∈ backColumns entity id back,
      column.1 ≠ "#id" ∧ Expression.isKey column.1 = false := by
  cases back with
  | some attr => simp [backColumns, foreignKeyColumn_ne, Schema.isKey_foreignKeyColumn]
  | none =>
    have hentity : entityColumn ≠ "#id" ∧ Expression.isKey entityColumn = false := by decide
    have hid : entityIdColumn ≠ "#id" ∧ Expression.isKey entityIdColumn = false := by decide
    exact List.forall_mem_cons.mpr ⟨hentity, List.forall_mem_singleton.mpr hid⟩

end Projected

/-! ## Filters on the texts of columns -/

namespace Filter

variable {schema : Schema} {v : View} {entity key text : String} {site : Site} {index : Nat}
  {columns : List (String × String)} {row : Row}

theorem compileField_text {obscure : Bool} {clause : Clause} (hkey : Expression.isKey key = false)
    (h : compileField schema entity obscure site key (.str text) = .ok clause) :
    clause = .attribute key [.compare .eq (.str text)] := by
  obtain ⟨form, hform, h⟩ := bind_eq_ok.mp h
  -- No keyword takes a text, and no pointer does, so the key has to be a column.
  unfold clauseForm at hform
  split at hform
  · cases hform
  split at hform
  · cases hform
    cases h
  split at hform
  · cases hform
  rw [hkey] at hform
  split at hform
  · contradiction
  split at hform
  · cases hform
  obtain ⟨relation, -, hform⟩ := bind_eq_ok.mp hform
  cases relation with
  | column =>
    cases hform
    cases h
    rfl
  | toMany target back => cases hform
  | pointer p =>
    cases hform
    cases h

theorem equal_text (value : Json) (text : String) :
    value.equal (.str text) = decide (value = .str text) := by
  rw [Bool.eq_iff_iff, decide_eq_true_eq]
  cases value <;> simp [Json.equal, Json.same]

theorem judgeClause_text (key text : String) (row : Row) :
    judgeClause v false (.attribute key [.compare .eq (.str text)]) row =
      .known (decide (Fields.get? row key = some (.str text))) := by
  have hdecided := judgeClause_decided (v := v) false (.attribute key [.compare .eq (.str text)])
    rfl row
  rw [hdecided.eq_known, equal_passes]
  cases Fields.get? row key with
  | none => rfl
  | some value => simp [equal_text]

theorem judgeClauses_texts {clauses : List Clause}
    (hplain : ∀ column ∈ columns, column.1 ≠ "#id" ∧ Expression.isKey column.1 = false)
    (h : compileFields schema entity false site index
      (columns.map fun column => (column.1, .str column.2)) = .ok clauses) (row : Row) :
    judgeClauses v false clauses row =
      (columns.map fun column => decide (Fields.get? row column.1 = some (.str column.2))).map
        .known := by
  induction columns generalizing index clauses with
  | nil =>
    cases h
    rfl
  | cons column columns ih =>
    obtain ⟨⟨hid, hkey⟩, hplain⟩ := List.forall_mem_cons.mp hplain
    rw [List.map_cons, compileFields_cons hid] at h
    obtain ⟨clause, hclause, h⟩ := bind_eq_ok.mp h
    obtain ⟨clauses, hclauses, rfl⟩ := map_eq_ok.mp h
    rw [compileField_text hkey hclause, judgeClauses, judgeClause_text, ih hplain hclauses]
    rfl

/-- A filter on the texts of columns passes the rows that have the texts in the columns. -/
theorem judge_texts {f : Filter}
    (hplain : ∀ column ∈ columns, column.1 ≠ "#id" ∧ Expression.isKey column.1 = false)
    (h : compile schema entity false site
      (.obj (columns.map fun column => (column.1, .str column.2))) = .ok f) (row : Row) :
    f.judge v row =
      .known (columns.all fun column => Fields.get? row column.1 = some (.str column.2)) := by
  rw [compile] at h
  obtain ⟨label, hlabel, h⟩ := bind_eq_ok.mp h
  obtain ⟨clauses, hclauses, h⟩ := bind_eq_ok.mp h
  cases h
  have hnone : Fields.get? (columns.map fun column => (column.1, Json.str column.2)) "#id" =
      none := by
    refine Fields.get?_eq_none_iff.mpr fun hmem => ?_
    obtain ⟨entry, hentry, hname⟩ := List.mem_map.mp hmem
    obtain ⟨column, hcolumn, rfl⟩ := List.mem_map.mp hentry
    exact (hplain column hcolumn).1 hname
  rw [label?, hnone] at hlabel
  cases hlabel
  rw [judge]
  dsimp only [Except.bind]
  rw [judgeClauses_texts hplain hclauses, Judge.join_known, Judge.many_false, List.all_map]
  rfl

end Filter

namespace View

variable {v : View} {entity target id id' : String} {back : Option String} {row child : Row}
  {s : Selection} {bindings : Bindings} {matched children : List Row}

/-! ## The rows that point back -/

theorem lookUp_eq_found_iff {value : Option Json} : v.lookUp target value = .found row ↔
    ∃ text, value = some (.str text) ∧ v.row? target text = some row := by
  unfold lookUp
  cases value with
  | none => exact ⟨nofun, nofun⟩
  | some value =>
    cases value with
    | str text =>
      dsimp only [Option.bind, Json.str?]
      cases hrow : v.row? target text with
      | none => simp [hrow]
      | some found => simp [hrow]
    | _ => exact ⟨nofun, nofun⟩

/-- A pointer leads back to a row if its columns hold the texts that name the row. -/
theorem follow_back_iff (hrow : v.row? entity id = some row)
    (hunique : ∀ {text}, v.row? entity text = some row → text = id) :
    v.follow (.back entity back) child = .found row ↔
      Projected.pointsBack entity id back child = true := by
  have hlookUp (value : Option Json) :
      v.lookUp entity value = .found row ↔ value = some (.str id) := by
    rw [lookUp_eq_found_iff]
    constructor
    · rintro ⟨text, rfl, htext⟩
      rw [hunique htext]
    · exact fun h => ⟨id, h, hrow⟩
  cases back with
  | some attr =>
    simpa [Pointer.back, Projected.pointsBack, Projected.backColumns, follow] using hlookUp _
  | none =>
    simp only [Pointer.back, Projected.pointsBack, Projected.backColumns, follow]
    cases hentity : Fields.get? child entityColumn with
    | none => simp [hentity]
    | some value =>
      cases value with
      | str text =>
        by_cases he : text = entity
        · simp [hentity, Json.str?, he, hlookUp]
        · simp [hentity, Json.str?, he]
      | _ => simp [hentity, Json.str?]

/-- The rows that keep a pointer back to a row, in the order of their ids. -/
def pointingBack (v : View) (target entity id : String) (back : Option String) :
    List (String × Row) :=
  (v.rows.ofEntity target).filter fun entry => Projected.pointsBack entity id back entry.2

theorem mem_pointingBack : (id', child) ∈ v.pointingBack target entity id back ↔
    v.row? target id' = some child ∧ Projected.pointsBack entity id back child = true := by
  rw [pointingBack, List.mem_filter, RowMap.mem_ofEntity]
  rfl

theorem pairwise_pointingBack (v : View) (target entity id : String) (back : Option String) :
    ((v.pointingBack target entity id back).map (·.1)).Pairwise (· < ·) :=
  (v.rows.pairwise_ofEntity target).sublist (List.filter_sublist.map _)

/-- The rows that match the filter of a back-reference are those that keep a pointer back. -/
theorem result_matching_backReference {e : Entity} {f : Filter}
    (hdeclared : v.schema.entity target = .ok e) (hfilter : s.filter = none)
    (hf : Filter.compile v.schema target false []
      (Projected.backReference entity (.str id) back) = .ok f) (bindings : Bindings) :
    (v.matching target (Projected.selectionOf entity (.str id) back s) { bindings }).result =
      .ok ((v.pointingBack target entity id back).map (·.2)) := by
  have hjudge (row : Row) : (f.judge v row).verdict bindings =
      .ok (Projected.pointsBack entity id back row) := by
    rw [Projected.backReference_eq] at hf
    rw [Filter.judge_texts (Projected.backColumns_plain entity id back) hf]
    rfl
  rw [result_matching_eq, hdeclared]
  simp only [Projected.selectionOf, hfilter]
  rw [hf]
  refine (Query.matching_eq_filterM (Filter.distinct_of_compile hf) v bindings _ _).trans ?_
  rw [filterM_of_ok fun row _ => hjudge row, scan, List.filter_map]
  rfl

/-- A back-reference that asks for ids gives those of the rows that keep a pointer back. -/
theorem result_select_backReference {schema : Schema} {e : Entity} {f : Filter}
    (hschema : v.schema = schema) (hdeclared : schema.entity target = .ok e)
    (hf : Filter.compile schema target false []
      (Projected.backReference entity (.str id) back) = .ok f) :
    (v.select target (Projected.selectionOf entity (.str id) back (idSelection none))
      {}).result = .ok ((v.pointingBack target entity id back).map fun entry =>
        Projected.copyColumns ["id"] entry.2 []) := by
  subst hschema
  have hmatching := result_matching_backReference (s := idSelection none) hdeclared rfl hf {}
  have hids : Projected.selectionOf entity (.str id) back (idSelection none) =
      idSelection (some (Projected.backReference entity (.str id) back)) := rfl
  rw [hids] at hmatching ⊢
  rw [Query.result, result_select_idSelection]
  refine (congrArg (Except.map _) hmatching).trans ?_
  rw [Except.map, List.map_map]
  rfl

theorem matching_backReference_eq_ok (hfilter : s.filter = none)
    (h : (v.matching target (Projected.selectionOf entity (.str id) back s)
      { bindings }).result = .ok matched) :
    (∃ e, v.schema.entity target = .ok e) ∧
      matched = (v.pointingBack target entity id back).map (·.2) := by
  have hparts := h
  rw [result_matching_eq] at hparts
  simp only [Projected.selectionOf, hfilter] at hparts
  obtain ⟨e, he, hparts⟩ := bind_eq_ok.mp hparts
  obtain ⟨f, hf, -⟩ := bind_eq_ok.mp hparts
  have hdeclared := QueryError.of_ofSchema he
  have hmatching := result_matching_backReference hdeclared hfilter hf bindings
  exact ⟨⟨e, hdeclared⟩, Except.ok.inj (h.symm.trans hmatching)⟩

/-- Rows that were formed of the visible rows of an entity with a property, in ascending order of
their ids. -/
structure Lists (v : View) (entity : String) (P : Row → Prop) (formed : List Row)
    (ids : List String) : Prop where
  formed : formed.map (Fields.get? · "id") = ids.map fun id => some (.str id)
  ascending : ids.Pairwise (· < ·)
  mem_iff : ∀ id, id ∈ ids ↔ ∃ row, v.row? entity id = some row ∧ P row

/-- The select of a back-reference lists the rows whose pointer leads back to the row above, if
every visible row has the id under which it is stored. -/
theorem lists_of_select
    (hid : ∀ {entity id row}, v.row? entity id = some row →
      Fields.get? row "id" = some (.str id))
    (hrow : v.row? entity id = some row) (hfilter : s.filter = none) (hsorter : s.sorter = none)
    (hcount : s.count = none) (hdata : "id" ∈ Fields.names s.data)
    (h : (v.select target (Projected.selectionOf entity (.str id) back s) { bindings }).result =
      .ok children) :
    ∃ ids, v.Lists target (fun child => v.follow (.back entity back) child = .found row)
      children ids := by
  have hunique {text} (htext : v.row? entity text = some row) : text = id := by
    cases (hid htext).symm.trans (hid hrow)
    rfl
  rw [result_select] at h
  obtain ⟨matched, hmatched, h⟩ := bind_eq_ok.mp h
  obtain ⟨⟨declared, hdeclared⟩, rfl⟩ := matching_backReference_eq_ok hfilter hmatched
  have hhoist : v.hoist target (Projected.selectionOf entity (.str id) back s) =
      (.ok none, s.data) := by
    rw [hoist, Projected.selectionOf, hsorter]
  have hpage (rows : List Row) :
      (Projected.selectionOf entity (.str id) back s).page rows = rows := by
    rw [Selection.page, Projected.selectionOf, hcount]
  rw [result_form_eq_mapM, hhoist] at h
  obtain ⟨projected, hprojected, rfl⟩ := map_eq_ok.mp h
  rw [hpage]
  have hentry {entry : String × Row} (hmem : entry ∈ v.pointingBack target entity id back) :
      Fields.get? entry.2 "id" = some (.str entry.1) := hid (mem_pointingBack.mp hmem).1
  refine ⟨(v.pointingBack target entity id back).map (·.1), ?_, pairwise_pointingBack .., ?_⟩
  · rw [Option.elim, map_of_mapM_eq_ok (q := (Fields.get? · "id")) ?_ hprojected, List.map_map,
      List.map_map]
    · exact List.map_congr_left fun entry hmem => hentry hmem
    · intro child hchild formed hformed
      obtain ⟨entry, hmem, rfl⟩ := List.mem_map.mp hchild
      rw [hentry hmem]
      exact formRow_column hformed hdata (by decide) (by decide)
        (Schema.relation_of_implicit hdeclared (by decide)) (hentry hmem)
  · intro id'
    simp only [List.mem_map, follow_back_iff hrow hunique]
    constructor
    · rintro ⟨⟨id', child⟩, hmem, rfl⟩
      exact ⟨child, mem_pointingBack.mp hmem⟩
    · rintro ⟨child, hchild⟩
      exact ⟨(id', child), mem_pointingBack.mpr hchild, rfl⟩

/-! ## Projections with a back-reference -/

/-- What stands under the name of a back-reference stays there while other keys are projected, if
none of them is a reference that the row keeps in a column of this name. -/
theorem get?_of_projectFields {key : String} {rest : Fields Json} {path : List String}
    {out out' : Row} {g g' : Forming} (hsplit : (splitBackReference? key).isSome = true)
    (hrest : key ∉ Fields.names rest)
    (hfree : ∀ other ∈ Fields.names rest, ∀ pointee,
      v.schema.relation entity other = .ok (.pointer (.foreignKey pointee key)) →
      Fields.get? row key = none)
    (h : ((v.projectFields entity false path rest out row).run g).result = .ok (out', g')) :
    Fields.get? out' key = Fields.get? out key := by
  rcases (projectFields_formed v entity false path rest out row g h).frame hrest with
    hget | ⟨⟨other, p, hother, hp, hcolumn⟩, value, hvalue, -⟩
  · exact hget
  · cases p with
    | foreignKey pointee column =>
      cases List.mem_singleton.mp hcolumn
      cases (hfree other hother pointee hp).symm.trans hvalue
    | polymorphic pointee =>
      have hcolumns : ∀ column ∈ [entityColumn, entityIdColumn],
          (splitBackReference? column).isSome = false := by decide
      cases hsplit.symm.trans (hcolumns key hcolumn)

/-- A back-reference in the projection of a row gives the rows whose pointer leads back to it. They
stand under the name of the back-reference if the projection does not ask after it for a reference
that the row keeps in a column of this very name. -/
theorem children_of_project {key : String} {spec : Json} {projection : Fields Json}
    {path : List String} {out : Row} {g g' : Forming}
    (hid : ∀ {entity id row}, v.row? entity id = some row →
      Fields.get? row "id" = some (.str id))
    (hrow : v.row? entity id = some row)
    (hrelation : v.schema.relation entity key = .ok (.toMany target back))
    (hnames : (Fields.names projection).Nodup) (hmem : (key, spec) ∈ projection)
    (hdecode : Selection.decode spec = .ok s) (hfilter : s.filter = none)
    (hsorter : s.sorter = none) (hcount : s.count = none) (hdata : "id" ∈ Fields.names s.data)
    (hfree : ∀ other pointee, [key, other].Sublist (Fields.names projection) →
      v.schema.relation entity other = .ok (.pointer (.foreignKey pointee key)) →
      Fields.get? row key = none)
    (h : ((v.project entity false path projection row).run g).result = .ok (out, g')) :
    ∃ children ids,
      v.Lists target (fun child => v.follow (.back entity back) child = .found row) children ids ∧
      (∃ bindings, (v.select target (Projected.selectionOf entity (.str id) back s)
        { bindings }).result = .ok children) ∧
      Fields.get? out key = some (.arr (children.map .obj)) := by
  have hsplit := Schema.splitBackReference?_of_toMany hrelation
  have hkey : key ≠ "#id" := by
    rintro rfl
    cases hsplit
  have hplain := Schema.isKey_of_spelled (Schema.spelled_of_toMany hrelation)
  have hfield : Projected.ofField v.schema entity key spec = .ok (.children target back s) := by
    rw [Projected.ofField, if_neg (by simp [hplain]), hrelation]
    exact congrArg (Except.map (Projected.children target back)) hdecode
  rw [result_project] at h
  obtain ⟨label, -, h⟩ := bind_eq_ok.mp h
  obtain ⟨start, -, h⟩ := bind_eq_ok.mp h
  obtain ⟨before, rest, rfl⟩ := List.append_of_mem hmem
  obtain ⟨⟨out', start⟩, -, h⟩ := exists_of_projectFields_append h
  rw [result_projectFields v entity hkey] at h
  obtain ⟨kind, hkind, h⟩ := bind_eq_ok.mp h
  cases hfield.symm.trans hkind
  obtain ⟨middle, hmiddle, h⟩ := bind_eq_ok.mp h
  rw [result_children (hid hrow)] at hmiddle
  obtain ⟨children, hselect, rfl⟩ := map_eq_ok.mp hmiddle
  obtain ⟨ids, hlists⟩ := lists_of_select hid hrow hfilter hsorter hcount hdata hselect
  refine ⟨children, ids, hlists, ⟨_, hselect⟩, ?_⟩
  rw [Fields.names, List.map_append, List.map_cons] at hnames hfree
  have hrest : key ∉ Fields.names rest :=
    (List.nodup_cons.mp (List.nodup_append.mp hnames).2.1).1
  have hlater {other : String} (hother : other ∈ Fields.names rest) :
      [key, other].Sublist (Fields.names before ++ key :: Fields.names rest) :=
    ((List.singleton_sublist.mpr hother).cons_cons key).trans (List.sublist_append_right ..)
  rw [get?_of_projectFields hsplit hrest (fun other hother p => hfree other p (hlater hother)) h,
    Fields.get?_insert, if_pos rfl]

end View

end EntityStore
