import EntityStore.Proofs.Json.Merge
import EntityStore.Proofs.Query.Settling

/-! What projections give away. A row that is formed has nothing but what its projection asks for,
and the columns of the pointers in it, at every level (`View.Confined`); and what it has under these
names depends on nothing but the columns that the projection reads (`Projected.Reads`). -/

namespace EntityStore

/-! ## Columns that a projection reads -/

namespace Expression

mutual

/-- The attributes of the row at hand that an expression reads. -/
def attributes : Expression → List String
  | .const _ | .ref .. => []
  | .attr name => [name]
  | .unary _ arg => attributes arg
  | .multi _ args => attributesList args

/-- The attributes that arguments read. -/
def attributesList : List Expression → List String
  | [] => []
  | e :: es => attributes e ++ attributesList es

end

variable {row row' : Row}

mutual

/-- Of the row at hand, the first phase depends on the attributes of the expression alone. -/
theorem evaluate_congr_row (bindings : Bindings) : (e : Expression) →
    (∀ name ∈ e.attributes, Fields.get? row name = Fields.get? row' name) →
      e.evaluate (some row) bindings = e.evaluate (some row') bindings
  | .const _, _ | .ref .., _ => by rw [evaluate, evaluate]
  | .attr name, h => by
    rw [evaluate, evaluate, Option.bind_some, Option.bind_some, h name (List.mem_singleton_self _)]
  | .unary op arg, h => by rw [evaluate, evaluate, evaluate_congr_row bindings arg h]
  | .multi op args, h => by rw [evaluate, evaluate, evaluateList_congr_row bindings args h]

theorem evaluateList_congr_row (bindings : Bindings) : (es : List Expression) →
    (∀ name ∈ attributesList es, Fields.get? row name = Fields.get? row' name) →
      evaluateList (some row) bindings es = evaluateList (some row') bindings es
  | [], _ => by rw [evaluateList, evaluateList]
  | e :: es, h => by
    rw [evaluateList, evaluateList,
      evaluate_congr_row bindings e fun name hn => h name (List.mem_append_left _ hn),
      evaluateList_congr_row bindings es fun name hn => h name (List.mem_append_right _ hn)]

end

end Expression

namespace Projected

/-- The columns of a row that its projection reads: those it names, those of its pointers, those in
its expressions, and the id, which the rows that point back are found by. -/
inductive Reads (schema : Schema) (entity : String) (projection : Fields Json) : String → Prop where
  | id : Reads schema entity projection "id"
  | column {name : String} {spec : Json} (hmem : (name, spec) ∈ projection)
    (hfield : ofField schema entity name spec = .ok .column) : Reads schema entity projection name
  | pointer {key name : String} {spec : Json} {p : Pointer} {nested : Fields Json}
    (hmem : (key, spec) ∈ projection)
    (hfield : ofField schema entity key spec = .ok (.pointer p nested))
    (hname : name ∈ pointerColumns p) : Reads schema entity projection name
  | expr {key name : String} {spec : Json} {e : Expression} (hmem : (key, spec) ∈ projection)
    (hfield : ofField schema entity key spec = .ok (.expr e)) (hname : name ∈ e.attributes) :
    Reads schema entity projection name

theorem copyColumns_congr {columns : List String} {row row' : Row}
    (h : ∀ name ∈ columns, Fields.get? row name = Fields.get? row' name) (out : Row) :
    copyColumns columns row out = copyColumns columns row' out := by
  unfold copyColumns
  induction columns generalizing out with
  | nil => rfl
  | cons column columns ih =>
    obtain ⟨hcolumn, hcolumns⟩ := List.forall_mem_cons.mp h
    rw [List.foldl_cons, List.foldl_cons, hcolumn]
    exact ih hcolumns _

end Projected

namespace View

open Projected (Reads)

variable {v : View} {entity key name : String} {obscure : Bool} {path : List String}
  {projection left : Fields Json} {spec value : Json} {kind : Projected} {p : Pointer}
  {row row' out : Row}

/-! ## Rows that agree -/

/-- A pointer is followed through its columns alone. -/
theorem follow_congr
    (h : ∀ name ∈ Projected.pointerColumns p, Fields.get? row name = Fields.get? row' name) :
    v.follow p row = v.follow p row' := by
  cases p with
  | foreignKey target column => rw [follow, follow, h column (List.mem_singleton_self _)]
  | polymorphic target =>
    have hentity := h entityColumn (by simp [Projected.pointerColumns])
    have hid := h entityIdColumn (by simp [Projected.pointerColumns])
    rw [follow, follow, hentity, hid]

/-- A key of a projection does the same with two rows that agree on what the projection reads. -/
theorem projectField_congr (hmem : (key, spec) ∈ projection)
    (hfield : Projected.ofField v.schema entity key spec = .ok kind)
    (h : ∀ name, Reads v.schema entity projection name →
      Fields.get? row name = Fields.get? row' name) :
    v.projectField entity obscure path key out row kind =
      v.projectField entity obscure path key out row' kind := by
  cases kind with
  | expr e =>
    have he (bindings : Bindings) := Expression.evaluate_congr_row bindings e fun name hname =>
      h name (.expr hmem hfield hname)
    unfold projectField
    simp only [he]
  | column =>
    have hcolumn := h key (.column hmem hfield)
    unfold projectField
    rw [Projected.copyColumns_congr (List.forall_mem_singleton.mpr hcolumn)]
  | children target back selection =>
    unfold projectField
    rw [h "id" .id]
  | pointer p nested =>
    have hcolumns : ∀ name ∈ Projected.pointerColumns p,
        Fields.get? row name = Fields.get? row' name := fun name hname =>
      h name (.pointer hmem hfield hname)
    unfold projectField
    dsimp only
    rw [Projected.copyColumns_congr hcolumns, follow_congr hcolumns]

theorem projectFields_congr (hleft : left ⊆ projection)
    (h : ∀ name, Reads v.schema entity projection name →
      Fields.get? row name = Fields.get? row' name) (out : Row) :
    v.projectFields entity obscure path left out row =
      v.projectFields entity obscure path left out row' := by
  induction left generalizing out with
  | nil => rw [projectFields, projectFields]
  | cons field left ih =>
    obtain ⟨key, spec⟩ := field
    obtain ⟨hmem, hrest⟩ := List.cons_subset.mp hleft
    by_cases hkey : key = "#id"
    · subst hkey
      rw [projectFields_label, projectFields_label]
      exact ih hrest out
    · rw [projectFields_cons v hkey, projectFields_cons v hkey]
      cases hfield : Projected.ofField v.schema entity key spec with
      | error e => rfl
      | ok kind =>
        change (v.projectField entity obscure path key out row kind >>= fun out =>
            v.projectFields entity obscure path left out row) =
          (v.projectField entity obscure path key out row' kind >>= fun out =>
            v.projectFields entity obscure path left out row')
        rw [projectField_congr hmem hfield h]
        exact congrArg _ (funext (ih hrest))

/-- A projection without a label forms the same of two rows that agree on what it reads. -/
theorem project_congr (hlabel : "#id" ∉ Fields.names projection)
    (h : ∀ name, Reads v.schema entity projection name →
      Fields.get? row name = Fields.get? row' name) :
    v.project entity obscure path projection row =
      v.project entity obscure path projection row' := by
  rw [project, project, Filter.label?_of_not_mem hlabel,
    projectFields_congr (List.Subset.refl _) h]
  rfl

/-! ## Rows that are formed -/

mutual

/-- All that a row has is what its projection may give away. -/
inductive Confined (v : View) : String → Fields Json → Row → Prop where
  | intro {entity : String} {projection : Fields Json} {out : Row}
    (h : ∀ name value, (name, value) ∈ out → Discloses v entity projection name value) :
    Confined v entity projection out

/-- What a projection may give away under a name. -/
inductive Discloses (v : View) : String → Fields Json → String → Json → Prop where
  /-- The value of an expression. -/
  | expr {entity name : String} {projection : Fields Json} {spec value : Json} {e : Expression}
    (hmem : (name, spec) ∈ projection) (hlabel : name ≠ "#id")
    (hfield : Projected.ofField v.schema entity name spec = .ok (.expr e)) :
    Discloses v entity projection name value
  | column {entity name : String} {projection : Fields Json} {spec value : Json}
    (hmem : (name, spec) ∈ projection) (hlabel : name ≠ "#id")
    (hfield : Projected.ofField v.schema entity name spec = .ok .column) :
    Discloses v entity projection name value
  /-- Rows that point back, each of them formed for the selection under the name. -/
  | children {entity name target : String} {projection : Fields Json} {spec : Json}
    {back : Option String} {selection : Selection} {rows : List Row}
    (hmem : (name, spec) ∈ projection) (hlabel : name ≠ "#id")
    (hfield : Projected.ofField v.schema entity name spec =
      .ok (.children target back selection))
    (hrows : ∀ child ∈ rows, ∃ id option matched out,
      (v.form target matched (Projected.selectionOf entity id back selection) option).result =
        .ok out ∧ child ∈ out) :
    Discloses v entity projection name (.arr (rows.map .obj))
  /-- A pointer that finds no row. -/
  | null {entity name : String} {projection nested : Fields Json} {spec : Json} {p : Pointer}
    (hmem : (name, spec) ∈ projection) (hlabel : name ≠ "#id")
    (hfield : Projected.ofField v.schema entity name spec = .ok (.pointer p nested)) :
    Discloses v entity projection name .null
  /-- The row that a pointer finds, confined to the projection under the name. -/
  | nested {entity name : String} {projection nested : Fields Json} {spec : Json} {p : Pointer}
    {inner : Row} (hmem : (name, spec) ∈ projection) (hlabel : name ≠ "#id")
    (hfield : Projected.ofField v.schema entity name spec = .ok (.pointer p nested))
    (h : Confined v p.target nested inner) : Discloses v entity projection name (.obj inner)
  /-- A column of a pointer. -/
  | pointerColumn {entity key name : String} {projection nested : Fields Json}
    {spec value : Json} {p : Pointer} (hmem : (key, spec) ∈ projection) (hlabel : key ≠ "#id")
    (hfield : Projected.ofField v.schema entity key spec = .ok (.pointer p nested))
    (hname : name ∈ Projected.pointerColumns p) : Discloses v entity projection name value

end

namespace Confined

variable {left nested : Fields Json} {g : Forming} {finish : Row × Forming} {l : Level}

theorem nil : v.Confined entity projection [] := .intro nofun

theorem discloses (h : v.Confined entity projection out) (hmem : (name, value) ∈ out) :
    v.Discloses entity projection name value := by
  obtain ⟨h⟩ := h
  exact h name value hmem

theorem insert (h : v.Confined entity projection out)
    (hvalue : v.Discloses entity projection name value) :
    v.Confined entity projection (Fields.insert out name value) := by
  refine .intro fun other value' hmem => ?_
  rcases Fields.mem_insert hmem with hmem | he
  · exact h.discloses hmem
  · cases he
    exact hvalue

theorem copyColumns {columns : List String} (row : Row) (h : v.Confined entity projection out)
    (hcolumns : ∀ name ∈ columns, ∀ value, v.Discloses entity projection name value) :
    v.Confined entity projection (Projected.copyColumns columns row out) := by
  unfold Projected.copyColumns
  induction columns generalizing out with
  | nil => exact h
  | cons column columns ih =>
    obtain ⟨hcolumn, hcolumns⟩ := List.forall_mem_cons.mp hcolumns
    refine ih ?_ hcolumns
    dsimp only
    cases Fields.get? row column with
    | none => exact h
    | some value => exact h.insert (hcolumn value)

/-- Every kind of key keeps a row confined. -/
theorem projectField (hmem : (key, spec) ∈ projection) (hlabel : key ≠ "#id")
    (hfield : Projected.ofField v.schema entity key spec = .ok kind)
    (hout : v.Confined entity projection out)
    (h : ((v.projectField entity obscure path key out row kind).run g).result = .ok finish)
    (hnested : ∀ {p nested found finish}, kind = .pointer p nested →
      ((v.project p.target obscure (path ++ [key]) nested found).run g).result = .ok finish →
        v.Confined p.target nested finish.1) :
    v.Confined entity projection finish.1 := by
  cases kind with
  | expr e =>
    rw [result_expr] at h
    split at h <;> cases h
    · exact hout.insert (.expr hmem hlabel hfield)
    · exact hout
  | column =>
    cases h
    exact hout.copyColumns row <| List.forall_mem_singleton.mpr fun _ =>
      .column hmem hlabel hfield
  | children target back selection =>
    cases hid : Fields.get? row "id" with
    | none =>
      rw [View.projectField, hid] at h
      cases h
      have hnone : v.Discloses entity projection key (.arr ([].map .obj)) :=
        .children hmem hlabel hfield fun _ hchild => absurd hchild List.not_mem_nil
      exact hout.insert hnone
    | some id =>
      rw [result_children hid] at h
      obtain ⟨children, hselect, rfl⟩ := map_eq_ok.mp h
      rw [result_select] at hselect
      obtain ⟨matched, -, hform⟩ := bind_eq_ok.mp hselect
      exact hout.insert (.children hmem hlabel hfield fun child hchild =>
        ⟨id, _, matched, children, hform, hchild⟩)
  | pointer p nested =>
    have hcolumns : ∀ name ∈ Projected.pointerColumns p, ∀ value,
        v.Discloses entity projection name value := fun name hname value =>
      .pointerColumn hmem hlabel hfield hname
    have hkept := hout.copyColumns row hcolumns
    by_cases hfollow : ∃ found, v.follow p row = .found found
    · obtain ⟨found, hfollow⟩ := hfollow
      rw [result_pointer hfollow] at h
      obtain ⟨inner, hproject, rfl⟩ := map_eq_ok.mp h
      exact hkept.insert (.nested hmem hlabel hfield (hnested rfl hproject))
    · rcases projectField_of_not_found hfollow h with rfl | rfl
      · exact hout
      · exact hkept.insert (.null hmem hlabel hfield)

end Confined

mutual

theorem project_confined (v : View) (entity : String) (obscure : Bool) (path : List String)
    (projection : Fields Json) (row : Row) (g : Forming) {finish : Row × Forming}
    (h : ((v.project entity obscure path projection row).run g).result = .ok finish) :
    v.Confined entity projection finish.1 := by
  rw [result_project] at h
  obtain ⟨label, -, h⟩ := bind_eq_ok.mp h
  obtain ⟨g', -, h⟩ := bind_eq_ok.mp h
  exact projectFields_confined v entity obscure path projection projection [] row g'
    (List.Subset.refl _) .nil h
termination_by sizeOf projection + 1

theorem projectFields_confined (v : View) (entity : String) (obscure : Bool) (path : List String)
    (projection left : Fields Json) (out row : Row) (g : Forming) {finish : Row × Forming}
    (hleft : left ⊆ projection) (hout : v.Confined entity projection out)
    (h : ((v.projectFields entity obscure path left out row).run g).result = .ok finish) :
    v.Confined entity projection finish.1 := by
  match left with
  | [] =>
    rw [result_projectFields_nil] at h
    cases h
    exact hout
  | (key, spec) :: rest =>
    obtain ⟨hmem, hrest⟩ := List.cons_subset.mp hleft
    by_cases hkey : key = "#id"
    · subst hkey
      rw [projectFields_label] at h
      exact projectFields_confined v entity obscure path projection rest out row g hrest hout h
    · rw [result_projectFields v entity hkey] at h
      obtain ⟨kind, hfield, h⟩ := bind_eq_ok.mp h
      obtain ⟨middle, hmiddle, h⟩ := bind_eq_ok.mp h
      refine projectFields_confined v entity obscure path projection rest middle.1 row middle.2
        hrest (hout.projectField hmem hkey hfield hmiddle ?_) h
      intro p nested found finish hkind hproject
      subst hkind
      cases Projected.eq_obj_of_pointer hfield
      exact project_confined v p.target obscure (path ++ [key]) nested found g hproject
termination_by sizeOf left

end

/-- The value of an expression that waited comes to its place. -/
theorem Confined.writeAt {l : Level} (hd : l.Distinct)
    (h : v.Confined l.entity l.projection out) (hask : v.Asks l path name spec row)
    {e : Expression} (hparse : Expression.parse spec = .ok e) (value : Json) :
    v.Confined l.entity l.projection (Projected.writeAt name value path out) := by
  induction path generalizing l out with
  | nil =>
    obtain ⟨hmem, hkey, -⟩ := asks_nil.mp hask
    exact h.insert (.expr hmem (Expression.ne_label hkey) (Projected.ofField_expr hkey hparse))
  | cons step path ih =>
    obtain ⟨l', hopens, hask⟩ := asks_step.mp hask
    have hd' := hopens.distinct hd
    obtain ⟨spec', p, nested, found, hmem, hlabel, hfield, -, rfl⟩ := hopens
    have hspec {other : Json} (hother : (step, other) ∈ l.projection) : other = spec' := by
      have hnodup := (Json.distinct_obj.mp hd).1
      exact Option.some.inj ((Fields.get?_of_mem hnodup hother).symm.trans
        (Fields.get?_of_mem hnodup hmem))
    rcases Projected.writeAt_cons name value step path out with hwrite | ⟨inner, hinner, hwrite⟩
    · rwa [hwrite]
    rw [hwrite]
    refine h.insert ?_
    cases h.discloses (Fields.mem_of_get? hinner) with
    | expr hother _ hexpr =>
      cases hspec hother
      cases hexpr.symm.trans hfield
    | column hother _ hcolumn =>
      cases hspec hother
      cases hcolumn.symm.trans hfield
    | nested hother _ hpointer hinner =>
      cases hspec hother
      cases hpointer.symm.trans hfield
      exact .nested hmem hlabel hfield (ih hd' hinner hask)
    | pointerColumn hother hother' hpointer hname =>
      exact .pointerColumn hother hother' hpointer hname

theorem settle_confined {bindings : Bindings} {pending : List PendingField} {l : Level}
    (hd : l.Distinct) (hout : v.Confined l.entity l.projection out)
    (hpending : ∀ field ∈ pending, ∃ spec row e, v.Asks l field.path field.name spec row ∧
      Expression.parse spec = .ok e)
    {formed : Row} (h : settle ⟨bindings, pending⟩ out = .ok formed) :
    v.Confined l.entity l.projection formed := by
  induction pending generalizing out with
  | nil =>
    cases h
    exact hout
  | cons field pending ih =>
    rw [settle_cons] at h
    obtain ⟨value, -, h⟩ := bind_eq_ok.mp h
    obtain ⟨⟨spec, row, e, hask, hparse⟩, hpending⟩ := List.forall_mem_cons.mp hpending
    exact ih (hout.writeAt hd hask hparse value) hpending h

theorem formRow_confined {seed : Bindings} {formed : Row}
    (hd : (Json.obj projection).distinct = true)
    (h : v.formRow entity obscure projection seed row = .ok formed) :
    v.Confined entity projection formed := by
  obtain ⟨⟨out, ⟨final, pending⟩⟩, ht, h⟩ := bind_eq_ok.mp h
  refine settle_confined (l := ⟨entity, projection, row⟩) hd
    (project_confined v entity obscure [] projection row _ ht) (fun field hmem => ?_) h
  obtain ⟨spec, row', e, hask, hparse, -⟩ := waits_of_project ht hmem
  exact ⟨spec, row', e, hask, hparse⟩

/-- Every row of a result has nothing but what the projection with the hoisted sort keys asks for
and the columns of the pointers in it, and so has every row that such a pointer finds. A projection
without a label forms the same row, or fails alike, of any two rows that agree on the columns that
it reads. -/
theorem form_discloses (v : View) (entity : String) (s : Selection) (option : SelectOption)
    (hdata : (Json.obj s.data).distinct = true)
    (hsorter : ∀ sorter, s.sorter = some sorter → sorter.distinct = true) :
    let projection := (v.hoist entity s).2
    let formed := v.formRow entity option.obscure projection option.bindings
    (∀ rows out, (v.form entity rows s option).result = .ok out → ∀ row' ∈ out,
      (∃ row ∈ rows, formed row = .ok row') ∧ v.Confined entity projection row') ∧
    ("#id" ∉ Fields.names projection → ∀ row row',
      (∀ name, Reads v.schema entity projection name →
        Fields.get? row name = Fields.get? row' name) → formed row = formed row') := by
  intro projection formed
  have hd : (Json.obj projection).distinct = true := distinct_hoist hdata hsorter
  constructor
  · intro rows out h row' hmem
    obtain ⟨row, hrow, hformed⟩ := exists_of_mem_form h hmem
    exact ⟨⟨row, hrow, hformed⟩, formRow_confined hd hformed⟩
  · intro hlabel row row' hread
    change View.formRow .. = View.formRow ..
    rw [formRow, formRow, project_congr hlabel hread]

/-- Two users who differ in their secret only, each in a projection with the name of the boss. -/
theorem form_discloses_secret :
    let user := (({} : Entity).withAttribute "name" { type := .string }).withAttribute "boss"
      { type := .ref "user" }
    let ann (secret : String) : Row :=
      [("id", .str "u1"), ("secret", .str secret), ("name", .str "ann"), ("bossId", .str "u2")]
    let bob : Row := [("id", .str "u2"), ("secret", .str "z"), ("name", .str "bob")]
    let v : View := {
      schema := ({} : Schema).withEntity "user" user
      rows := Std.ExtTreeMap.ofList [(⟨"user", "u2"⟩, bob)] RowKey.order }
    let s : Selection := { data := [("name", .null), ("boss", .obj [("name", .null)])] }
    let formed : Row :=
      [("name", .str "ann"), ("bossId", .str "u2"), ("boss", .obj [("name", .str "bob")])]
    (Json.obj s.data).distinct = true ∧ (v.form "user" [ann "x"] s {}).result = .ok [formed] ∧
      v.Confined "user" s.data formed ∧ "#id" ∉ Fields.names s.data ∧
      v.formRow "user" false s.data {} (ann "x") = .ok formed ∧
      v.formRow "user" false s.data {} (ann "y") = .ok formed := by
  intro user ann bob v s formed
  have hname (spec : Json) : Projected.ofField v.schema "user" "name" spec = .ok .column := rfl
  have hboss : Projected.ofField v.schema "user" "boss" (.obj [("name", .null)]) =
      .ok (.pointer (.foreignKey "user" "bossId") [("name", .null)]) := rfl
  have hfollow : v.follow (.foreignKey "user" "bossId") (ann "x") = .found bob :=
    have hbob : v.row? "user" "u2" = some bob := by decide +kernel
    follow_of_row? (by decide) hbob
  have hrow : v.formRow "user" false s.data {} (ann "x") = .ok formed := by
    simp [formRow, result_project, result_projectFields, Filter.label?, s, Fields.get?_cons,
      Forming.labelled, hname, hboss, result_column, result_pointer hfollow, Pointer.target,
      result_projectFields_nil, Except.bind, Except.map]
    rfl
  have hform : (v.form "user" [ann "x"] s {}).result = .ok [formed] := by
    rw [result_form_eq_mapM, mapM_cons]
    change (((v.formRow "user" false s.data {} (ann "x")).bind fun y => _).map _) = _
    rw [hrow]
    rfl
  have hread (name : String) (h : Reads v.schema "user" s.data name) :
      Fields.get? (ann "x") name = Fields.get? (ann "y") name := by
    have hkeys {key : String} {spec : Json} (hmem : (key, spec) ∈ s.data) :
        (key = "name" ∧ spec = .null) ∨ (key = "boss" ∧ spec = .obj [("name", .null)]) := by
      simpa [s] using hmem
    cases h with
    | id => rfl
    | column hmem => rcases hkeys hmem with ⟨rfl, -⟩ | ⟨rfl, -⟩ <;> rfl
    | pointer hmem hfield hcolumn =>
      rcases hkeys hmem with ⟨rfl, rfl⟩ | ⟨rfl, rfl⟩
      · cases (hname _).symm.trans hfield
      · cases hboss.symm.trans hfield
        cases List.mem_singleton.mp hcolumn
        rfl
    | expr hmem hfield =>
      rcases hkeys hmem with ⟨rfl, rfl⟩ | ⟨rfl, rfl⟩
      · cases (hname _).symm.trans hfield
      · cases hboss.symm.trans hfield
  have hsorter (sorter : Json) (h : s.sorter = some sorter) : sorter.distinct = true := by cases h
  obtain ⟨hconfined, hequal⟩ := form_discloses v "user" s {} (by decide) hsorter
  have hlabel : "#id" ∉ Fields.names s.data := by decide
  exact ⟨by decide, hform, (hconfined _ _ hform formed (.head _)).2, hlabel, hrow,
    (hequal hlabel _ _ hread).symm.trans hrow⟩

end View

end EntityStore
