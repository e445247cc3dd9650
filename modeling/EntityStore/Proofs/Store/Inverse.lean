import EntityStore.Proofs.Query.Inverse
import EntityStore.Proofs.Schema.Pointers
import EntityStore.Proofs.Store.Structural

/-! Back-references of a store. In every state that a store gets into, a back-reference lists the
rows whose pointer leads back to the row in the projection, whoever looks
(`Store.children_inverse`). The list is lost if the row also keeps a reference in a column with the
name of the back-reference and the projection asks for it later (`Store.children_overwritten`). -/

namespace EntityStore

namespace Store

/-- A back-reference, without a filter, a sorter and a count of its own, is the inverse of the
pointer that it names: it gives the visible rows from which the pointer leads to the row at hand,
each once and in ascending order of their ids. They stand under the name of the back-reference if
the projection does not ask after it for a reference that the row keeps in a column of this very
name. -/
theorem children_inverse (schema : Schema) (config : Config) {calls : List Call}
    (hfresh : Call.Fresh calls) (hunique : ∀ call ∈ calls, call.Unique) (reader : Option TxnId)
    {entity target key id : String} {back : Option String} {spec : Json} {selection : Selection}
    {projection : Fields Json} {path : List String} {row out : Row} {g g' : Forming}
    (hrelation : schema.relation entity key = .ok (.toMany target back))
    (hnames : (Fields.names projection).Nodup) (hmem : (key, spec) ∈ projection)
    (hdecode : Selection.decode spec = .ok selection) (hfilter : selection.filter = none)
    (hsorter : selection.sorter = none) (hcount : selection.count = none)
    (hdata : "id" ∈ Fields.names selection.data)
    (hfree : ∀ other pointee, [key, other].Sublist (Fields.names projection) →
      schema.relation entity other = .ok (.pointer (.foreignKey pointee key)) →
      Fields.get? row key = none) :
    let v := (({ schema, config } : Store).run calls).view reader
    v.row? entity id = some row →
    ((v.project entity false path projection row).run g).result = .ok (out, g') →
    ∃ children ids,
      v.Lists target (fun child => v.follow (.back entity back) child = .found row) children ids ∧
      (∃ bindings, (v.select target (Projected.selectionOf entity (.str id) back selection)
        { bindings }).result = .ok children) ∧
      Fields.get? out key = some (.arr (children.map .obj)) := by
  intro v hrow h
  have S := serial_run schema config hfresh hunique
  have hid {entity id : String} {row : Row} (hrow : v.row? entity id = some row) :
      Fields.get? row "id" = some (.str id) :=
    S.keyed.get?_id (({ schema, config } : Store).run calls).schema hrow
  have hschema : v.schema = schema := schema_run _ calls
  rw [← hschema] at hrelation hfree
  exact View.children_of_project hid hrow hrelation hnames hmem hdecode hfilter hsorter hcount
    hdata hfree h

/-- A team with two of three users. -/
theorem children_inverse_team :
    let user : Entity :=
      { attributes := Std.ExtTreeMap.ofList [("team", { type := .ref "team" })] compare }
    let schema : Schema :=
      { entities := Std.ExtTreeMap.ofList [("team", {}), ("user", user)] compare }
    let a : TxnId := ⟨1, "a"⟩
    let create (entity : String) (data : Json) : Call :=
      .mutate (some a) entity (.create data) false
    let team : Row := [("id", .str "t")]
    let ann : Row := [("id", .str "ann"), ("teamId", .str "t")]
    let bob : Row := [("id", .str "bob"), ("teamId", .str "t")]
    let calls : List Call := [.begin a, create "team" (.obj team), create "user" (.obj bob),
      create "user" (.obj ann), create "user" (.obj [("id", .str "eve")])]
    let v := (({ schema } : Store).run calls).view (some a)
    let spec : Json := .obj [("data", .obj [("id", .ofNat 1)])]
    let projection : Fields Json := [("user$team", spec)]
    let out : Row := [("user$team", .arr [.obj [("id", .str "ann")], .obj [("id", .str "bob")]])]
    Call.Fresh calls ∧ (∀ call ∈ calls, call.Unique) ∧
      schema.relation "team" "user$team" = .ok (.toMany "user" (some "team")) ∧
      (Fields.names projection).Nodup ∧ Selection.decode spec = .ok (View.idSelection none) ∧
      v.row? "team" "t" = some team ∧
      ((v.project "team" false [] projection team).run { bindings := {} }).result =
        .ok (out, { bindings := {} }) ∧
      ∃ children ids,
        v.Lists "user" (fun child => v.follow (.foreignKey "team" "teamId") child = .found team)
          children ids ∧
        Fields.get? out "user$team" = some (.arr (children.map .obj)) := by
  intro user schema a create team ann bob calls v spec projection out
  have hfresh : Call.Fresh calls := by decide
  have hunique : ∀ call ∈ calls, call.Unique := by
    simp [calls, create, team, ann, bob, Call.Unique, Operation.Unique, Operation.create,
      Json.UniqueRows, Json.rows, Fields.names]
  have hrelation : schema.relation "team" "user$team" = .ok (.toMany "user" (some "team")) := rfl
  have hdecode : Selection.decode spec = .ok (View.idSelection none) := by rfl
  have hrow : v.row? "team" "t" = some team := by decide +kernel
  have hschema : v.schema = schema := schema_run _ calls
  have hselect : (v.select "user" (Projected.selectionOf "team" (.str "t") (some "team")
      (View.idSelection none)) {}).result = .ok [[("id", .str "ann")], [("id", .str "bob")]] := by
    have hback : v.pointingBack "user" "team" "t" (some "team") = [("ann", ann), ("bob", bob)] := by
      decide +kernel
    refine (View.result_select_backReference hschema rfl rfl).trans ?_
    rw [hback]
    rfl
  have hproject : ((v.project "team" false [] projection team).run { bindings := {} }).result =
      .ok (out, { bindings := {} }) := by
    have hfield : Projected.ofField v.schema "team" "user$team" spec =
        .ok (.children "user" (some "team") (View.idSelection none)) := by rw [hschema]; rfl
    have hteam : Fields.get? team "id" = some (.str "t") := rfl
    rw [View.result_project]
    change ((v.projectFields "team" false [] projection [] team).run _).result = _
    rw [View.result_projectFields v "team" (by decide), hfield]
    change (((v.projectField "team" false [] "user$team" [] team _).run _).result.bind _) = _
    rw [View.result_children hteam, hselect]
    exact View.result_projectFields_nil ..
  have hnames : (Fields.names projection).Nodup := by decide
  obtain ⟨children, ids, hlists, -, hchildren⟩ :=
    children_inverse schema {} hfresh hunique (some a) hrelation hnames (.head _) hdecode rfl rfl
      rfl (by decide) (fun _ _ _ _ => rfl) hrow hproject
  exact ⟨hfresh, hunique, hrelation, hnames, hdecode, hrow, hproject, children, ids, hlists,
    hchildren⟩

/-- A reference with a dollar sign in its name, which is accepted, is kept in a column with the name
of a back-reference. The only row of `t` points at the row of `a`, but where the projection asks for
the back-reference first, the column has replaced its list. -/
theorem children_overwritten :
    let target : Attribute := { type := .ref "a" }
    let source : Entity := { attributes := Std.ExtTreeMap.ofList [("t$", target)] compare }
    let other : Entity := { attributes := Std.ExtTreeMap.ofList [("Id", target)] compare }
    let schema : Schema :=
      { entities := Std.ExtTreeMap.ofList [("a", source), ("t", other)] compare }
    let x : TxnId := ⟨1, "x"⟩
    let p : Row := [("id", .str "p"), ("t$Id", .str "p")]
    let c : Row := [("id", .str "c"), ("IdId", .str "p")]
    let calls : List Call := [.begin x, .mutate (some x) "a" (.create (.obj p)) false,
      .mutate (some x) "t" (.create (.obj c)) false, .commit x]
    let s := ({ schema } : Store).run calls
    let v := s.view none
    let ids : Json := .obj [("id", .ofNat 1)]
    let selection : Selection := { data := [("t$Id", .obj [("data", ids)]), ("t$", ids)] }
    schema.Accepted ∧ schema.relation "a" "t$Id" = .ok (.toMany "t" (some "Id")) ∧
      v.row? "a" "p" = some p ∧ v.row? "t" "c" = some c ∧
      v.follow (.foreignKey "a" "IdId") c = .found p ∧
      (v.select "t" (Projected.selectionOf "a" (.str "p") (some "Id") (View.idSelection none))
        {}).result = .ok [[("id", .str "c")]] ∧
      (s.select none "a" selection {}).1 =
        .ok [[("t$Id", .str "p"), ("t$", .obj [("id", .str "p")])]] := by
  intro target source other schema x p c calls s v ids selection
  have hschema : v.schema = schema := schema_run _ calls
  have hp : v.row? "a" "p" = some p := by decide +kernel
  have hc : v.row? "t" "c" = some c := by decide +kernel
  have hselect : (v.select "t" (Projected.selectionOf "a" (.str "p") (some "Id")
      (View.idSelection none)) {}).result = .ok [[("id", .str "c")]] := by
    have hback : v.pointingBack "t" "a" "p" (some "Id") = [("c", c)] := by decide +kernel
    refine (View.result_select_backReference hschema rfl rfl).trans ?_
    rw [hback]
    rfl
  have hloop : v.follow (.foreignKey "a" "t$Id") p = .found p := View.follow_of_row? (by decide) hp
  have hproject : v.formRow "a" false selection.data {} p =
      .ok [("t$Id", .str "p"), ("t$", .obj [("id", .str "p")])] := by
    have hchildren : Projected.ofField v.schema "a" "t$Id" (.obj [("data", ids)]) =
        .ok (.children "t" (some "Id") (View.idSelection none)) := by rw [hschema]; rfl
    have hpointer : Projected.ofField v.schema "a" "t$" ids =
        .ok (.pointer (.foreignKey "a" "t$Id") [("id", .ofNat 1)]) := by rw [hschema]; rfl
    have hid : Projected.ofField v.schema "a" "id" (.ofNat 1) = .ok .column := by
      rw [hschema]
      rfl
    have hkey : Fields.get? p "id" = some (.str "p") := rfl
    simp [View.formRow, View.result_project, View.result_projectFields, Filter.label?,
      Fields.get?_cons, Forming.labelled, selection, hchildren, hpointer, hid,
      View.result_children hkey, hselect, View.result_pointer hloop, Pointer.target,
      View.result_column, View.result_projectFields_nil, Except.bind, Except.map]
    rfl
  refine ⟨Schema.accepted_of_complaint? (by decide), rfl, hp, hc, ?_, hselect, ?_⟩
  · exact View.follow_of_row? (by decide) hp
  · have hmatching : (v.matching "a" selection {}).result = .ok [p] := by
      have hdeclared : v.schema.entity "a" = .ok source := by rw [hschema]; rfl
      have hscan : v.scan "a" = [p] := by decide +kernel
      rw [View.result_matching_eq, hdeclared, ← hscan]
      rfl
    have hhoist : v.hoist "a" selection = (.ok none, selection.data) := rfl
    rw [result_select, View.result_select, hmatching]
    dsimp only [Except.bind]
    rw [View.result_form_eq_mapM, hhoist, mapM_cons, hproject]
    rfl

end Store

end EntityStore
