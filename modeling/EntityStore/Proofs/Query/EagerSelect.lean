import EntityStore.Proofs.Query.Determined
import EntityStore.Proofs.Query.Eager
import EntityStore.Proofs.Query.Ids
import EntityStore.Proofs.Query.Selections

/-! Selects in eager and plain views. A selection that fits into a scope with the labels that are
bound at first gives the same rows or the same error in both (`View.select_coincide`). -/

namespace EntityStore

/-- The id of the row, if it has one, is a text. -/
def Row.Identified (row : Row) : Prop :=
  ∀ id, Fields.get? row "id" = some id → ∃ text, id = .str text

/-- Every visible row has a text for its id. -/
def View.Identified (v : View) : Prop :=
  ∀ (key : RowKey) row, v.rows[key]? = some row → Row.Identified row

namespace View

variable {v : View} {entity : String} {row : Row}

/-- A row that is scanned is visible under some key. -/
theorem exists_of_mem_scan (h : row ∈ v.scan entity) : ∃ key : RowKey, v.rows[key]? = some row := by
  obtain ⟨⟨id, found⟩, hfound, rfl⟩ := List.mem_map.mp h
  exact ⟨_, RowMap.mem_ofEntity.mp hfound⟩

/-- A row that a pointer leads to is visible under some key. -/
theorem exists_of_follow {p : Pointer} {found : Row} (h : v.follow p row = .found found) :
    ∃ key : RowKey, v.rows[key]? = some found := by
  have hlookUp {entity : String} {id : Option Json} (hl : v.lookUp entity id = .found found) :
      ∃ key : RowKey, v.rows[key]? = some found := by
    unfold lookUp at hl
    split at hl
    · cases hl
    · split at hl
      · rename_i hrow
        cases hl
        exact ⟨_, hrow⟩
      · cases hl
  unfold View.follow at h
  split at h
  · split at h
    · cases h
    · split at h
      · exact hlookUp h
      · cases h
  · exact hlookUp h

theorem follow_of_row? {target column id : String} {found : Row}
    (hid : Fields.get? row column = some (.str id)) (h : v.row? target id = some found) :
    v.follow (.foreignKey target column) row = .found found := by
  unfold follow lookUp
  dsimp only
  rw [hid]
  dsimp only [Option.bind, Json.str?]
  rw [h]

theorem Identified.scan (h : v.Identified) (hmem : row ∈ v.scan entity) : Row.Identified row := by
  obtain ⟨key, hkey⟩ := exists_of_mem_scan hmem
  exact h key row hkey

theorem Identified.follow (h : v.Identified) {p : Pointer} {found : Row}
    (hf : v.follow p row = .found found) : Row.Identified found := by
  obtain ⟨key, hkey⟩ := exists_of_follow hf
  exact h key found hkey

end View

/-! ## What does not depend on the mode -/

namespace SortPlan

theorem extract_eager (v : View) (on : Bool) (raw projected : Option Row) (key : SortKey) :
    key.extract (v.eager on) raw projected = key.extract v raw projected := by
  induction key generalizing raw projected with
  | column name => rfl
  | hoisted name => rfl
  | relation attr pointer inner ih =>
    rw [SortKey.extract, SortKey.extract, ih]
    rfl

theorem sort_eager (plan : SortPlan) (v : View) (on : Bool) (raw projected : List Row) :
    plan.sort (v.eager on) raw projected = plan.sort v raw projected := by
  have hkeys : plan.keysOf (v.eager on) = plan.keysOf v := by
    funext r p
    unfold keysOf
    simp only [extract_eager]
  unfold sort
  rw [hkeys]

end SortPlan

/-! ## Projections -/

/-- From labels of the scope both projections do the same, and leave labels of the scope. -/
def Form.Coincide {α : Type} (scope : List String) (x y : Form α) : Prop :=
  ∀ g, g.bindings.Within scope →
    EntityStore.Coincide (fun r => r.2.bindings.Within scope) (x.run g) (y.run g)

namespace Form.Coincide

variable {α β : Type} {scope : List String}

theorem bind {x y : Form α} {f g : α → Form β} (h : Coincide scope x y)
    (hf : ∀ a, Coincide scope (f a) (g a)) : Coincide scope (x >>= f) (y >>= g) := by
  intro s hs
  rw [StateT.run_bind, StateT.run_bind]
  exact (h s hs).bind fun r hr => hf r.1 r.2 hr

theorem pure (a : α) : Coincide scope (Pure.pure a) (Pure.pure a) := fun _ hs => coincide_pure hs

/-- What a projection reads of the bindings. -/
theorem read {f g : Forming → Form β}
    (h : ∀ s, s.bindings.Within scope → Coincide scope (f s) (g s)) :
    Coincide scope (do f (← get)) (do g (← get)) := fun s hs => h s hs s hs

theorem lift_bind {P : α → Prop} {x y : Query α} {f g : α → Form β}
    (h : EntityStore.Coincide P x y) (hf : ∀ a, P a → Coincide scope (f a) (g a)) :
    Coincide scope ((liftM x : Form α) >>= f) ((liftM y : Form α) >>= g) := by
  intro s hs
  have hrun (x : Query α) (f : α → Form β) :
      ((liftM x : Form α) >>= f).run s = (x >>= fun a => (f a).run s : Query (β × Forming)) := by
    simp
  rw [hrun, hrun]
  exact h.bind fun a ha => hf a ha s hs

theorem defer (field : PendingField) : Coincide scope (Form.defer field) (Form.defer field) :=
  fun _ hs => coincide_pure hs

theorem label {label : String} (hl : label ∈ scope) (row : Row) :
    Coincide scope (Form.bind label row) (Form.bind label row) := by
  intro s hs
  have hbind : (Form.bind label row).run s =
      (Query.ofExcept (s.bindings.bind label row) >>= fun bindings =>
        Pure.pure ((), { s with bindings })) := by simp [Form.bind]
  rw [hbind, Bindings.bind]
  split
  · exact coincide_throw _
  · exact coincide_pure (hs.set hl)

end Form.Coincide

namespace View

/-- What one key of a projection writes into the row that is formed. -/
def projectField (v : View) (entity : String) (obscure : Bool) (path : List String) (key : String)
    (out row : Row) : Projected → Form Row
  | .expr e => do
    match e.evaluate (some row) (← get).bindings with
    | .resolved value => return Fields.insert out key value
    | .pending e => do
      Form.defer ⟨path, key, e⟩
      return out
  | .column => return Projected.copyColumns [key] row out
  | .children target back selection => do
    let children ← match Fields.get? row "id" with
      | none => pure []
      | some id =>
        select v target (Projected.selectionOf entity id back selection)
          { obscure, bindings := (← get).bindings }
    return Fields.insert out key (.arr (children.map .obj))
  | .pointer p nested => do
    let kept := Projected.copyColumns (Projected.pointerColumns p) row out
    match v.follow p row, p with
    | .found target, _ => do
      let value ← project v p.target obscure (path ++ [key]) nested target
      return Fields.insert kept key (.obj value)
    | .unset, .polymorphic _ | .elsewhere, .polymorphic _ => return out
    | _, _ => return Fields.insert kept key .null

theorem projectFields_label (v : View) (entity : String) (obscure : Bool) (path : List String)
    (spec : Json) (rest : List (String × Json)) (out row : Row) :
    v.projectFields entity obscure path (("#id", spec) :: rest) out row =
      v.projectFields entity obscure path rest out row := by
  rw [projectFields, if_pos rfl]

theorem projectFields_cons (v : View) {key : String} (hk : key ≠ "#id") (entity : String)
    (obscure : Bool) (path : List String) (spec : Json) (rest : List (String × Json))
    (out row : Row) : v.projectFields entity obscure path ((key, spec) :: rest) out row = (do
      let kind ← Query.ofExcept (Projected.ofField v.schema entity key spec)
      let out ← v.projectField entity obscure path key out row kind
      v.projectFields entity obscure path rest out row) := by
  have hok (kind : Projected) (f : Projected → Form Row) :
      (do let kind ← (Query.ofExcept (.ok kind) : Query Projected); f kind) = f kind := rfl
  conv => lhs; unfold projectFields
  rw [if_neg hk]
  split <;> rename_i hfield <;> rw [hfield]
  · rfl
  · rw [hok, projectField, bind_assoc]
    refine congrArg _ (funext fun s => ?_)
    cases Expression.evaluate (some row) s.bindings _ with
    | resolved value => rfl
    | pending e => rfl
  · rfl
  · rw [hok, projectField]
    cases Fields.get? row "id" with
    | none => rfl
    | some id => simp only [bind_assoc, pure_bind]
  · rename_i p nested
    rw [hok]
    unfold projectField
    dsimp only
    cases v.follow p row with
    | found target => simp only [bind_assoc, pure_bind]
    | unset => cases p <;> rfl
    | elsewhere => cases p <;> rfl
    | missing => rfl

end View

/-! ## Selects -/

theorem Query.ofExcept_coincide {α : Type} (r : Except QueryError α) :
    Coincide (fun a => r = .ok a) (Query.ofExcept r) (Query.ofExcept r) :=
  fun _ _ => ⟨rfl, fun _ h => h⟩

namespace View

variable {v : View} {scope : List String} {entity : String} {s : Selection} {option : SelectOption}

theorem matching_eager (hs : s.FitsIn v.schema scope entity) (hb : option.bindings.Within scope) :
    Coincide (fun rows => ∀ row ∈ rows, row ∈ v.scan entity)
      ((v.eager true).matching entity s option) ((v.eager false).matching entity s option) := by
  have hsame : Coincide (fun _ => True) ((v.eager true).matching entity s option)
      ((v.eager false).matching entity s option) := by
    have hcount (matched : List Row) : Coincide (fun _ => True) (do
        Query.count fun m => { m with scanned := m.scanned + (v.scan entity).length }
        return matched) (do
        Query.count fun m => { m with scanned := m.scanned + (v.scan entity).length }
        return matched) :=
      ((determined_modify _).bind fun _ => determined_pure matched).coincide
    rw [matching, matching]
    refine (Query.ofExcept_coincide _).bind fun _ _ => ?_
    cases hf : s.filter with
    | none => exact (coincide_pure (P := fun _ => True) trivial).bind fun rows _ => hcount rows
    | some document =>
      refine (Query.ofExcept_coincide _).bind fun f hcompile => ?_
      refine Coincide.bind (P := fun _ => True) (fun w w' => ⟨?_, fun _ _ => trivial⟩)
        fun rows _ => hcount rows
      have hseed := hb.mono (List.subset_append_left scope (Filter.openLabels document))
      exact Filter.matching_eager hcompile (hs.fitsIn_filter hf) hseed v (v.scan entity) w w'
  refine fun w w' => ⟨(hsame w w').1, fun rows h row hrow => ?_⟩
  exact (matching_eq_ok (Prod.ext h rfl)).2.subset hrow

/-! Each kind of field coincides if what is selected and projected below it does. -/

section Field

variable {obscure : Bool} {path : List String} {key : String} {out row : Row}

theorem expr_coincide (e : Expression) : Form.Coincide scope
    ((v.eager true).projectField entity obscure path key out row (.expr e))
    ((v.eager false).projectField entity obscure path key out row (.expr e)) := by
  refine .read fun g _ => ?_
  cases e.evaluate (some row) g.bindings with
  | resolved value => exact .pure _
  | pending e => exact .bind (.defer _) fun _ => .pure out

theorem children_coincide {target : String} {back : Option String} {selection : Selection}
    (hrow : Row.Identified row)
    (h : ∀ text {option : SelectOption}, option.bindings.Within scope →
      let found := Projected.selectionOf entity (.str text) back selection
      Coincide (fun _ => True) ((v.eager true).select target found option)
        ((v.eager false).select target found option)) :
    Form.Coincide scope
      ((v.eager true).projectField entity obscure path key out row
        (.children target back selection))
      ((v.eager false).projectField entity obscure path key out row
        (.children target back selection)) := by
  rw [projectField, projectField]
  cases hid : Fields.get? row "id" with
  | none => exact .bind (.pure _) fun _ => .pure _
  | some id =>
    obtain ⟨text, rfl⟩ := hrow id hid
    exact .read fun g hg => .lift_bind (P := fun _ => True) (h text hg) fun _ _ => .pure _

theorem pointer_coincide {p : Pointer} {nested : List (String × Json)}
    (h : ∀ target, v.follow p row = .found target → Form.Coincide scope
      ((v.eager true).project p.target obscure (path ++ [key]) nested target)
      ((v.eager false).project p.target obscure (path ++ [key]) nested target)) :
    Form.Coincide scope
      ((v.eager true).projectField entity obscure path key out row (.pointer p nested))
      ((v.eager false).projectField entity obscure path key out row (.pointer p nested)) := by
  have hfollow (on : Bool) : (v.eager on).follow p row = v.follow p row := rfl
  unfold projectField
  dsimp only
  rw [hfollow, hfollow]
  cases hf : v.follow p row with
  | found target => exact .bind (h target hf) fun _ => .pure _
  | unset => cases p <;> exact .pure _
  | elsewhere => cases p <;> exact .pure _
  | missing => exact .pure _

end Field

mutual

/-- The same rows are selected, or the same error is raised, in an eager view and in a plain one. -/
theorem select_coincide {scope : List String} (hv : v.Identified) (entity : String) (s : Selection)
    (option : SelectOption) (hs : s.FitsIn v.schema scope entity)
    (hb : option.bindings.Within scope) : Coincide (fun _ => True)
      ((v.eager true).select entity s option) ((v.eager false).select entity s option) := by
  rw [select, select]
  refine (matching_eager hs hb).bind fun matched hmatched => ?_
  refine (form_coincide hv entity matched s option hs hb fun row hrow =>
    hv.scan (hmatched row hrow)).bind fun rows _ => ?_
  have hfinish := (v.finishSelect_determined entity matched.length rows.length).coincide
  exact hfinish.bind fun _ _ => coincide_pure trivial
termination_by (Json.nestingFields s.data, 2, 0)

theorem form_coincide {scope : List String} (hv : v.Identified) (entity : String)
    (rows : List Row) (s : Selection) (option : SelectOption) (hs : s.FitsIn v.schema scope entity)
    (hb : option.bindings.Within scope) (hrows : ∀ row ∈ rows, Row.Identified row) :
    Coincide (fun _ => True) ((v.eager true).form entity rows s option)
      ((v.eager false).form entity rows s option) := by
  rw [form, form]
  refine (Query.ofExcept_coincide _).bind fun plan _ => ?_
  refine Coincide.bind (.mapM (Q := fun _ => True) fun row hrow => ?_) fun projected _ => ?_
  · obtain ⟨inner, hsub, hdata⟩ := fitsIn_hoist hs
    have hproject := project_coincide hv entity option.obscure [] (v.hoist entity s).2 row
      hdata (hrows row hrow) { bindings := option.bindings } (hb.mono hsub)
    exact hproject.bind fun r _ => (Query.ofExcept_determined _).coincide
  · cases plan with
    | none => exact coincide_pure trivial
    | some plan =>
      dsimp only
      rw [SortPlan.sort_eager, SortPlan.sort_eager]
      exact coincide_pure trivial
termination_by (Json.nestingFields s.data, 1, 0)
decreasing_by
  have := nestingFields_hoist_le v entity s
  simp only [Prod.lex_def]
  omega

theorem project_coincide {scope : List String} (hv : v.Identified) (entity : String)
    (obscure : Bool) (path : List String) (projection : List (String × Json)) (row : Row)
    (hs : Projected.FitsIn v.schema scope entity projection) (hrow : Row.Identified row) :
    Form.Coincide scope ((v.eager true).project entity obscure path projection row)
      ((v.eager false).project entity obscure path projection row) := by
  have hfields := projectFields_coincide hv entity obscure path projection [] row hs hrow
  rw [project, project]
  refine .lift_bind (Query.ofExcept_coincide _) fun label hlabel => ?_
  cases label with
  | none => exact hfields
  | some label => exact .bind (.label (hs.label (Filter.mem_of_label? hlabel)) row) fun _ => hfields
termination_by (Json.nestingFields projection, 0, sizeOf projection + 1)

theorem projectFields_coincide {scope : List String} (hv : v.Identified) (entity : String)
    (obscure : Bool) (path : List String) (projection : List (String × Json)) (out row : Row)
    (hs : Projected.FitsIn v.schema scope entity projection) (hrow : Row.Identified row) :
    Form.Coincide scope ((v.eager true).projectFields entity obscure path projection out row)
      ((v.eager false).projectFields entity obscure path projection out row) := by
  match projection with
  | [] =>
    rw [projectFields, projectFields]
    exact .pure out
  | (key, spec) :: rest =>
    have hrest (out : Row) :
        Form.Coincide scope ((v.eager true).projectFields entity obscure path rest out row)
          ((v.eager false).projectFields entity obscure path rest out row) :=
      projectFields_coincide hv entity obscure path rest out row hs.tail hrow
    by_cases hk : key = "#id"
    · subst hk
      rw [projectFields_label, projectFields_label]
      exact hrest out
    rw [projectFields_cons _ hk, projectFields_cons _ hk]
    refine .lift_bind (Query.ofExcept_coincide _) fun kind hfield => .bind ?_ hrest
    have hfield : Projected.ofField v.schema entity key spec = .ok kind := hfield
    cases kind with
    | expr e => exact expr_coincide e
    | column => exact .pure _
    | children target back selection =>
      have hchildren := hs.children List.mem_cons_self hfield
      refine children_coincide hrow fun text option hoption => ?_
      have hselection := Projected.fitsIn_selectionOf hchildren entity text back
      exact select_coincide hv target _ option hselection hoption
    | pointer p nested =>
      have hpointer := hs.pointer List.mem_cons_self hfield
      refine pointer_coincide fun target hf => ?_
      have htarget := hv.follow hf
      exact project_coincide hv p.target obscure (path ++ [key]) nested target hpointer htarget
termination_by (Json.nestingFields projection, 0, sizeOf projection)
decreasing_by
  · exact descends_tail ..
  · have hle := Projected.nestingFields_le_of_pointer rest hfield
    cases Projected.eq_obj_of_pointer hfield
    exact descends hle (by
      simp only [List.cons.sizeOf_spec, Prod.mk.sizeOf_spec, Json.obj.sizeOf_spec]; omega)
  · have hlt := Projected.nestingFields_lt_of_children rest hfield
    exact .left _ _ hlt

end

end View

end EntityStore
