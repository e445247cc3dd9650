import EntityStore.Proofs.Query.Formed
import EntityStore.Proofs.Query.Sorting

/-! The end of a row. The expressions that waited are evaluated with the labels of all levels, and
their values are written to the ends of their paths. No write goes astray or meets another one, so a
row that is formed has the value of every expression in its place, whether the labels were bound
before it or after (`View.form_expressions`). -/

namespace EntityStore

namespace Projected

variable {name other : String} {value : Json} {path place : List String} {row : Row}

/-! ## Writing to the end of a path -/

theorem writeAt_cons (name : String) (value : Json) (step : String) (place : List String)
    (row : Row) : writeAt name value (step :: place) row = row ∨
      ∃ inner, Fields.get? row step = some (.obj inner) ∧
        writeAt name value (step :: place) row =
          Fields.insert row step (.obj (writeAt name value place inner)) := by
  rw [writeAt]
  split
  · rename_i inner h
    exact .inr ⟨inner, h, rfl⟩
  · exact .inl rfl

theorem objectAt?_of_get? {step : String} {inner : Row}
    (h : Fields.get? row step = some (.obj inner))
    (path : List String) : objectAt? (step :: path) row = objectAt? path inner := by
  rw [objectAt?, h]
  rfl

/-- The objects stay where they are. -/
theorem isSome_objectAt?_writeAt (hname : name ∉ path) (place : List String) (row : Row) :
    (objectAt? path (writeAt name value place row)).isSome = (objectAt? path row).isSome := by
  induction place generalizing path row with
  | nil =>
    cases path with
    | nil => rfl
    | cons step path =>
      have hne : step ≠ name := fun he => hname (he ▸ List.mem_cons_self)
      rw [writeAt, objectAt?_cons_congr ((Fields.get?_insert ..).trans (if_neg hne))]
  | cons first place ih =>
    rcases writeAt_cons name value first place row with h | ⟨inner, hinner, h⟩
    · rw [h]
    rw [h]
    cases path with
    | nil => rfl
    | cons step path =>
      by_cases hstep : step = first
      · subst hstep
        rw [objectAt?_insert, objectAt?_of_get? hinner]
        exact ih (fun hmem => hname (List.mem_cons_of_mem _ hmem)) inner
      · rw [objectAt?_cons_congr ((Fields.get?_insert ..).trans (if_neg hstep))]

theorem exists_of_isSome_objectAt? {step : String} (h : (objectAt? (step :: path) row).isSome) :
    ∃ inner, Fields.get? row step = some (.obj inner) ∧ (objectAt? path inner).isSome := by
  obtain ⟨found, h⟩ := Option.isSome_iff_exists.mp h
  obtain ⟨inner, hinner, hfound⟩ := Option.bind_eq_some_iff.mp h
  obtain ⟨j, hj, hobj⟩ := Option.bind_eq_some_iff.mp hinner
  cases j <;> cases hobj
  exact ⟨inner, hj, Option.isSome_of_eq_some hfound⟩

theorem valueAt?_writeAt (h : (objectAt? path row).isSome) :
    valueAt? path name (writeAt name value path row) = some value := by
  induction path generalizing row with
  | nil => exact (Fields.get?_insert ..).trans (if_pos rfl)
  | cons step path ih =>
    obtain ⟨inner, hinner, h⟩ := exists_of_isSome_objectAt? h
    rw [writeAt, hinner, valueAt?, objectAt?_insert]
    exact ih h

/-- The values at other places stay as they are. -/
theorem valueAt?_writeAt_of_ne (hname : name ∉ path) (hother : other ∉ place)
    (hne : ¬ (path = place ∧ other = name)) :
    valueAt? path other (writeAt name value place row) = valueAt? path other row := by
  induction place generalizing path row with
  | nil =>
    cases path with
    | nil => exact (Fields.get?_insert ..).trans (if_neg fun he => hne ⟨rfl, he⟩)
    | cons step path =>
      have hne : step ≠ name := fun he => hname (he ▸ List.mem_cons_self)
      rw [writeAt, valueAt?, valueAt?,
        objectAt?_cons_congr ((Fields.get?_insert ..).trans (if_neg hne))]
  | cons first place ih =>
    rcases writeAt_cons name value first place row with h | ⟨inner, hinner, h⟩
    · rw [h]
    rw [h]
    cases path with
    | nil =>
      have hne : other ≠ first := fun he => hother (he ▸ List.mem_cons_self)
      exact (Fields.get?_insert ..).trans (if_neg hne)
    | cons step path =>
      by_cases hstep : step = first
      · subst hstep
        rw [valueAt?, valueAt?, objectAt?_insert, objectAt?_of_get? hinner]
        refine ih (fun hmem => hname (List.mem_cons_of_mem _ hmem))
          (fun hmem => hother (List.mem_cons_of_mem _ hmem)) fun he => hne ?_
        exact ⟨by rw [he.1], he.2⟩
      · rw [valueAt?, valueAt?, objectAt?_cons_congr ((Fields.get?_insert ..).trans (if_neg hstep))]

end Projected

namespace View

open Projected (objectAt? valueAt?)

/-! ## Writing all values -/

section Settle

variable {bindings : Bindings} {pending : List PendingField} {out formed : Row}

theorem settle_cons (bindings : Bindings) (field : PendingField) (pending : List PendingField)
    (out : Row) : settle ⟨bindings, field :: pending⟩ out =
      (field.expr.resolve bindings).bind fun value =>
        settle ⟨bindings, pending⟩ (Projected.writeAt field.name value field.path out) := by
  rw [settle, List.foldlM_cons]
  cases field.expr.resolve bindings <;> rfl

theorem resolve_of_settle (h : settle ⟨bindings, pending⟩ out = .ok formed) :
    ∀ field ∈ pending, ∃ value, field.expr.resolve bindings = .ok value := by
  induction pending generalizing out with
  | nil => exact nofun
  | cons field pending ih =>
    rw [settle_cons] at h
    obtain ⟨value, hvalue, h⟩ := bind_eq_ok.mp h
    exact List.forall_mem_cons.mpr ⟨⟨value, hvalue⟩, ih h⟩

theorem exists_of_settle_eq_error {error : QueryError}
    (h : settle ⟨bindings, pending⟩ out = .error error) :
    ∃ field ∈ pending, field.expr.resolve bindings = .error error := by
  induction pending generalizing out with
  | nil => cases h
  | cons field pending ih =>
    rw [settle_cons] at h
    rcases bind_eq_error.mp h with h | ⟨value, -, h⟩
    · exact ⟨field, List.mem_cons_self, h⟩
    · obtain ⟨field, hmem, h⟩ := ih h
      exact ⟨field, List.mem_cons_of_mem _ hmem, h⟩

/-- Every place that is to have a value has it in the end, if it has it at first or waits for it,
and if no place lies below another one or is to have two values. -/
theorem valueAt?_of_settle (wanted : List String → String → Json → Prop)
    (hunique : ∀ {path name value value'}, wanted path name value → wanted path name value' →
      value = value')
    (happart : ∀ {path name value path' name' value'}, wanted path name value →
      wanted path' name' value' → name ∉ path')
    (hpending : ∀ field ∈ pending, ∀ value, field.expr.resolve bindings = .ok value →
      wanted field.path field.name value)
    (h : settle ⟨bindings, pending⟩ out = .ok formed)
    (hout : ∀ {path name value}, wanted path name value → (objectAt? path out).isSome ∧
      (valueAt? path name out = some value ∨
        ∃ field ∈ pending, field.path = path ∧ field.name = name))
    {path : List String} {name : String} {value : Json} (hwanted : wanted path name value) :
    valueAt? path name formed = some value := by
  induction pending generalizing out with
  | nil =>
    cases h
    exact (hout hwanted).2.elim id fun ⟨_, hmem, _⟩ => absurd hmem List.not_mem_nil
  | cons field pending ih =>
    rw [settle_cons] at h
    obtain ⟨written, hwritten, h⟩ := bind_eq_ok.mp h
    obtain ⟨hfield, hpending⟩ := List.forall_mem_cons.mp hpending
    have hfield := hfield written hwritten
    refine ih hpending h fun {path name value} hwanted => ?_
    obtain ⟨hobject, hvalue⟩ := hout hwanted
    refine ⟨(Projected.isSome_objectAt?_writeAt (happart hfield hwanted) _ _).trans hobject, ?_⟩
    by_cases hplace : path = field.path ∧ name = field.name
    · obtain ⟨rfl, rfl⟩ := hplace
      cases hunique hwanted hfield
      exact .inl (Projected.valueAt?_writeAt hobject)
    · rw [Projected.valueAt?_writeAt_of_ne (happart hfield hwanted) (happart hwanted hfield) hplace]
      refine hvalue.imp_right fun ⟨other, hmem, hpath, hname⟩ => ?_
      rcases List.mem_cons.mp hmem with rfl | hmem
      · exact absurd ⟨hpath.symm, hname.symm⟩ hplace
      · exact ⟨other, hmem, hpath, hname⟩

theorem get?_of_settle {name : String} (h : settle ⟨bindings, pending⟩ out = .ok formed)
    (hpending : ∀ field ∈ pending, field.path.head? ≠ some name ∧
      (field.path = [] → field.name ≠ name)) : Fields.get? formed name = Fields.get? out name := by
  induction pending generalizing out with
  | nil =>
    cases h
    rfl
  | cons field pending ih =>
    rw [settle_cons] at h
    obtain ⟨value, -, h⟩ := bind_eq_ok.mp h
    obtain ⟨⟨hhead, hfield⟩, hpending⟩ := List.forall_mem_cons.mp hpending
    rw [ih h hpending]
    cases hpath : field.path with
    | nil => exact (Fields.get?_insert ..).trans (if_neg (hfield hpath).symm)
    | cons step path =>
      rw [hpath] at hhead
      have hne : name ≠ step := fun he => hhead (congrArg some he.symm)
      rcases Projected.writeAt_cons field.name value step path out with h | ⟨inner, -, h⟩
      · rw [h]
      · rw [h, Fields.get?_insert, if_neg hne]

end Settle

/-! ## Rows that are formed -/

/-- The row that is formed of a row: its projection, with the values that waited. -/
def formRow (v : View) (entity : String) (obscure : Bool) (projection : Fields Json)
    (seed : Bindings) (row : Row) : Except QueryError Row :=
  ((v.project entity obscure [] projection row).run { bindings := seed }).result.bind fun r =>
    settle r.2 r.1

/-- The final labels of a row: those of the seed, and those of the levels. -/
def Completes (v : View) (l : Level) (seed final : Bindings) : Prop :=
  ∀ label row, final.get? label = some row ↔ seed.get? label = some row ∨ v.Binds l label row

/-- An expression of the level, or of a level below, reads a label that is never bound. -/
def Misses (v : View) (l : Level) (seed : Bindings) (label : String) : Prop :=
  (∃ path name spec row e, v.Asks l path name spec row ∧ Expression.parse spec = .ok e ∧
    label ∈ e.labels) ∧ seed.get? label = none ∧ ∀ row, ¬ v.Binds l label row

section Row

variable {v : View} {entity : String} {obscure : Bool} {projection : Fields Json}
  {seed : Bindings} {row formed : Row} {traversed : Row × Forming}

theorem completes_of_project
    (h : ((v.project entity obscure [] projection row).run { bindings := seed }).result =
      .ok traversed) : v.Completes ⟨entity, projection, row⟩ seed traversed.2.bindings := by
  obtain ⟨label, g, hlabel, hbound, hformed⟩ := project_formed v entity obscure [] _ row _ h
  exact fun _ _ => hformed.get?_of_labelled hlabel hbound

theorem waits_of_project
    (h : ((v.project entity obscure [] projection row).run { bindings := seed }).result =
      .ok traversed) {field : PendingField} (hmem : field ∈ traversed.2.pending) :
    ∃ spec row' e, v.Asks ⟨entity, projection, row⟩ field.path field.name spec row' ∧
      Expression.parse spec = .ok e ∧ field.expr.Awaits row' e traversed.2.bindings := by
  obtain ⟨label, g, -, hbound, hformed⟩ := project_formed v entity obscure [] _ row _ h
  rcases hformed.waits field hmem with hmem | ⟨path, spec, row', e, hask, hpath, h⟩
  · rw [pending_of_labelled hbound] at hmem
    cases hmem
  · exact ⟨spec, row', e, hpath ▸ hask, h⟩

/-- Every expression at the level or below it has its value against the final labels. -/
theorem formRow_asked (hs : v.schema.PointersApart) (hd : (Json.obj projection).distinct = true)
    (h : v.formRow entity obscure projection seed row = .ok formed) :
    ∃ final, v.Completes ⟨entity, projection, row⟩ seed final ∧
      ∀ {path name spec row'}, v.Asks ⟨entity, projection, row⟩ path name spec row' →
        ∃ e value, Expression.parse spec = .ok e ∧ e.evaluate (some row') final = .resolved value ∧
          valueAt? path name formed = some value := by
  obtain ⟨⟨out, ⟨final, pending⟩⟩, ht, h⟩ := bind_eq_ok.mp h
  obtain ⟨label, g, -, -, hformed⟩ := project_formed v entity obscure [] _ row _ ht
  have hresolves := resolve_of_settle h
  let wanted (path : List String) (name : String) (value : Json) : Prop :=
    ∃ spec row' e, v.Asks ⟨entity, projection, row⟩ path name spec row' ∧
      Expression.parse spec = .ok e ∧ e.evaluate (some row') final = .resolved value
  have hunique {path name value value'} (h : wanted path name value)
      (h' : wanted path name value') : value = value' := by
    obtain ⟨spec, row', e, hask, hparse, he⟩ := h
    obtain ⟨spec', row'', e', hask', hparse', he'⟩ := h'
    obtain ⟨rfl, rfl⟩ := hask.unique hask' hd
    cases hparse.symm.trans hparse'
    cases he.symm.trans he'
    rfl
  have happart {path name value path' name' value'} (h : wanted path name value)
      (h' : wanted path' name' value') : name ∉ path' := by
    obtain ⟨-, -, -, ⟨-, -, -, hkey, -⟩, -⟩ := h
    obtain ⟨-, -, -, ⟨l', hnests, -⟩, -⟩ := h'
    exact hnests.not_mem hkey
  have hpending : ∀ field ∈ pending, ∀ value, field.expr.resolve final = .ok value →
      wanted field.path field.name value := by
    intro field hmem value hvalue
    obtain ⟨spec, row', e, hask, hparse, hawaits⟩ := waits_of_project ht hmem
    exact ⟨spec, row', e, hask, hparse, hawaits.evaluate_of_resolve hvalue⟩
  -- An expression that did not wait has its value in place already.
  have hasked {path name spec row'} (hask : v.Asks ⟨entity, projection, row⟩ path name spec row') :
      ∃ e value, Expression.parse spec = .ok e ∧ e.evaluate (some row') final = .resolved value ∧
        (valueAt? path name out = some value ∨
          ∃ field ∈ pending, field.path = path ∧ field.name = name) := by
    obtain ⟨e, hparse, ⟨value, he, hvalue⟩ | ⟨waiting, hawaits, hmem⟩⟩ := hformed.asked hs hd hask
    · exact ⟨e, value, hparse, he, .inl hvalue⟩
    · obtain ⟨value, hvalue⟩ := hresolves _ hmem
      exact ⟨e, value, hparse, hawaits.evaluate_of_resolve hvalue, .inr ⟨_, hmem, rfl, rfl⟩⟩
  refine ⟨final, completes_of_project ht, fun hask => ?_⟩
  obtain ⟨e, value, hparse, he, -⟩ := hasked hask
  refine ⟨e, value, hparse, he, valueAt?_of_settle wanted hunique happart hpending h ?_
    ⟨_, _, e, hask, hparse, he⟩⟩
  rintro path name value ⟨spec, row', e, hask, hparse, he⟩
  obtain ⟨e', value', hparse', he', hvalue⟩ := hasked hask
  cases hparse.symm.trans hparse'
  cases he.symm.trans he'
  exact ⟨hformed.isSome_objectAt? hs hd hask, hvalue⟩

/-- A row that was projected fails only for want of a label that is never bound. -/
theorem misses_of_formRow_eq_error
    (ht : ((v.project entity obscure [] projection row).run { bindings := seed }).result =
      .ok traversed) {error : QueryError}
    (h : v.formRow entity obscure projection seed row = .error error) :
    ∃ label, v.Misses ⟨entity, projection, row⟩ seed label ∧ error = .unresolved label := by
  rw [formRow, ht] at h
  obtain ⟨field, hmem, hresolve⟩ := exists_of_settle_eq_error h
  obtain ⟨spec, row', e, hask, hparse, hawaits⟩ := waits_of_project ht hmem
  obtain ⟨label, hlabel, hnone, rfl⟩ := hawaits.exists_of_resolve hresolve
  have hcompletes := completes_of_project ht
  have hunbound (bound : Row) : ¬ (seed.get? label = some bound ∨
      v.Binds ⟨entity, projection, row⟩ label bound) := fun hbound => by
    cases hnone.symm.trans ((hcompletes label bound).mpr hbound)
  refine ⟨label, ⟨⟨_, _, spec, row', e, hask, hparse, hlabel⟩, ?_, ?_⟩, rfl⟩
  · exact Option.eq_none_iff_forall_ne_some.mpr fun bound h => hunbound bound (.inl h)
  · exact fun bound h => hunbound bound (.inr h)

/-- An expression that reads a label that is never bound has no value. -/
theorem formRow_ne_ok_of_misses (hs : v.schema.PointersApart)
    (hd : (Json.obj projection).distinct = true) {label : String}
    (hmisses : v.Misses ⟨entity, projection, row⟩ seed label) :
    v.formRow entity obscure projection seed row ≠ .ok formed := by
  intro h
  obtain ⟨⟨path, name, spec, row', e, hask, hparse, hlabel⟩, hseed, hbinds⟩ := hmisses
  obtain ⟨final, hcompletes, hasked⟩ := formRow_asked hs hd h
  obtain ⟨e', value, hparse', he, -⟩ := hasked hask
  cases hparse.symm.trans hparse'
  have hbound := Expression.unbound_eq_nil_iff.mp (Expression.evaluate_eq_resolved_iff.mp he).1
  obtain ⟨bound, hget⟩ := Option.isSome_iff_exists.mp (hbound label hlabel)
  rcases (hcompletes label bound).mp hget with h | h
  · cases hseed.symm.trans h
  · exact hbinds bound h

/-- A column has the value of the row. -/
theorem formRow_column (h : v.formRow entity obscure projection seed row = .ok formed)
    {name : String} (hname : name ∈ Fields.names projection) (hid : name ≠ "#id")
    (hplain : Expression.isKey name = false) (hcolumn : v.schema.relation entity name = .ok .column)
    {value : Json} (hvalue : Fields.get? row name = some value) :
    Fields.get? formed name = some value := by
  obtain ⟨⟨out, ⟨final, pending⟩⟩, ht, h⟩ := bind_eq_ok.mp h
  obtain ⟨label, g, -, -, hformed⟩ := project_formed v entity obscure [] _ row _ ht
  refine (get?_of_settle h fun field hmem => ?_).trans
    (hformed.column hname hid hplain hcolumn hvalue)
  obtain ⟨spec, row', e, hask, -⟩ := waits_of_project ht hmem
  cases hpath : field.path with
  | nil =>
    rw [hpath] at hask
    refine ⟨nofun, fun _ he => ?_⟩
    rw [he] at hask
    cases hplain.symm.trans (asks_nil.mp hask).2.1
  | cons step path =>
    rw [hpath] at hask
    obtain ⟨l', hopen, -⟩ := asks_step.mp hask
    obtain ⟨p, hrelation⟩ := hopen.relation
    refine ⟨fun he => ?_, nofun⟩
    cases he
    cases hcolumn.symm.trans hrelation

end Row

/-! ## Results -/

theorem result_form_eq_mapM (v : View) (entity : String) (rows : List Row) (s : Selection)
    (option : SelectOption) : (v.form entity rows s option).result =
      (v.hoist entity s).1.bind fun plan =>
        (rows.mapM (v.formRow entity option.obscure (v.hoist entity s).2 option.bindings)).map
          fun projected =>
            s.page (plan.elim projected fun plan => plan.sort v rows projected) :=
  v.result_form entity s option rows

theorem mem_of_mem_page {s : Selection} {rows : List Row} {row : Row} (h : row ∈ s.page rows) :
    row ∈ rows := by
  unfold Selection.page at h
  split at h
  · exact List.mem_of_mem_drop (List.mem_of_mem_take h)
  · exact h

theorem mem_of_mem_sort {plan : SortPlan} {v : View} {raw projected : List Row} {row : Row}
    (h : row ∈ plan.sort v raw projected) : row ∈ projected := by
  rw [SortPlan.sort_eq_map] at h
  obtain ⟨place, hplace, rfl⟩ := List.mem_map.mp h
  exact (List.of_mem_zip (List.mem_mergeSort.mp hplace)).2

/-- Every row of a result is formed of one of the rows. -/
theorem exists_of_mem_form {v : View} {entity : String} {rows out : List Row} {s : Selection}
    {option : SelectOption} {formed : Row} (h : (v.form entity rows s option).result = .ok out)
    (hmem : formed ∈ out) : ∃ row ∈ rows,
      v.formRow entity option.obscure (v.hoist entity s).2 option.bindings row = .ok formed := by
  rw [result_form_eq_mapM] at h
  obtain ⟨plan, -, h⟩ := bind_eq_ok.mp h
  obtain ⟨projected, hprojected, rfl⟩ := map_eq_ok.mp h
  have hsorted := mem_of_mem_page hmem
  cases plan with
  | none => exact mem_of_mapM_eq_ok hprojected hsorted
  | some plan => exact mem_of_mapM_eq_ok hprojected (mem_of_mem_sort hsorted)

/-- Every row of a result is formed of one of the rows, and has every expression of the projection
in its place, with the value for the row of its level against the final labels. If an expression
reads a label that is never bound, the result is that a label is, as soon as the rows up to this one
can be projected. -/
theorem form_expressions (v : View) (entity : String) (rows : List Row) (s : Selection)
    (option : SelectOption) (hs : v.schema.PointersApart)
    (hdata : (Json.obj s.data).distinct = true)
    (hsorter : ∀ sorter, s.sorter = some sorter → sorter.distinct = true) :
    let projection := (v.hoist entity s).2
    let top (row : Row) : Level := ⟨entity, projection, row⟩
    (∀ out, (v.form entity rows s option).result = .ok out → ∀ formed ∈ out, ∃ row ∈ rows,
      v.formRow entity option.obscure projection option.bindings row = .ok formed ∧
        ∃ final, v.Completes (top row) option.bindings final ∧
          ∀ path name spec row', v.Asks (top row) path name spec row' →
            ∃ e value, Expression.parse spec = .ok e ∧
              e.evaluate (some row') final = .resolved value ∧
                valueAt? path name formed = some value) ∧
    ∀ before row after plan label, rows = before ++ row :: after →
      (v.hoist entity s).1 = .ok plan →
      (∀ r ∈ before ++ [row], ∃ traversed, ((v.project entity option.obscure [] projection r).run
        { bindings := option.bindings }).result = .ok traversed) →
      v.Misses (top row) option.bindings label →
        ∃ r ∈ before ++ [row], ∃ missing, v.Misses (top r) option.bindings missing ∧
          (v.form entity rows s option).result = .error (.unresolved missing) := by
  intro projection top
  have hd : (Json.obj projection).distinct = true := distinct_hoist hdata hsorter
  constructor
  · intro out h formed hmem
    obtain ⟨row, hrow, hformed⟩ := exists_of_mem_form h hmem
    obtain ⟨final, hcompletes, hasked⟩ := formRow_asked hs hd hformed
    exact ⟨row, hrow, hformed, final, hcompletes, fun _ _ _ _ => hasked⟩
  · intro before row after plan label hrows hplan hproject hmisses
    obtain ⟨r, hr, error, herror, hmapM⟩ :=
      mapM_eq_error_of_append after fun formed => formRow_ne_ok_of_misses hs hd hmisses
    obtain ⟨traversed, ht⟩ := hproject r hr
    obtain ⟨missing, hmissing, rfl⟩ := misses_of_formRow_eq_error ht herror
    refine ⟨r, hr, missing, hmissing, ?_⟩
    rw [result_form_eq_mapM, hplan, hrows]
    dsimp only [Except.bind]
    rw [hmapM]
    rfl

/-- A user and their boss. The first projection reads the label of the boss before it is bound, the
second one reads it where it is never bound. -/
theorem form_expressions_boss :
    let user := ({} : Entity).withAttribute "boss" { type := .ref "user" }
    let ann : Row := [("id", .str "u1"), ("bossId", .str "u2")]
    let bob : Row := [("id", .str "u2"), ("name", .str "bob")]
    let v : View := {
      schema := ({} : Schema).withEntity "user" user
      rows := Std.ExtTreeMap.ofList [(⟨"user", "u1"⟩, ann), (⟨"user", "u2"⟩, bob)] RowKey.order }
    let read : Json := .obj [("#refId", .str "b"), ("#refAttr", .str "name")]
    let s : Selection :=
      { data := [("$expr", read), ("boss", .obj [("#id", .str "b"), ("$expr", read)])] }
    let lost : Selection := { data := [("$expr", read)] }
    let formed : Row := [("bossId", .str "u2"), ("boss", .obj [("$expr", .str "bob")]),
      ("$expr", .str "bob")]
    v.schema.PointersApart ∧ (Json.obj s.data).distinct = true ∧
      (v.form "user" [ann] s {}).result = .ok [formed] ∧
      (∃ final, v.Completes ⟨"user", s.data, ann⟩ {} final ∧
        ∃ value, (Expression.ref "b" "name").evaluate (some ann) final = .resolved value ∧
          valueAt? [] "$expr" formed = some value) ∧
      ∃ missing, v.Misses ⟨"user", lost.data, ann⟩ {} missing ∧
        (v.form "user" [ann] lost {}).result = .error (.unresolved missing) := by
  intro user ann bob v read s lost formed
  have hattr {attr : String} {a : Attribute} (h : user.attributes[attr]? = some a) :
      attr = "boss" := by
    rw [Entity.getElem?_withAttribute] at h
    split at h
    · rename_i he
      exact he.symm
    · cases h
  have hs : v.schema.PointersApart := by
    intro entity e he attr target required ha
    rw [Schema.entity_withEntity] at he
    split at he
    · cases he
      cases hattr ha
      refine ⟨fun other target required hother => ?_, fun h => by cases h⟩
      cases hattr hother
      decide
    · cases he
  have hexpr : Projected.ofField v.schema "user" "$expr" read =
      .ok (.expr (.ref "b" "name")) := rfl
  have hboss : Projected.ofField v.schema "user" "boss"
      (.obj [("#id", .str "b"), ("$expr", read)]) =
        .ok (.pointer (.foreignKey "user" "bossId") [("#id", .str "b"), ("$expr", read)]) := rfl
  have hfollow : v.follow (.foreignKey "user" "bossId") ann = .found bob :=
    have hbob : v.row? "user" "u2" = some bob := by decide +kernel
    follow_of_row? (by decide) hbob
  have hrow : v.formRow "user" false s.data {} ann = .ok formed := by
    simp [formRow, result_project, result_projectFields, projectFields_label, Filter.label?, s,
      Fields.get?_cons, Forming.labelled, hexpr, hboss, result_expr, Expression.evaluate,
      Bindings.get?, result_pointer hfollow, Pointer.target, Bindings.bind, Bindings.contains,
      Fields.contains, result_projectFields_nil, Except.bind, Except.map]
    rfl
  have hform : (v.form "user" [ann] s {}).result = .ok [formed] := by
    rw [result_form_eq_mapM, mapM_cons]
    change (((v.formRow "user" false s.data {} ann).bind fun y => _).map _) = _
    rw [hrow]
    rfl
  have hlost : v.Misses ⟨"user", lost.data, ann⟩ {} "b" := by
    have hopens (key : String) (l' : Level) : ¬ v.Opens ⟨"user", lost.data, ann⟩ key l' :=
      not_opens_of_ofField hexpr (by intro p nested h; cases h) _ key l'
    refine ⟨⟨[], "$expr", read, ann, .ref "b" "name", asks_nil.mpr ?_, rfl, .head _⟩, rfl, ?_⟩
    · exact ⟨List.mem_singleton_self _, by decide, rfl⟩
    · intro row h
      rcases binds_iff.mp h with ⟨h, -⟩ | ⟨key, l', h, -⟩
      · cases h
      · exact hopens key l' h
  have hsorter : ∀ sorter : Json, none = some sorter → sorter.distinct = true := by
    intro sorter h
    cases h
  refine ⟨hs, by decide, hform, ?_, ?_⟩
  · obtain ⟨hformed, -⟩ := form_expressions v "user" [ann] s {} hs (by decide) hsorter
    obtain ⟨row, hmem, -, final, hcompletes, hasked⟩ := hformed [formed] hform formed (.head _)
    cases List.mem_singleton.mp hmem
    obtain ⟨e, value, hparse, he, hvalue⟩ := hasked [] "$expr" read ann
      (asks_nil.mpr ⟨.head _, by decide, rfl⟩)
    cases hparse
    exact ⟨final, hcompletes, value, he, hvalue⟩
  · obtain ⟨-, hmissing⟩ := form_expressions v "user" [ann] lost {} hs (by decide) hsorter
    have htraversed : ∀ r ∈ [ann], ∃ traversed, ((v.project "user" false [] lost.data r).run
        { bindings := {} }).result = .ok traversed := by
      intro r hr
      cases List.mem_singleton.mp hr
      simp [result_project, result_projectFields, Filter.label?, lost, Fields.get?_cons,
        Forming.labelled, hexpr, result_expr, Expression.evaluate, Bindings.get?,
        result_projectFields_nil, Except.bind]
    obtain ⟨r, hmem, missing, hmisses, herror⟩ :=
      hmissing [] ann [] none "b" rfl rfl htraversed hlost
    cases List.mem_singleton.mp hmem
    exact ⟨missing, hmisses, herror⟩

end View

end EntityStore
