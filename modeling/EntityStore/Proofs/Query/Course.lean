import Mathlib.Logic.Relation
import EntityStore.Proofs.Query.EagerSelect

/-! The course of a select. A selection is answered row by row, a row is projected key by key, and a
key may ask for the row that a pointer leads to or for another selection. The moments of a select
are related by what each of them leads to (`View.Leads`), and a select succeeds only if all the
moments in its course do (`View.Succeeds.of_reaches`). -/

namespace EntityStore

/-! ## Results -/

/-- The result of a query that does not depend on the work done before it. -/
def Query.result {α : Type} (q : Query α) : Except QueryError α := (exec q {}).1

namespace Query

variable {α β : Type}

@[simp] theorem result_pure (a : α) : result (pure a) = .ok a := rfl

@[simp] theorem result_ofExcept (r : Except QueryError α) : result (ofExcept r) = r := rfl

theorem result_bind (q : Query α) {f : α → Query β} (hf : ∀ a, Determined (f a)) :
    result (q >>= f) = q.result.bind fun a => result (f a) := by
  unfold result
  rw [exec_bind]
  rcases exec q {} with ⟨_ | a, w⟩
  · rfl
  · exact hf a w {}

theorem result_ofExcept_bind (r : Except QueryError α) (f : α → Query β) :
    result (ofExcept r >>= f) = r.bind fun a => result (f a) := by
  cases r <;> rfl

theorem result_map (f : α → β) (q : Query α) : result (f <$> q) = q.result.map f := by
  unfold result
  rw [exec_map]

theorem result_mapM {f : α → Query β} {xs : List α} (h : ∀ x ∈ xs, Determined (f x)) :
    result (xs.mapM f) = xs.mapM fun x => result (f x) := by
  induction xs with
  | nil => rfl
  | cons x xs ih =>
    obtain ⟨-, hxs⟩ := List.forall_mem_cons.mp h
    have hdet := Determined.mapM hxs
    rw [List.mapM_cons, result_bind _ fun y => hdet.bind fun ys => determined_pure (y :: ys),
      mapM_cons, ← ih hxs]
    refine congrArg _ (funext fun y => ?_)
    rw [bind_pure_comp, result_map]

end Query

theorem Form.result_ofExcept_bind {α β : Type} (r : Except QueryError α) (f : α → Form β)
    (g : Forming) : Query.result (((liftM (Query.ofExcept r) : Form α) >>= f).run g) =
      r.bind fun a => Query.result ((f a).run g) := by
  cases r <;> rfl

theorem Form.result_bind {α β : Type} (x : Form α) {f : α → Form β}
    (hf : ∀ a g, Determined ((f a).run g)) (g : Forming) : Query.result ((x >>= f).run g) =
      (x.run g).result.bind fun r => Query.result ((f r.1).run r.2) := by
  rw [StateT.run_bind]
  exact Query.result_bind _ fun r => hf r.1 r.2

theorem Form.result_map {α β : Type} (f : α → β) (x : Form α) (g : Forming) :
    Query.result ((f <$> x).run g) = (x.run g).result.map fun r => (f r.1, r.2) := by
  rw [StateT.run_map]
  exact Query.result_map _ _

theorem Form.result_lift {α : Type} (q : Query α) (g : Forming) :
    Query.result ((liftM q : Form α).run g) = q.result.map fun a => (a, g) :=
  Query.result_map (fun a => (a, g)) q

/-- What is known of a row once its label is bound, if the projection has one. -/
def Forming.labelled (g : Forming) (label : Option String) (row : Row) :
    Except QueryError Forming :=
  match label with
  | none => .ok g
  | some label => (g.bindings.bind label row).map fun bindings => { g with bindings }

namespace View

variable (v : View) (entity : String) (s : Selection) (option : SelectOption)

theorem result_matching_eq : (v.matching entity s option).result =
    (QueryError.ofSchema (v.schema.entity entity)).bind fun _ =>
      match s.filter with
      | none => .ok (v.scan entity)
      | some document => (Filter.compile v.schema entity option.obscure [] document).bind
          fun filter => (Query.matching v filter option.bindings (v.scan entity)).result := by
  rw [matching, Query.result_ofExcept_bind]
  refine congrArg _ (funext fun _ => ?_)
  cases s.filter with
  | none => rfl
  | some document =>
    dsimp only
    rw [Query.result_ofExcept_bind]
    refine congrArg _ (funext fun filter => ?_)
    have hcount (matched : List Row) : Determined (do
        Query.count fun m => { m with scanned := m.scanned + (v.scan entity).length }
        return matched) := (determined_modify _).bind fun _ => determined_pure matched
    rw [Query.result_bind _ hcount]
    exact bind_ok _

theorem result_form (rows : List Row) : (v.form entity rows s option).result =
    (v.hoist entity s).1.bind fun plan =>
      (rows.mapM fun row =>
        ((v.project entity option.obscure [] (v.hoist entity s).2 row).run
          { bindings := option.bindings }).result.bind fun r => settle r.2 r.1).map fun projected =>
        s.page (plan.elim projected fun plan => plan.sort v rows projected) := by
  rw [form, Query.result_ofExcept_bind]
  refine congrArg _ (funext fun plan => ?_)
  have hrow (row : Row) := Query.result_bind
    ((project v entity option.obscure [] (v.hoist entity s).2 row).run
      { bindings := option.bindings }) fun r => Query.ofExcept_determined (settle r.2 r.1)
  rw [bind_pure_comp, Query.result_map, Query.result_mapM fun row _ =>
    (v.project_determined entity option.obscure [] _ row _).bind fun r =>
      Query.ofExcept_determined (settle r.2 r.1)]
  simp only [hrow, Query.result_ofExcept]
  cases plan <;> rfl

theorem result_select : (v.select entity s option).result =
    (v.matching entity s option).result.bind fun matched =>
      (v.form entity matched s option).result := by
  have hfinish (matched : Nat) (rows : List Row) :
      Query.result (do v.finishSelect entity matched rows.length; return rows) = .ok rows := by
    unfold finishSelect
    split <;> rfl
  have hdet (matched : Nat) (rows : List Row) :
      Determined (do v.finishSelect entity matched rows.length; return rows) :=
    (v.finishSelect_determined entity matched rows.length).bind fun _ => determined_pure rows
  rw [select, Query.result_bind _ fun matched =>
    (v.form_determined entity matched s option).bind fun rows => hdet matched.length rows]
  refine congrArg _ (funext fun matched => ?_)
  rw [Query.result_bind _ (hdet matched.length)]
  simp only [hfinish]
  exact bind_ok _

theorem result_project (obscure : Bool) (path : List String) (projection : Fields Json) (row : Row)
    (g : Forming) : ((v.project entity obscure path projection row).run g).result =
      (Filter.label? projection).bind fun label => (g.labelled label row).bind fun g' =>
        ((v.projectFields entity obscure path projection [] row).run g').result := by
  rw [project, Form.result_ofExcept_bind]
  refine congrArg _ (funext fun label => ?_)
  cases label with
  | none => rfl
  | some label =>
    let fields := v.projectFields entity obscure path projection [] row
    have hrun : (Form.bind label row >>= fun _ => fields).run g =
        (Query.ofExcept (g.bindings.bind label row) >>= fun bindings =>
          fields.run { g with bindings }) := by simp [Form.bind]
    change Query.result ((Form.bind label row >>= fun _ => fields).run g) = _
    rw [hrun, Query.result_ofExcept_bind, Forming.labelled]
    cases g.bindings.bind label row <;> rfl

theorem result_projectFields {key : String} (hk : key ≠ "#id") (obscure : Bool)
    (path : List String) (spec : Json) (rest : Fields Json) (out row : Row) (g : Forming) :
    ((v.projectFields entity obscure path ((key, spec) :: rest) out row).run g).result =
      (Projected.ofField v.schema entity key spec).bind fun kind =>
        ((v.projectField entity obscure path key out row kind).run g).result.bind fun r =>
          ((v.projectFields entity obscure path rest r.1 row).run r.2).result := by
  rw [projectFields_cons v hk, Form.result_ofExcept_bind]
  refine congrArg _ (funext fun kind => Form.result_bind _ (fun out g => ?_) g)
  exact v.projectFields_determined entity obscure path rest out row g

section Field

variable {v} {entity} {obscure : Bool} {path : List String} {key target : String} {out row : Row}
  {back : Option String} {selection : Selection} {p : Pointer} {nested : Fields Json} {g : Forming}

theorem result_children {id : Json} (hid : Fields.get? row "id" = some id) :
    ((v.projectField entity obscure path key out row
        (.children target back selection)).run g).result =
      (v.select target (Projected.selectionOf entity id back selection)
        { obscure, bindings := g.bindings }).result.map fun children =>
          (Fields.insert out key (.arr (children.map .obj)), g) := by
  rw [projectField, hid]
  have hrun (q : Query (List Row)) : Query.result ((do
      let children ← (liftM q : Form (List Row))
      return Fields.insert out key (.arr (children.map .obj)) : Form Row).run g) =
        q.result.map fun children => (Fields.insert out key (.arr (children.map .obj)), g) := by
    rw [bind_pure_comp, Form.result_map, Form.result_lift]
    cases q.result <;> rfl
  exact hrun _

theorem result_pointer {found : Row} (hf : v.follow p row = .found found) :
    ((v.projectField entity obscure path key out row (.pointer p nested)).run g).result =
      ((v.project p.target obscure (path ++ [key]) nested found).run g).result.map fun r =>
        (Fields.insert (Projected.copyColumns (Projected.pointerColumns p) row out) key (.obj r.1),
          r.2) := by
  unfold projectField
  dsimp only
  rw [hf]
  dsimp only
  rw [bind_pure_comp, Form.result_map]

/-- A key fails only if the select of the rows that point back fails, or the projection of the row
that a pointer leads to. -/
theorem exists_of_projectField {kind : Projected} {e : QueryError}
    (h : ((v.projectField entity obscure path key out row kind).run g).result = .error e) :
    (∃ target back selection id, kind = .children target back selection ∧
      Fields.get? row "id" = some id ∧
        (v.select target (Projected.selectionOf entity id back selection)
          { obscure, bindings := g.bindings }).result = .error e) ∨
    ∃ p nested found, kind = .pointer p nested ∧ v.follow p row = .found found ∧
      ((v.project p.target obscure (path ++ [key]) nested found).run g).result = .error e := by
  cases kind with
  | expr expression =>
    cases he : expression.evaluate (some row) g.bindings <;>
      simp [projectField, he, Form.defer] at h
  | column => cases h
  | children target back selection =>
    left
    cases hid : Fields.get? row "id" with
    | none =>
      rw [projectField, hid] at h
      cases h
    | some id =>
      rw [result_children hid] at h
      exact ⟨target, back, selection, id, rfl, rfl, map_eq_error.mp h⟩
  | pointer p nested =>
    right
    cases hf : v.follow p row with
    | found found =>
      rw [result_pointer hf] at h
      exact ⟨p, nested, found, rfl, hf, map_eq_error.mp h⟩
    | unset | elsewhere =>
      unfold projectField at h
      dsimp only at h
      rw [hf] at h
      cases p <;> cases h
    | missing =>
      unfold projectField at h
      dsimp only at h
      rw [hf] at h
      cases h

end Field

end View

/-! ## Moments -/

/-- A moment in the course of a select. -/
inductive Moment where
  /-- A selection is to be answered. -/
  | select (entity : String) (s : Selection) (bindings : Bindings)
  /-- A row is to be projected. -/
  | project (entity : String) (path : List String) (projection : Fields Json) (row : Row)
    (forming : Forming)
  /-- The keys of a projection that are left; `out` is formed of those before them. -/
  | fields (entity : String) (path : List String) (left : Fields Json) (out row : Row)
    (forming : Forming)

namespace View

/-- What a moment leads to: the rows that match, each in the projection with the hoisted sort keys,
the keys of a projection one after the other, and whatever a key asks for. -/
inductive Leads (v : View) (obscure : Bool) : Moment → Moment → Prop where
  | row {entity : String} {s : Selection} {bindings : Bindings} {matched : List Row}
    {plan : Option SortPlan} {row : Row}
    (hmatched : (v.matching entity s { obscure, bindings }).result = .ok matched)
    (hplan : (v.hoist entity s).1 = .ok plan) (hrow : row ∈ matched) :
    Leads v obscure (.select entity s bindings)
      (.project entity [] (v.hoist entity s).2 row { bindings })
  | label {entity : String} {path : List String} {projection : Fields Json} {row : Row}
    {g g' : Forming} {label : Option String} (hlabel : Filter.label? projection = .ok label)
    (hbound : g.labelled label row = .ok g') :
    Leads v obscure (.project entity path projection row g)
      (.fields entity path projection [] row g')
  | skip {entity : String} {path : List String} {spec : Json} {rest : Fields Json} {out row : Row}
    {g : Forming} :
    Leads v obscure (.fields entity path (("#id", spec) :: rest) out row g)
      (.fields entity path rest out row g)
  | next {entity key : String} {path : List String} {spec : Json} {rest : Fields Json}
    {kind : Projected} {out out' row : Row} {g g' : Forming} (hkey : key ≠ "#id")
    (hfield : Projected.ofField v.schema entity key spec = .ok kind)
    (hdone : ((v.projectField entity obscure path key out row kind).run g).result =
      .ok (out', g')) :
    Leads v obscure (.fields entity path ((key, spec) :: rest) out row g)
      (.fields entity path rest out' row g')
  | pointer {entity key : String} {path : List String} {spec : Json} {rest nested : Fields Json}
    {p : Pointer} {out row found : Row} {g : Forming} (hkey : key ≠ "#id")
    (hfield : Projected.ofField v.schema entity key spec = .ok (.pointer p nested))
    (hfollow : v.follow p row = .found found) :
    Leads v obscure (.fields entity path ((key, spec) :: rest) out row g)
      (.project p.target (path ++ [key]) nested found g)
  | children {entity key target : String} {path : List String} {spec id : Json}
    {rest : Fields Json} {back : Option String} {selection : Selection} {out row : Row}
    {g : Forming} (hkey : key ≠ "#id")
    (hfield : Projected.ofField v.schema entity key spec = .ok (.children target back selection))
    (hid : Fields.get? row "id" = some id) :
    Leads v obscure (.fields entity path ((key, spec) :: rest) out row g)
      (.select target (Projected.selectionOf entity id back selection) g.bindings)

/-- What is to be done at the moment can be done. -/
def Succeeds (v : View) (obscure : Bool) : Moment → Prop
  | .select entity s bindings =>
    ∃ rows, (v.select entity s { obscure, bindings }).result = .ok rows
  | .project entity path projection row g =>
    ∃ r, ((v.project entity obscure path projection row).run g).result = .ok r
  | .fields entity path left out row g =>
    ∃ r, ((v.projectFields entity obscure path left out row).run g).result = .ok r

variable {v : View} {obscure : Bool} {m m' : Moment}

theorem Succeeds.fields_cons {entity key : String} {path : List String} {spec : Json}
    {rest : Fields Json} {out row : Row} {g : Forming} (hkey : key ≠ "#id")
    (h : v.Succeeds obscure (.fields entity path ((key, spec) :: rest) out row g)) :
    ∃ kind r, Projected.ofField v.schema entity key spec = .ok kind ∧
      ((v.projectField entity obscure path key out row kind).run g).result = .ok r ∧
        v.Succeeds obscure (.fields entity path rest r.1 row r.2) := by
  obtain ⟨r, hr⟩ := h
  rw [v.result_projectFields entity hkey] at hr
  obtain ⟨kind, hkind, hr⟩ := bind_eq_ok.mp hr
  obtain ⟨done, hdone, hr⟩ := bind_eq_ok.mp hr
  exact ⟨kind, done, hkind, hdone, r, hr⟩

/-- A moment that succeeds leads to moments that succeed. -/
theorem Succeeds.of_leads (hm : v.Succeeds obscure m) (h : v.Leads obscure m m') :
    v.Succeeds obscure m' := by
  cases h with
  | @row entity s bindings matched plan row hmatched hplan hrow =>
    obtain ⟨rows, hrows⟩ := hm
    rw [result_select] at hrows
    obtain ⟨matched', hmatched', hrows⟩ := bind_eq_ok.mp hrows
    cases hmatched.symm.trans hmatched'
    rw [result_form] at hrows
    obtain ⟨plan', -, hrows⟩ := bind_eq_ok.mp hrows
    obtain ⟨projected, hprojected, -⟩ := map_eq_ok.mp hrows
    obtain ⟨out, hout⟩ := ok_of_mapM hprojected row hrow
    obtain ⟨r, hr, -⟩ := bind_eq_ok.mp hout
    exact ⟨r, hr⟩
  | label hlabel hbound =>
    obtain ⟨r, hr⟩ := hm
    rw [result_project] at hr
    obtain ⟨label', hlabel', hr⟩ := bind_eq_ok.mp hr
    cases hlabel.symm.trans hlabel'
    obtain ⟨g', hbound', hr⟩ := bind_eq_ok.mp hr
    cases hbound.symm.trans hbound'
    exact ⟨r, hr⟩
  | skip =>
    obtain ⟨r, hr⟩ := hm
    rw [projectFields_label] at hr
    exact ⟨r, hr⟩
  | next hkey hfield hdone =>
    obtain ⟨kind, r, hkind, hr, hrest⟩ := hm.fields_cons hkey
    cases hfield.symm.trans hkind
    cases hdone.symm.trans hr
    exact hrest
  | pointer hkey hfield hfollow =>
    obtain ⟨kind, r, hkind, hr, -⟩ := hm.fields_cons hkey
    cases hfield.symm.trans hkind
    rw [result_pointer hfollow] at hr
    obtain ⟨projected, hprojected, -⟩ := map_eq_ok.mp hr
    exact ⟨projected, hprojected⟩
  | children hkey hfield hid =>
    obtain ⟨kind, r, hkind, hr, -⟩ := hm.fields_cons hkey
    cases hfield.symm.trans hkind
    rw [result_children hid] at hr
    obtain ⟨rows, hrows, -⟩ := map_eq_ok.mp hr
    exact ⟨rows, hrows⟩

/-- In the course of a select that succeeds everything does. -/
theorem Succeeds.of_reaches (hm : v.Succeeds obscure m)
    (h : Relation.ReflTransGen (v.Leads obscure) m m') : v.Succeeds obscure m' := by
  induction h with
  | refl => exact hm
  | tail _ hlast ih => exact ih.of_leads hlast

end View

/-! ## Ids -/

/-- The row has a text as its id. -/
def Row.Named (row : Row) : Prop := ∃ text, Fields.get? row "id" = some (.str text)

/-- Every visible row has a text as its id. -/
def View.Named (v : View) : Prop :=
  ∀ (key : RowKey) row, v.rows[key]? = some row → Row.Named row

/-- The row at hand, if there is one, has a text as its id. -/
def Moment.Named : Moment → Prop
  | .select .. => True
  | .project _ _ _ row _ | .fields _ _ _ _ row _ => row.Named

namespace View

variable {v : View} {obscure : Bool} {m m' : Moment}

theorem Named.follow (hv : v.Named) {p : Pointer} {row found : Row}
    (h : v.follow p row = .found found) : found.Named := by
  obtain ⟨key, hkey⟩ := exists_of_follow h
  exact hv key found hkey

theorem Named.of_leads (hv : v.Named) (h : v.Leads obscure m m') (hm : m.Named) : m'.Named := by
  cases h with
  | row hmatched _ hrow =>
    obtain ⟨-, hsub⟩ := matching_eq_ok (Prod.ext hmatched rfl)
    obtain ⟨key, hkey⟩ := exists_of_mem_scan (hsub.mem hrow)
    exact hv key _ hkey
  | pointer _ _ hfollow => exact hv.follow hfollow
  | label | skip | next => exact hm
  | children => trivial

theorem Named.of_reaches (hv : v.Named) (h : Relation.ReflTransGen (v.Leads obscure) m m')
    (hm : m.Named) : m'.Named := by
  induction h with
  | refl => exact hm
  | tail _ hlast ih => exact hv.of_leads hlast ih

end View

end EntityStore
