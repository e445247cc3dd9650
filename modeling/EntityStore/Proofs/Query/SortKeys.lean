import EntityStore.Proofs.Query.Hoisting
import EntityStore.Proofs.Query.Settling
import Mathlib.Data.List.Forall2

/-! What rows are sorted by. The pointers of a sort item are followed twice: in the rows, and by the
projection that its expression was put into. Both come to the same row, or both stop where a pointer
finds none (`View.project_reach`). So the key that is read back from the projected row is the value
of the expression on the row that is reached (`View.form_sortKeys`). -/

namespace EntityStore

open Projected (objectAt? valueAt?)

namespace SortKey

variable {v : View} {path : List String} {name : String}

/-- A key with a slot reads the projected row only. -/
theorem extract_of_slot {key : SortKey} (h : key.slot? = some (path, name))
    (raw projected : Option Row) :
    key.extract v raw projected = (projected.bind (valueAt? path name)).getD .null := by
  induction key generalizing path raw projected with
  | column => cases h
  | hoisted =>
    cases h
    rfl
  | relation attr p inner ih =>
    obtain ⟨⟨path', name'⟩, hinner, he⟩ := Option.map_eq_some_iff.mp h
    cases he
    rw [extract, ih hinner]
    cases projected with
    | none => rfl
    | some row =>
      rw [Option.bind_some, Option.bind_some, valueAt?, objectAt?]
      cases (Fields.get? row attr).bind Json.obj? <;> rfl

/-- The expression of a compiled key is one. -/
theorem parse_of_compile {schema : Schema} {entity : String} {projection : Fields Json}
    {spec source : Json} {key : SortKey}
    (h : (compile schema entity projection spec).1 = .ok key)
    (hsource : expressionOf? schema entity spec = some source) :
    ∃ e, Expression.parse source = .ok e := by
  fun_induction compile schema entity projection spec generalizing key with
  | case2 entity projection attr value hkey e hparse =>
    cases (expressionOf?_expr hkey value).symm.trans hsource
    exact ⟨e, hparse⟩
  | case4 entity projection attr value hkey hrelation =>
    cases (expressionOf?_column hkey (QueryError.of_ofSchema hrelation) value).symm.trans hsource
  | case6 entity projection attr value hkey p hrelation hholds compiled =>
    rename_i ih
    obtain ⟨inner, hinner, -⟩ := map_eq_ok.mp h
    rw [expressionOf?_pointer hkey (QueryError.of_ofSchema hrelation)] at hsource
    exact ih hinner hsource
  | case7 entity projection attr value hkey p hrelation hholds ih =>
    obtain ⟨inner, hinner, -⟩ := map_eq_ok.mp h
    rw [expressionOf?_pointer hkey (QueryError.of_ofSchema hrelation)] at hsource
    exact ih hinner hsource
  | case1 | case3 | case5 | case8 => cases h

end SortKey

theorem SortPlan.parse_of_compileItems {schema : Schema} {entity : String}
    {projection : Fields Json} {items : List Json} {keys : List (SortKey × SortDirection)}
    (h : (compileItems schema entity projection items).1 = .ok keys) :
    ∀ spec ∈ attributes (.arr items), ∀ source,
      SortKey.expressionOf? schema entity spec = some source →
        ∃ e, Expression.parse source = .ok e := by
  fun_induction compileItems schema entity projection items generalizing keys with
  | case1 => exact fun spec hmem => absurd hmem List.not_mem_nil
  | case5 projection item rest spec hspec direction hdirection first key hkey =>
    rename_i ih
    obtain ⟨others, hothers, -⟩ := map_eq_ok.mp h
    rw [attributes_cons hspec]
    exact List.forall_mem_cons.mpr ⟨fun _ => SortKey.parse_of_compile hkey, ih hothers⟩
  | case2 | case3 | case4 => cases h

namespace View

/-- The row that pointers lead to, one followed after the other. -/
def reach? (v : View) : String → List String → Row → Option Row
  | _, [], row => some row
  | entity, attr :: path, row =>
    match v.schema.relation entity attr with
    | .ok (.pointer p) =>
      match v.follow p row with
      | .found target => v.reach? p.target path target
      | _ => none
    | _ => none

variable {v : View} {entity attr name : String} {obscure : Bool} {base path : List String}
  {projection nested inner : Fields Json} {row found : Row} {g : Forming}
  {finish : Row × Forming} {p : Pointer} {spec : Json}

theorem reach?_of_found (hrelation : v.schema.relation entity attr = .ok (.pointer p))
    (hfollow : v.follow p row = .found found) (path : List String) :
    v.reach? entity (attr :: path) row = v.reach? p.target path found := by
  rw [reach?, hrelation]
  dsimp only
  rw [hfollow]

theorem reach?_of_not_found (hrelation : v.schema.relation entity attr = .ok (.pointer p))
    (hfollow : ¬ ∃ found, v.follow p row = .found found) (path : List String) :
    v.reach? entity (attr :: path) row = none := by
  rw [reach?, hrelation]
  dsimp only
  split
  · exact absurd ⟨_, ‹_›⟩ hfollow
  · rfl

/-- An object in a projection is no label. -/
theorem ne_label_of_project
    (h : ((v.project entity obscure base projection row).run g).result = .ok finish)
    (hget : Fields.get? projection attr = some (.obj nested)) : attr ≠ "#id" := by
  rintro rfl
  rw [result_project] at h
  obtain ⟨label, hlabel, -⟩ := bind_eq_ok.mp h
  rw [Filter.label?, hget] at hlabel
  cases hlabel

/-- A pointer in a projection leads to the row that it finds, and has its projection. If it finds
none there is no object under its name. -/
theorem project_pointer (hs : v.schema.PointersApart)
    (hd : (Json.obj projection).distinct = true)
    (h : ((v.project entity obscure base projection row).run g).result = .ok finish)
    (hkey : Expression.isKey attr = false)
    (hrelation : v.schema.relation entity attr = .ok (.pointer p))
    (hget : Fields.get? projection attr = some (.obj nested)) :
    (∃ found g' below, v.follow p row = .found found ∧
      ((v.project p.target obscure (base ++ [attr]) nested found).run g').result = .ok below ∧
        Fields.get? finish.1 attr = some (.obj below.1)) ∨
    (¬ ∃ found, v.follow p row = .found found) ∧
      (Fields.get? finish.1 attr).bind Json.obj? = none := by
  have hid := ne_label_of_project h hget
  have hfield : Projected.ofField v.schema entity attr (.obj nested) = .ok (.pointer p nested) :=
    Projected.ofField_pointer hkey hrelation
  obtain ⟨before, after, rfl⟩ := List.append_of_mem (Fields.mem_of_get? hget)
  have hnodup := (Json.distinct_obj.mp hd).1
  rw [Fields.names, List.map_append, List.map_cons] at hnodup
  obtain ⟨-, hafter, hapart⟩ := List.nodup_append.mp hnodup
  have hnotAfter : attr ∉ Fields.names after := (List.nodup_cons.mp hafter).1
  have hnotBefore : attr ∉ Fields.names before := fun hmem =>
    hapart attr hmem attr List.mem_cons_self rfl
  -- No other key writes under the name of a pointer.
  have hkept {keys : Fields Json} {start finish : Row × Forming} (hnot : attr ∉ Fields.names keys)
      (hformed : v.Formed ⟨entity, keys, row⟩ base start finish) :
      Fields.get? finish.1 attr = Fields.get? start.1 attr :=
    hformed.get?_of_not_mem hnot fun _ hq => hs.not_mem_pointerColumns hrelation hq
  rw [result_project] at h
  obtain ⟨label, -, h⟩ := bind_eq_ok.mp h
  obtain ⟨start, -, h⟩ := bind_eq_ok.mp h
  obtain ⟨middle, hmiddle, h⟩ := exists_of_projectFields_append h
  have hbefore := hkept hnotBefore (projectFields_formed v entity obscure base _ _ row _ hmiddle)
  rw [result_projectFields v entity hid] at h
  obtain ⟨kind, hkind, h⟩ := bind_eq_ok.mp h
  cases hfield.symm.trans hkind
  obtain ⟨written, hwritten, h⟩ := bind_eq_ok.mp h
  have hafter := hkept hnotAfter (projectFields_formed v entity obscure base _ _ row _ h)
  by_cases hfollow : ∃ found, v.follow p row = .found found
  · obtain ⟨found, hfollow⟩ := hfollow
    rw [result_pointer hfollow] at hwritten
    obtain ⟨below, hbelow, rfl⟩ := map_eq_ok.mp hwritten
    exact .inl ⟨found, _, below, hfollow, hbelow,
      hafter.trans ((Fields.get?_insert ..).trans (if_pos rfl))⟩
  · refine .inr ⟨hfollow, ?_⟩
    rw [hafter]
    rcases projectField_of_not_found hfollow hwritten with rfl | rfl
    · rw [hbefore]
      rfl
    · rw [Fields.get?_insert, if_pos rfl]
      rfl

/-- Where the pointers of a sort item lead to a row, the projection has come to it as well. Where
they lead to none, the projection has left no object. -/
theorem project_reach (hs : v.schema.PointersApart) (hd : (Json.obj projection).distinct = true)
    (h : ((v.project entity obscure base projection row).run g).result = .ok finish)
    (hinner : objectAt? (SortKey.pointersOf v.schema entity spec) projection = some inner) :
    (∀ target, v.reach? entity (SortKey.pointersOf v.schema entity spec) row = some target →
      ∃ reached, v.Nests ⟨entity, projection, row⟩ (SortKey.pointersOf v.schema entity spec)
        ⟨reached, inner, target⟩) ∧
    (v.reach? entity (SortKey.pointersOf v.schema entity spec) row = none →
      objectAt? (SortKey.pointersOf v.schema entity spec) finish.1 = none) := by
  fun_induction SortKey.pointersOf v.schema entity spec
    generalizing base projection row g finish with
  | case2 entity attr value hkey p hrelation =>
    rename_i ih
    obtain ⟨nested, hnested, hinner⟩ := Option.bind_eq_some_iff.mp hinner
    obtain ⟨spec, hget, hobj⟩ := Option.bind_eq_some_iff.mp hnested
    cases spec <;> cases hobj
    have hkey : Expression.isKey attr = false := Bool.eq_false_iff.mpr hkey
    rcases project_pointer hs hd h hkey hrelation hget with
      ⟨found, g', below, hfollow, hbelow, hfinish⟩ | ⟨hfollow, hfinish⟩
    · have hopens : v.Opens ⟨entity, projection, row⟩ attr ⟨p.target, nested, found⟩ := by
        exact ⟨.obj nested, p, nested, found, Fields.mem_of_get? hget,
          ne_label_of_project h hget, Projected.ofField_pointer hkey hrelation, hfollow, rfl⟩
      obtain ⟨hreached, hlost⟩ := ih (hopens.distinct hd) hbelow hinner
      rw [reach?_of_found hrelation hfollow]
      constructor
      · intro target htarget
        obtain ⟨reached, hnests⟩ := hreached target htarget
        exact ⟨reached, .step hopens hnests⟩
      · intro hnone
        rw [objectAt?, hfinish]
        exact hlost hnone
    · rw [reach?_of_not_found hrelation hfollow]
      constructor
      · intro target htarget
        cases htarget
      · intro hnone
        rw [objectAt?, hfinish]
        rfl
  | case1 | case3 | case4 =>
    cases hinner
    constructor
    · intro target htarget
      cases htarget
      exact ⟨_, .here _⟩
    · intro hnone
      cases hnone

theorem isSome_objectAt?_of_settle {bindings : Bindings} {pending : List PendingField}
    {out formed : Row} (h : settle ⟨bindings, pending⟩ out = .ok formed)
    (hpending : ∀ field ∈ pending, field.name ∉ path) :
    (objectAt? path formed).isSome = (objectAt? path out).isSome := by
  induction pending generalizing out with
  | nil =>
    cases h
    rfl
  | cons field pending ih =>
    rw [settle_cons] at h
    obtain ⟨value, -, h⟩ := bind_eq_ok.mp h
    obtain ⟨hfield, hpending⟩ := List.forall_mem_cons.mp hpending
    rw [ih h hpending, Projected.isSome_objectAt?_writeAt hfield]

/-- The value is what a row is to be sorted by under a sort attribute with an expression that reads
no label: that of the expression on the row that the pointers lead to, or `null` if they lead to
none. -/
def SortsBy (v : View) (entity : String) (spec : Json) (row : Row) (value : Json) : Prop :=
  ∀ source, SortKey.expressionOf? v.schema entity spec = some source →
    ∃ e, Expression.parse source = .ok e ∧ (e.labels = [] →
      match v.reach? entity (SortKey.pointersOf v.schema entity spec) row with
      | some target => ∀ bindings, e.evaluate (some target) bindings = .resolved value
      | none => value = .null)

/-- A key reads the value of its expression from a row that was formed. -/
theorem sortsBy_of_formRow {seed : Bindings} {formed : Row} {key : SortKey}
    (hs : v.schema.PointersApart) (hd : (Json.obj projection).distinct = true)
    (hparse : ∀ source, SortKey.expressionOf? v.schema entity spec = some source →
      ∃ e, Expression.parse source = .ok e)
    (hreads : key.Reads v.schema entity projection spec)
    (h : v.formRow entity obscure projection seed row = .ok formed) :
    v.SortsBy entity spec row (key.extract v (some row) (some formed)) := by
  intro source hsource
  obtain ⟨e, he⟩ := hparse source hsource
  refine ⟨e, he, fun hlabels => ?_⟩
  rw [SortKey.Reads, hsource] at hreads
  obtain ⟨name, hname, hslot, hvalue⟩ := hreads
  obtain ⟨inner, hinner, hvalue⟩ := Option.bind_eq_some_iff.mp hvalue
  obtain ⟨final, -, hasked⟩ := formRow_asked hs hd h
  obtain ⟨⟨out, ⟨bindings, pending⟩⟩, hproject, hsettle⟩ := bind_eq_ok.mp h
  obtain ⟨hreached, hlost⟩ := project_reach hs hd hproject hinner
  rw [SortKey.extract_of_slot hslot, Option.bind_some]
  split
  · rename_i target htarget
    obtain ⟨reached, hnests⟩ := hreached target htarget
    obtain ⟨e', value, he', hevaluate, hformed⟩ :=
      hasked ⟨_, hnests, Fields.mem_of_get? hvalue, hname, rfl⟩
    cases he.symm.trans he'
    rw [hformed]
    intro bindings
    refine (Expression.evaluate_congr _ e fun label hlabel => ?_).trans hevaluate
    rw [hlabels] at hlabel
    cases hlabel
  · rename_i hnone
    have hpending : ∀ field ∈ pending,
        field.name ∉ SortKey.pointersOf v.schema entity spec := by
      intro field hmem hstep
      obtain ⟨-, -, -, ⟨-, -, -, hkey, -⟩, -⟩ := waits_of_project hproject hmem
      cases hkey.symm.trans (SortKey.isKey_of_mem_pointersOf _ _ _ _ hstep)
    have hobject := isSome_objectAt?_of_settle hsettle hpending
    rw [hlost hnone] at hobject
    rw [valueAt?, Option.not_isSome_iff_eq_none.mp (Bool.eq_false_iff.mp hobject)]
    rfl

/-- What a selection with a sorter gives is the page of its rows in the order of their keys. Each
key of an expression that reads no label is the value of the expression on the row that the pointers
before it lead to, or `null` if they lead to none. -/
theorem form_sortKeys (v : View) (entity : String) (rows : List Row) (s : Selection)
    (option : SelectOption) {sorter : Json} {out : List Row} (hs : v.schema.PointersApart)
    (hdata : (Json.obj s.data).distinct = true) (hsorter : s.sorter = some sorter)
    (hdistinct : sorter.distinct = true)
    (h : (v.form entity rows s option).result = .ok out) :
    ∃ plan formed, (v.hoist entity s).1 = .ok (some plan) ∧
      rows.mapM (v.formRow entity option.obscure (v.hoist entity s).2 option.bindings) =
        .ok formed ∧
      out = s.page (plan.sort v rows formed) ∧
      ∀ row projected, (row, projected) ∈ rows.zip formed →
        List.Forall₂ (fun spec value => v.SortsBy entity spec row value)
          (SortPlan.attributes sorter) (plan.keysOf v row projected) := by
  have hd : (Json.obj (v.hoist entity s).2).distinct = true :=
    distinct_hoist hdata fun other hother => by
      cases hsorter.symm.trans hother
      exact hdistinct
  rw [result_form_eq_mapM] at h
  obtain ⟨plan?, hplan, h⟩ := bind_eq_ok.mp h
  obtain ⟨formed, hformed, rfl⟩ := map_eq_ok.mp h
  have hhoist := hplan
  rw [hoist, hsorter] at hhoist
  obtain ⟨plan, hcompile, rfl⟩ := map_eq_ok.mp hhoist
  refine ⟨plan, formed, hplan, hformed, rfl, fun row projected hmem => ?_⟩
  have hrow := eq_ok_of_mem_zip hformed hmem
  cases sorter with
  | arr items =>
    obtain ⟨keys, hkeys, rfl⟩ := map_eq_ok.mp hcompile
    obtain ⟨hreads, -, -⟩ := SortPlan.reads_compileItems hkeys
    have hparse := SortPlan.parse_of_compileItems hkeys
    have hprojection : (v.hoist entity s).2 =
        (SortPlan.compileItems v.schema entity s.data items).2 := by
      rw [hoist, hsorter]
      rfl
    rw [← hprojection] at hreads
    refine List.forall₂_map_right_iff.mpr ?_
    refine ((List.forall₂_and_left _ _).mpr ⟨hparse, hreads⟩).imp fun spec key hkey => ?_
    exact sortsBy_of_formRow hs hd hkey.1 hkey.2 hrow
  | _ => cases hcompile

/-- Two users by the age of their boss. The boss of the first one is there, that of the second one
is not, so the second one comes first. -/
theorem form_sortKeys_boss :
    let user := (({} : Entity).withAttribute "boss" { type := .ref "user" }).withAttribute "age"
      { type := .int }
    let ann : Row := [("id", .str "u1"), ("bossId", .str "u2")]
    let bob : Row := [("id", .str "u2"), ("age", .num (.int 7))]
    let cid : Row := [("id", .str "u3"), ("bossId", .str "u4")]
    let v : View := {
      schema := ({} : Schema).withEntity "user" user
      rows := Std.ExtTreeMap.ofList
        [(⟨"user", "u1"⟩, ann), (⟨"user", "u2"⟩, bob), (⟨"user", "u3"⟩, cid)] RowKey.order }
    let age : Json := .obj [("#attr", .str "age")]
    let spec : Json := .obj [("boss", .obj [("$expr", age)])]
    let sorter : Json := .arr [.obj [("$attr", spec)]]
    let s : Selection := { data := [("id", .num (.int 1))], sorter := some sorter }
    let annFormed : Row :=
      [("id", .str "u1"), ("bossId", .str "u2"), ("boss", .obj [("$expr1", .num (.int 7))])]
    let cidFormed : Row := [("id", .str "u3"), ("bossId", .str "u4"), ("boss", .null)]
    v.schema.PointersApart ∧ (Json.obj s.data).distinct = true ∧ sorter.distinct = true ∧
      (v.form "user" [ann, cid] s {}).result = .ok [cidFormed, annFormed] ∧
      v.reach? "user" (SortKey.pointersOf v.schema "user" spec) ann = some bob ∧
      v.reach? "user" (SortKey.pointersOf v.schema "user" spec) cid = none ∧
      v.SortsBy "user" spec ann (.num (.int 7)) ∧ v.SortsBy "user" spec cid .null := by
  intro user ann bob cid v age spec sorter s annFormed cidFormed
  let key : SortKey := .relation "boss" (.foreignKey "user" "bossId") (.hoisted "$expr1")
  let plan : SortPlan := ⟨[(key, .asc)]⟩
  have hattr {attr target : String} {required : Bool}
      (h : user.attributes[attr]? = some ⟨.ref target, required⟩) : attr = "boss" := by
    rw [Entity.getElem?_withAttribute] at h
    split at h
    · cases h
    · rw [Entity.getElem?_withAttribute] at h
      split at h
      · rename_i he
        exact he.symm
      · cases h
  have hs : v.schema.PointersApart := by
    intro entity e he attr target required ha
    rw [Schema.entity_withEntity] at he
    split at he
    · cases he
      cases hattr ha
      refine ⟨fun other target required hother => ?_, fun h => by cases h⟩
      cases hattr hother
      decide
    · cases he
  have hhoist : v.hoist "user" s =
      (.ok (some plan), [("id", .num (.int 1)), ("boss", .obj [("$expr1", age)])]) := by
    decide +kernel
  have hboss : Projected.ofField v.schema "user" "boss" (.obj [("$expr1", age)]) =
      .ok (.pointer (.foreignKey "user" "bossId") [("$expr1", age)]) := rfl
  have hid : Projected.ofField v.schema "user" "id" (.num (.int 1)) = .ok .column := rfl
  have hage : Projected.ofField v.schema "user" "$expr1" age = .ok (.expr (.attr "age")) := rfl
  have hfollow : v.follow (.foreignKey "user" "bossId") ann = .found bob :=
    have hbob : v.row? "user" "u2" = some bob := by decide +kernel
    follow_of_row? (by decide) hbob
  have hlost : v.follow (.foreignKey "user" "bossId") cid = .missing := by
    have hnone : v.row? "user" "u4" = none := by decide +kernel
    have hcolumn : Fields.get? cid "bossId" = some (.str "u4") := by decide
    simp [follow, lookUp, hcolumn, Json.str?, hnone]
  have hann : v.formRow "user" false [("id", .num (.int 1)), ("boss", .obj [("$expr1", age)])] {}
      ann = .ok annFormed := by
    simp [formRow, result_project, result_projectFields, Filter.label?, Fields.get?_cons,
      Forming.labelled, hid, hboss, hage, result_expr, result_column, Expression.evaluate,
      result_pointer hfollow, Pointer.target, result_projectFields_nil, Except.bind, Except.map]
    rfl
  have hcid : v.formRow "user" false [("id", .num (.int 1)), ("boss", .obj [("$expr1", age)])] {}
      cid = .ok cidFormed := by
    simp [formRow, result_project, result_projectFields, Filter.label?, Fields.get?_cons,
      Forming.labelled, hid, hboss, projectField, hlost, result_projectFields_nil, Except.bind]
    rfl
  have hrows : [ann, cid].mapM (v.formRow "user" false (v.hoist "user" s).2 {}) =
      .ok [annFormed, cidFormed] := by
    rw [hhoist, mapM_cons, mapM_cons, hann, hcid]
    rfl
  have hsort : plan.sort v [ann, cid] [annFormed, cidFormed] = [cidFormed, annFormed] := by
    have hplaces : [ann, cid].zip [annFormed, cidFormed] =
        [(ann, annFormed), (cid, cidFormed)] := rfl
    have hlater : plan.mayPrecede v (ann, annFormed) (cid, cidFormed) = false := by
      decide +kernel
    rw [SortPlan.sort_eq_map, hplaces]
    simp [List.mergeSort, List.MergeSort.Internal.splitInTwo, hlater]
  have hform : (v.form "user" [ann, cid] s {}).result = .ok [cidFormed, annFormed] := by
    rw [result_form_eq_mapM, hrows, hhoist, ← hsort]
    rfl
  obtain ⟨plan', formed', hplan, hformed, -, hkeys⟩ :=
    form_sortKeys v "user" [ann, cid] s {} hs (by decide) rfl (by decide) hform
  rw [hhoist] at hplan
  cases hplan
  cases hrows.symm.trans hformed
  have hreach : v.reach? "user" (SortKey.pointersOf v.schema "user" spec) ann = some bob :=
    reach?_of_found rfl hfollow []
  have hnone : v.reach? "user" (SortKey.pointersOf v.schema "user" spec) cid = none := by
    refine reach?_of_not_found rfl ?_ []
    rintro ⟨found, hfound⟩
    cases hlost.symm.trans hfound
  refine ⟨hs, by decide, by decide, hform, hreach, hnone, ?_, ?_⟩
  · exact (List.forall₂_cons.mp (hkeys ann _ (.head _))).1
  · exact (List.forall₂_cons.mp (hkeys cid _ (.tail _ (.head _)))).1

end View

end EntityStore
