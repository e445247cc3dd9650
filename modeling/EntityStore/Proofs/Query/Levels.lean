import EntityStore.Proofs.Json.Distinct
import EntityStore.Proofs.Query.Course
import EntityStore.Proofs.Schema.Columns

/-! The levels of a projection. A pointer in a projection opens a level of its own, with the
projection of the row that it finds, and so on (`View.Opens`, `View.Nests`). Where the names of a
projection are distinct a path leads to one level only (`View.Nests.unique`), and where pointers and
the columns that keep them have different names, none of them comes under the name of another
(`Schema.PointersApart`). -/

namespace EntityStore

/-- A row in its projection. -/
structure Level where
  entity : String
  projection : Fields Json
  row : Row

/-- The projection names each of its fields once, and so does every object in it. -/
def Level.Distinct (l : Level) : Prop := (Json.obj l.projection).distinct = true

section

variable {entity : String} {entry : String × Json} {rest : Fields Json} {row : Row}

theorem Level.Distinct.head (h : Level.Distinct ⟨entity, entry :: rest, row⟩) :
    Level.Distinct ⟨entity, [entry], row⟩ :=
  Json.distinct_obj.mpr ⟨by simp [Fields.names],
    fun e hmem => (Json.distinct_obj.mp h).2 e (List.mem_singleton.mp hmem ▸ List.mem_cons_self)⟩

theorem Level.Distinct.tail (h : Level.Distinct ⟨entity, entry :: rest, row⟩) :
    Level.Distinct ⟨entity, rest, row⟩ := by
  obtain ⟨hnodup, hvalues⟩ := Json.distinct_obj.mp h
  exact Json.distinct_obj.mpr
    ⟨(List.nodup_cons.mp hnodup).2, fun e hmem => hvalues e (List.mem_cons_of_mem _ hmem)⟩

end

/-- No expression is a label. -/
theorem Expression.ne_label {key : String} (h : isKey key = true) : key ≠ "#id" := by
  rintro rfl
  cases h

namespace Projected

variable {schema : Schema} {entity key : String} {spec : Json} {kind : Projected} {p : Pointer}
  {nested : Fields Json}

theorem ofField_expr {e : Expression} (hkey : Expression.isKey key = true)
    (hparse : Expression.parse spec = .ok e) : ofField schema entity key spec = .ok (.expr e) := by
  rw [ofField, if_pos hkey, hparse]
  rfl

theorem ofField_column (hkey : Expression.isKey key = false)
    (hr : schema.relation entity key = .ok .column) :
    ofField schema entity key spec = .ok .column := by
  rw [ofField, hkey, hr]
  rfl

theorem ofField_pointer (hkey : Expression.isKey key = false)
    (hr : schema.relation entity key = .ok (.pointer p)) :
    ofField schema entity key (.obj nested) = .ok (.pointer p nested) := by
  rw [ofField, hkey, hr]
  rfl

/-- A key asks for an expression, or for what the schema says of it. -/
theorem ofField_eq_ok (h : ofField schema entity key spec = .ok kind) :
    (Expression.isKey key = true ∧ ∃ e, Expression.parse spec = .ok e ∧ kind = .expr e) ∨
    (Expression.isKey key = false ∧
      ((kind = .column ∧ schema.relation entity key = .ok .column) ∨
        (∃ target back s, kind = .children target back s ∧
          schema.relation entity key = .ok (.toMany target back) ∧ Selection.decode spec = .ok s) ∨
        ∃ p nested, kind = .pointer p nested ∧
          schema.relation entity key = .ok (.pointer p) ∧ spec = .obj nested)) := by
  unfold ofField at h
  split at h
  · rename_i hk
    obtain ⟨e, hparse, rfl⟩ := map_eq_ok.mp h
    exact .inl ⟨hk, e, hparse, rfl⟩
  · rename_i hk
    refine .inr ⟨Bool.eq_false_iff.mpr hk, ?_⟩
    split at h
    · cases h
    · rename_i hr
      cases h
      exact .inl ⟨rfl, QueryError.of_ofSchema hr⟩
    · rename_i target back hr
      obtain ⟨s, hdecode, rfl⟩ := map_eq_ok.mp h
      exact .inr (.inl ⟨target, back, s, rfl, QueryError.of_ofSchema hr, hdecode⟩)
    · rename_i p hr
      split at h
      · rename_i nested
        cases h
        exact .inr (.inr ⟨p, nested, rfl, QueryError.of_ofSchema hr, rfl⟩)
      · cases h

theorem pointer_eq_ok (h : ofField schema entity key spec = .ok (.pointer p nested)) :
    Expression.isKey key = false ∧ schema.relation entity key = .ok (.pointer p) := by
  rcases ofField_eq_ok h with ⟨-, e, -, he⟩ | ⟨hkey, hkind⟩
  · cases he
  · rcases hkind with ⟨he, -⟩ | ⟨target, back, s, he, -⟩ | ⟨p', nested', he, hr, -⟩
    · cases he
    · cases he
    · cases he
      exact ⟨hkey, hr⟩

end Projected

namespace View

/-- A key of the projection finds the row of another level. -/
def Opens (v : View) (l : Level) (key : String) (l' : Level) : Prop :=
  ∃ spec p nested found, (key, spec) ∈ l.projection ∧ key ≠ "#id" ∧
    Projected.ofField v.schema l.entity key spec = .ok (.pointer p nested) ∧
      v.follow p l.row = .found found ∧ l' = ⟨p.target, nested, found⟩

/-- The levels below a level, the path to each of them made of the keys that open one after the
other. -/
inductive Nests (v : View) : Level → List String → Level → Prop where
  | here (l : Level) : Nests v l [] l
  | step {l l' l'' : Level} {key : String} {path : List String} (hopens : v.Opens l key l')
    (h : Nests v l' path l'') : Nests v l (key :: path) l''

/-- The label is that of the row at the level, or of a row at a level below. -/
def Binds (v : View) (l : Level) (label : String) (row : Row) : Prop :=
  ∃ path l', v.Nests l path l' ∧ Filter.label? l'.projection = .ok (some label) ∧ l'.row = row

/-- An expression is asked for under a name at the end of a path, for a row. -/
def Asks (v : View) (l : Level) (path : List String) (name : String) (spec : Json) (row : Row) :
    Prop :=
  ∃ l', v.Nests l path l' ∧ (name, spec) ∈ l'.projection ∧ Expression.isKey name = true ∧
    l'.row = row

variable {v : View} {l l' l'' : Level} {entity key name label : String} {entry : String × Json}
  {path : List String} {spec spec' : Json} {projection rest : Fields Json} {row row' : Row}

/-! ### One step -/

theorem nests_step :
    v.Nests l (key :: path) l'' ↔ ∃ l', v.Opens l key l' ∧ v.Nests l' path l'' := by
  constructor
  · rintro (_ | ⟨hopens, h⟩)
    exact ⟨_, hopens, h⟩
  · rintro ⟨l', hopens, h⟩
    exact .step hopens h

theorem nests_nil : v.Nests l [] l' ↔ l = l' := by
  constructor
  · rintro ⟨⟩
    rfl
  · rintro rfl
    exact .here l

theorem asks_nil : v.Asks l [] name spec row ↔
    (name, spec) ∈ l.projection ∧ Expression.isKey name = true ∧ l.row = row := by
  constructor
  · rintro ⟨l', hnests, h⟩
    cases nests_nil.mp hnests
    exact h
  · exact fun h => ⟨l, .here l, h⟩

theorem asks_step : v.Asks l (key :: path) name spec row ↔
    ∃ l', v.Opens l key l' ∧ v.Asks l' path name spec row := by
  constructor
  · rintro ⟨l'', hnests, h⟩
    obtain ⟨l', hopens, hnests⟩ := nests_step.mp hnests
    exact ⟨l', hopens, l'', hnests, h⟩
  · rintro ⟨l', hopens, l'', hnests, h⟩
    exact ⟨l'', .step hopens hnests, h⟩

theorem binds_iff : v.Binds l label row ↔
    (Filter.label? l.projection = .ok (some label) ∧ l.row = row) ∨
      ∃ key l', v.Opens l key l' ∧ v.Binds l' label row := by
  constructor
  · rintro ⟨_, l'', hnests, h⟩
    cases hnests with
    | here => exact .inl h
    | step hopens hnests => exact .inr ⟨_, _, hopens, _, l'', hnests, h⟩
  · rintro (h | ⟨key, l', hopens, path, l'', hnests, h⟩)
    · exact ⟨[], l, .here l, h⟩
    · exact ⟨key :: path, l'', .step hopens hnests, h⟩

theorem opens_cons : v.Opens ⟨entity, entry :: rest, row⟩ key l' ↔
    v.Opens ⟨entity, [entry], row⟩ key l' ∨ v.Opens ⟨entity, rest, row⟩ key l' := by
  simp only [Opens, List.mem_cons, List.not_mem_nil, or_false, or_and_right, exists_or]

theorem asks_cons : v.Asks ⟨entity, entry :: rest, row⟩ path name spec row' ↔
    v.Asks ⟨entity, [entry], row⟩ path name spec row' ∨
      v.Asks ⟨entity, rest, row⟩ path name spec row' := by
  cases path with
  | nil => simp only [asks_nil, List.mem_cons, List.not_mem_nil, or_false, or_and_right]
  | cons key path =>
    simp only [asks_step, ← exists_or, ← or_and_right]
    exact exists_congr fun l' => and_congr_left' opens_cons

/-! ### Keys that open a level -/

theorem Opens.relation (h : v.Opens l key l') :
    ∃ p, v.schema.relation l.entity key = .ok (.pointer p) := by
  obtain ⟨spec, p, nested, -, -, -, hfield, -⟩ := h
  exact ⟨p, (Projected.pointer_eq_ok hfield).2⟩

theorem Opens.isKey (h : v.Opens l key l') : Expression.isKey key = false := by
  obtain ⟨spec, p, nested, -, -, -, hfield, -⟩ := h
  exact (Projected.pointer_eq_ok hfield).1

theorem Opens.mem_names (h : v.Opens l key l') : key ∈ Fields.names l.projection := by
  obtain ⟨spec, -, -, -, hmem, -⟩ := h
  exact List.mem_map_of_mem hmem

/-- No expression stands in a path. -/
theorem Nests.not_mem (h : v.Nests l path l') (hname : Expression.isKey name = true) :
    name ∉ path := by
  induction h with
  | here => exact List.not_mem_nil
  | step hopens _ ih =>
    intro hmem
    rcases List.mem_cons.mp hmem with rfl | hmem
    · rw [hopens.isKey] at hname
      cases hname
    · exact ih hmem

/-! ### Distinct names -/

theorem Opens.distinct (h : v.Opens l key l') (hd : l.Distinct) : l'.Distinct := by
  obtain ⟨spec, p, nested, found, hmem, -, hfield, -, rfl⟩ := h
  cases Projected.eq_obj_of_pointer hfield
  exact (Json.distinct_obj.mp hd).2 _ hmem

theorem Opens.unique (h : v.Opens l key l') (h' : v.Opens l key l'') (hd : l.Distinct) :
    l' = l'' := by
  obtain ⟨spec, p, nested, found, hmem, -, hfield, hfollow, rfl⟩ := h
  obtain ⟨spec', p', nested', found', hmem', -, hfield', hfollow', rfl⟩ := h'
  have hnodup := (Json.distinct_obj.mp hd).1
  cases (Fields.get?_of_mem hnodup hmem).symm.trans (Fields.get?_of_mem hnodup hmem')
  cases hfield.symm.trans hfield'
  cases hfollow.symm.trans hfollow'
  rfl

/-- A path leads to one level only. -/
theorem Nests.unique (h : v.Nests l path l') (h' : v.Nests l path l'') (hd : l.Distinct) :
    l' = l'' ∧ l'.Distinct := by
  induction h with
  | here => exact ⟨nests_nil.mp h', hd⟩
  | step hopens _ ih =>
    obtain ⟨other, hopens', h'⟩ := nests_step.mp h'
    cases hopens.unique hopens' hd
    exact ih h' (hopens.distinct hd)

/-- One expression is asked for in one place. -/
theorem Asks.unique (h : v.Asks l path name spec row) (h' : v.Asks l path name spec' row')
    (hd : l.Distinct) : spec = spec' ∧ row = row' := by
  obtain ⟨l', hnests, hmem, -, rfl⟩ := h
  obtain ⟨l'', hnests', hmem', -, rfl⟩ := h'
  obtain ⟨rfl, hd'⟩ := hnests.unique hnests' hd
  have hnodup := (Json.distinct_obj.mp hd').1
  exact ⟨Option.some.inj ((Fields.get?_of_mem hnodup hmem).symm.trans
    (Fields.get?_of_mem hnodup hmem')), rfl⟩

end View

/-! ### Hoisted keys -/

open Json in
theorem SortKey.distinct_compile (schema : Schema) (entity : String) (projection : Fields Json)
    (spec : Json) (h : (obj projection).distinct = true) (hspec : spec.distinct = true) :
    (obj (compile schema entity projection spec).2).distinct = true := by
  fun_induction compile schema entity projection spec with
  | case2 _ _ _ value => exact distinct_insert h _ ((distinct_obj.mp hspec).2 _ (.head _))
  | case6 entity projection attr value _ p _ _ inner ih =>
    have hnested : (obj (nestedProjection projection attr)).distinct = true := by
      unfold nestedProjection
      split
      · rename_i hget
        exact (distinct_obj.mp h).2 _ (Fields.mem_of_get? hget)
      · rfl
    exact distinct_insert h attr (ih hnested ((distinct_obj.mp hspec).2 _ (.head _)))
  | case1 | case3 | case4 | case5 | case7 | case8 => exact h

open Json in
theorem SortPlan.distinct_compileItems (schema : Schema) (entity : String)
    (projection : Fields Json) (items : List Json) (h : (obj projection).distinct = true)
    (hitems : ∀ item ∈ items, item.distinct = true) :
    (obj (compileItems schema entity projection items).2).distinct = true := by
  have hattr {item attr : Json} (hitem : item.distinct = true)
      (hfield : item.field? "$attr" = some attr) : attr.distinct = true := by
    cases item with
    | obj fields => exact (distinct_obj.mp hitem).2 _ (Fields.mem_of_get? hfield)
    | _ => cases hfield
  fun_induction compileItems schema entity projection items with
  | case4 projection item rest attr hfield =>
    exact SortKey.distinct_compile _ _ _ _ h (hattr (hitems item (.head _)) hfield)
  | case5 projection item rest attr hfield _ _ _ _ _ _ ih =>
    obtain ⟨hitem, hrest⟩ := List.forall_mem_cons.mp hitems
    exact ih (SortKey.distinct_compile _ _ _ _ h (hattr hitem hfield)) hrest
  | case1 | case2 | case3 => exact h

/-- Names stay distinct when sort keys are hoisted. -/
theorem View.distinct_hoist {v : View} {entity : String} {s : Selection}
    (hdata : (Json.obj s.data).distinct = true)
    (hsorter : ∀ sorter, s.sorter = some sorter → sorter.distinct = true) :
    (Json.obj (v.hoist entity s).2).distinct = true := by
  unfold hoist
  split
  · exact hdata
  · rename_i sorter hs
    unfold SortPlan.compile
    split
    · exact SortPlan.distinct_compileItems _ _ _ _ hdata (Json.distinct_arr.mp (hsorter _ hs))
    · exact hdata

end EntityStore
