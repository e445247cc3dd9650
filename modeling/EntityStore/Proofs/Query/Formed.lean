import EntityStore.Proofs.Query.Levels
import EntityStore.Proofs.Query.Phases

/-! What the projection of a row leaves behind. When the keys of a level have been projected, every
expression at the level or below it has its value in its place, or it waits with the path to its
place (`View.Formed`). This is so for each kind of key, and it stays so when further keys are
projected, since none of them comes under the name of an expression or of a row that was found
(`View.formed_cons`). -/

namespace EntityStore

namespace Projected

/-- The object that a path leads to. -/
def objectAt? : List String → Row → Option Row
  | [], row => some row
  | step :: path, row => ((Fields.get? row step).bind Json.obj?).bind (objectAt? path)

/-- The value under a name in the object that a path leads to. -/
def valueAt? (path : List String) (name : String) (row : Row) : Option Json :=
  (objectAt? path row).bind (Fields.get? · name)

variable {key name : String} {path : List String} {row row' inner : Row}

theorem objectAt?_cons_congr (h : Fields.get? row key = Fields.get? row' key)
    (path : List String) : objectAt? (key :: path) row = objectAt? (key :: path) row' := by
  rw [objectAt?, objectAt?, h]

theorem objectAt?_insert (row : Row) (key : String) (inner : Row) (path : List String) :
    objectAt? (key :: path) (Fields.insert row key (.obj inner)) = objectAt? path inner := by
  rw [objectAt?, Fields.get?_insert, if_pos rfl]
  rfl

/-- A name has the value that it had, or it is a column and has the value of the row. -/
theorem get?_copyColumns (columns : List String) (row out : Row) (name : String) :
    Fields.get? (copyColumns columns row out) name =
      if name ∈ columns then (Fields.get? row name).or (Fields.get? out name)
      else Fields.get? out name := by
  unfold copyColumns
  induction columns generalizing out with
  | nil => rfl
  | cons column columns ih =>
    rw [List.foldl_cons, ih]
    cases hcolumn : Fields.get? row column with
    | none =>
      by_cases hname : name = column
      · subst hname
        simp [hcolumn]
      · simp [hname]
    | some value =>
      dsimp only
      rw [Fields.get?_insert]
      by_cases hname : name = column
      · subst hname
        simp [hcolumn]
      · simp [hname]

end Projected

/-- The expression is what an earlier attempt left of another one. -/
def Expression.Awaits (waiting : Expression) (row : Row) (e : Expression) (bindings : Bindings) :
    Prop :=
  ∃ earlier, Keeps earlier bindings ∧ e.evaluate (some row) earlier = .pending waiting

namespace Expression

variable {waiting e : Expression} {row : Row} {bindings bindings' : Bindings} {value : Json}

theorem Keeps.trans {bindings'' : Bindings} (h : Keeps bindings bindings')
    (h' : Keeps bindings' bindings'') : Keeps bindings bindings'' :=
  fun label row hl => h' label row (h label row hl)

theorem Awaits.mono (h : waiting.Awaits row e bindings) (hkeeps : Keeps bindings bindings') :
    waiting.Awaits row e bindings' := by
  obtain ⟨earlier, hearlier, he⟩ := h
  exact ⟨earlier, hearlier.trans hkeeps, he⟩

theorem Awaits.resolve (h : waiting.Awaits row e bindings) :
    waiting.resolve bindings = match e.unbound bindings with
      | [] => .ok (e.value (some row) bindings.get?)
      | label :: _ => .error (.unresolved label) := by
  obtain ⟨earlier, hearlier, he⟩ := h
  rw [← residual_of_pending he]
  exact resolve_residual hearlier (some row) e

theorem Awaits.evaluate_of_resolve (h : waiting.Awaits row e bindings)
    (hw : waiting.resolve bindings = .ok value) :
    e.evaluate (some row) bindings = .resolved value := by
  rw [h.resolve] at hw
  cases hunbound : e.unbound bindings with
  | nil =>
    rw [hunbound] at hw
    exact evaluate_eq_resolved_iff.mpr ⟨hunbound, Except.ok.inj hw⟩
  | cons label labels =>
    rw [hunbound] at hw
    cases hw

/-- What waits in vain reads a label that is not bound. -/
theorem Awaits.exists_of_resolve (h : waiting.Awaits row e bindings) {error : QueryError}
    (hw : waiting.resolve bindings = .error error) :
    ∃ label ∈ e.labels, bindings.get? label = none ∧ error = .unresolved label := by
  rw [h.resolve] at hw
  cases hunbound : e.unbound bindings with
  | nil =>
    rw [hunbound] at hw
    cases hw
  | cons label labels =>
    rw [hunbound] at hw
    cases hw
    obtain ⟨hmem, hnone⟩ := mem_unbound.mp (hunbound ▸ List.mem_cons_self)
    exact ⟨label, hmem, Option.not_isSome_iff_eq_none.mp (Bool.eq_false_iff.mp hnone), rfl⟩

theorem evaluate_mono (h : Keeps bindings bindings')
    (he : e.evaluate (some row) bindings = .resolved value) :
    e.evaluate (some row) bindings' = .resolved value :=
  (evaluate_twice h (some row) e).1 value he

end Expression

namespace View

open Projected (objectAt? valueAt?)

/-- The keys of a level have been projected, into the object that `base` leads to. -/
structure Formed (v : View) (l : Level) (base : List String) (start finish : Row × Forming) :
    Prop where
  /-- What has another name stays as it is, or it keeps a pointer and is copied from the row. -/
  frame : ∀ {name}, name ∉ Fields.names l.projection →
    Fields.get? finish.1 name = Fields.get? start.1 name ∨
      (∃ key p, key ∈ Fields.names l.projection ∧
        v.schema.relation l.entity key = .ok (.pointer p) ∧ name ∈ Projected.pointerColumns p) ∧
      ∃ value, Fields.get? l.row name = some value ∧ Fields.get? finish.1 name = some value
  /-- A column has the value of the row. -/
  column : ∀ {name value}, name ∈ Fields.names l.projection → name ≠ "#id" →
    Expression.isKey name = false → v.schema.relation l.entity name = .ok .column →
    Fields.get? l.row name = some value → Fields.get? finish.1 name = some value
  /-- The labels of the levels below are bound. -/
  bound : ∀ {label row}, finish.2.bindings.get? label = some row ↔
    start.2.bindings.get? label = some row ∨ ∃ key l', v.Opens l key l' ∧ v.Binds l' label row
  kept : start.2.pending ⊆ finish.2.pending
  /-- What waits is an expression of the projection. -/
  waits : ∀ f ∈ finish.2.pending, f ∈ start.2.pending ∨
    ∃ path spec row e, v.Asks l path f.name spec row ∧ f.path = base ++ path ∧
      Expression.parse spec = .ok e ∧ f.expr.Awaits row e finish.2.bindings
  /-- The levels below have objects of their own. -/
  opened : v.schema.PointersApart → l.Distinct → ∀ {key path l' l''}, v.Opens l key l' →
    v.Nests l' path l'' → (objectAt? (key :: path) finish.1).isSome
  /-- An expression has its value, or waits. -/
  asked : v.schema.PointersApart → l.Distinct → ∀ {path name spec row},
    v.Asks l path name spec row → ∃ e, Expression.parse spec = .ok e ∧
      ((∃ value, e.evaluate (some row) finish.2.bindings = .resolved value ∧
          valueAt? path name finish.1 = some value) ∨
        ∃ waiting, waiting.Awaits row e finish.2.bindings ∧
          ⟨base ++ path, name, waiting⟩ ∈ finish.2.pending)

variable {v : View} {l : Level} {entity key name : String} {base path : List String}
  {spec : Json} {rest nested : Fields Json} {row found out out' inner : Row} {g g' : Forming}
  {start middle finish : Row × Forming} {p : Pointer} {e : Expression}

theorem Formed.keeps (h : v.Formed l base start finish) :
    Expression.Keeps start.2.bindings finish.2.bindings := fun _ _ hl => h.bound.mpr (.inl hl)

/-- What keeps no pointer stays as it is. -/
theorem Formed.get?_of_not_mem (h : v.Formed l base start finish)
    (hname : name ∉ Fields.names l.projection)
    (hcolumns : ∀ {key p}, key ∈ Fields.names l.projection →
      v.schema.relation l.entity key = .ok (.pointer p) → name ∉ Projected.pointerColumns p) :
    Fields.get? finish.1 name = Fields.get? start.1 name := by
  rcases h.frame hname with h | ⟨⟨key, p, hmem, hrelation, hcolumn⟩, -⟩
  · exact h
  · exact absurd hcolumn (hcolumns hmem hrelation)

/-- An expression belongs into an object that is there. -/
theorem Formed.isSome_objectAt? (h : v.Formed l base start finish) (hs : v.schema.PointersApart)
    (hd : l.Distinct) (hask : v.Asks l path name spec row) : (objectAt? path finish.1).isSome := by
  cases path with
  | nil => rfl
  | cons key path =>
    obtain ⟨l', hopen, l'', hnests, -⟩ := asks_step.mp hask
    exact h.opened hs hd hopen hnests

/-! ### Single keys -/

theorem opens_singleton {key' : String} {l' : Level} :
    v.Opens ⟨entity, [(key, spec)], row⟩ key' l' ↔ key' = key ∧ key ≠ "#id" ∧
      ∃ p nested found, Projected.ofField v.schema entity key spec = .ok (.pointer p nested) ∧
        v.follow p row = .found found ∧ l' = ⟨p.target, nested, found⟩ := by
  constructor
  · rintro ⟨spec', p, nested, found, hmem, hkey, h⟩
    cases List.mem_singleton.mp hmem
    exact ⟨rfl, hkey, p, nested, found, h⟩
  · rintro ⟨rfl, hkey, p, nested, found, h⟩
    exact ⟨spec, p, nested, found, List.mem_singleton_self _, hkey, h⟩

theorem not_asks_of_idle (hkeys : ∀ entry ∈ l.projection, Expression.isKey entry.1 = false)
    (hopens : ∀ key l', ¬ v.Opens l key l') : ¬ v.Asks l path name spec row := by
  cases path with
  | nil =>
    intro h
    obtain ⟨hmem, hname, -⟩ := asks_nil.mp h
    rw [hkeys _ hmem] at hname
    cases hname
  | cons key path =>
    intro h
    obtain ⟨l', h, -⟩ := asks_step.mp h
    exact hopens key l' h

theorem bound_of_not_opens {bindings : Bindings} {label : String}
    (hopens : ∀ key l', ¬ v.Opens l key l') : bindings.get? label = some row ↔
      bindings.get? label = some row ∨ ∃ key l', v.Opens l key l' ∧ v.Binds l' label row := by
  refine ⟨.inl, fun h => h.elim id ?_⟩
  rintro ⟨key, l', hopen, -⟩
  exact absurd hopen (hopens key l')

/-- Keys that ask for no expression and open no level. -/
theorem formed_idle (hkeys : ∀ entry ∈ l.projection, Expression.isKey entry.1 = false)
    (hopens : ∀ key l', ¬ v.Opens l key l')
    (hframe : ∀ {name}, name ∉ Fields.names l.projection →
      Fields.get? out' name = Fields.get? out name ∨
        (∃ key p, key ∈ Fields.names l.projection ∧
          v.schema.relation l.entity key = .ok (.pointer p) ∧ name ∈ Projected.pointerColumns p) ∧
        ∃ value, Fields.get? l.row name = some value ∧ Fields.get? out' name = some value)
    (hcolumn : ∀ {name value}, name ∈ Fields.names l.projection → name ≠ "#id" →
      v.schema.relation l.entity name = .ok .column → Fields.get? l.row name = some value →
        Fields.get? out' name = some value) :
    v.Formed l base (out, g) (out', g) where
  frame := hframe
  column hname hid _ := hcolumn hname hid
  bound := bound_of_not_opens hopens
  kept := List.Subset.refl _
  waits _ hf := .inl hf
  opened _ _ _ _ _ _ h _ := absurd h (hopens _ _)
  asked _ _ _ _ _ _ h := absurd h (not_asks_of_idle hkeys hopens)

theorem formed_nil : v.Formed ⟨entity, [], row⟩ base (out, g) (out, g) :=
  formed_idle nofun (fun _ _ ⟨_, _, _, _, h, _⟩ => nomatch h) (fun _ => .inl rfl) nofun

/-- A key that writes under its own name only. -/
theorem formed_plain (hkey : Expression.isKey key = false)
    (hopens : ∀ key' l', ¬ v.Opens ⟨entity, [(key, spec)], row⟩ key' l')
    (hframe : ∀ {name}, name ≠ key → Fields.get? out' name = Fields.get? out name)
    (hcolumn : key ≠ "#id" → v.schema.relation entity key = .ok .column →
      ∀ {value}, Fields.get? row key = some value → Fields.get? out' key = some value) :
    v.Formed ⟨entity, [(key, spec)], row⟩ base (out, g) (out', g) := by
  refine formed_idle ?_ hopens ?_ ?_
  · intro entry hmem
    cases List.mem_singleton.mp hmem
    exact hkey
  · exact fun hname => .inl (hframe fun he => hname (he ▸ List.mem_singleton_self _))
  · intro name value hname
    cases List.mem_singleton.mp hname
    exact fun hid hr => hcolumn hid hr

theorem not_opens_of_ofField {kind : Projected}
    (hfield : Projected.ofField v.schema entity key spec = .ok kind)
    (hkind : ∀ p nested, kind ≠ .pointer p nested) (row : Row) (key' : String) (l' : Level) :
    ¬ v.Opens ⟨entity, [(key, spec)], row⟩ key' l' := by
  intro h
  obtain ⟨-, -, p, nested, -, hpointer, -⟩ := opens_singleton.mp h
  cases hfield.symm.trans hpointer
  exact hkind p nested rfl

/-- An expression gets its value at once, or waits with the path to its place. -/
theorem formed_expr (hkey : Expression.isKey key = true)
    (hparse : Expression.parse spec = .ok e)
    (h : (∃ value, e.evaluate (some row) g.bindings = .resolved value ∧
        out' = Fields.insert out key value ∧ g' = g) ∨
      ∃ waiting, e.evaluate (some row) g.bindings = .pending waiting ∧ out' = out ∧
        g' = { g with pending := g.pending ++ [⟨base, key, waiting⟩] }) :
    v.Formed ⟨entity, [(key, spec)], row⟩ base (out, g) (out', g') := by
  have hfield : Projected.ofField v.schema entity key spec = .ok (.expr e) :=
    Projected.ofField_expr hkey hparse
  have hopens := not_opens_of_ofField hfield (by intro p nested h; cases h) row
  have hasks {path : List String} {name : String} {spec' : Json} {row' : Row}
      (h : v.Asks ⟨entity, [(key, spec)], row⟩ path name spec' row') :
      path = [] ∧ name = key ∧ spec' = spec ∧ row' = row := by
    cases path with
    | nil =>
      obtain ⟨hmem, -, hrow⟩ := asks_nil.mp h
      cases List.mem_singleton.mp hmem
      exact ⟨rfl, rfl, rfl, hrow.symm⟩
    | cons key' path =>
      obtain ⟨l', h, -⟩ := asks_step.mp h
      exact absurd h (hopens key' l')
  have hask : v.Asks ⟨entity, [(key, spec)], row⟩ [] key spec row :=
    asks_nil.mpr ⟨List.mem_singleton_self _, hkey, rfl⟩
  have hcolumn {name : String} {value : Json} (hname : name ∈ Fields.names [(key, spec)])
      (_ : name ≠ "#id") (hplain : Expression.isKey name = false)
      (_ : v.schema.relation entity name = .ok .column) (_ : Fields.get? row name = some value) :
      Fields.get? out' name = some value := by
    cases List.mem_singleton.mp hname
    cases hkey.symm.trans hplain
  rcases h with ⟨value, hvalue, rfl, rfl⟩ | ⟨waiting, hwaiting, rfl, rfl⟩
  · exact {
      frame := fun {name} hname => .inl ((Fields.get?_insert ..).trans
        (if_neg fun he : name = key => hname (he ▸ List.mem_singleton_self _)))
      column := hcolumn
      bound := bound_of_not_opens hopens
      kept := List.Subset.refl _
      waits := fun _ hf => .inl hf
      opened := fun _ _ _ _ _ _ h _ => absurd h (hopens _ _)
      asked := fun _ _ _ _ _ _ h => by
        obtain ⟨rfl, rfl, rfl, rfl⟩ := hasks h
        exact ⟨e, hparse, .inl ⟨value, hvalue, (Fields.get?_insert ..).trans (if_pos rfl)⟩⟩ }
  · exact {
      frame := fun _ => .inl rfl
      column := hcolumn
      bound := bound_of_not_opens hopens
      kept := List.subset_append_left _ _
      opened := fun _ _ _ _ _ _ h _ => absurd h (hopens _ _)
      asked := fun _ _ _ _ _ _ h => by
        obtain ⟨rfl, rfl, rfl, rfl⟩ := hasks h
        refine ⟨e, hparse, .inr ⟨waiting, ⟨g.bindings, fun _ _ h => h, hwaiting⟩, ?_⟩⟩
        rw [List.append_nil]
        exact List.mem_append_right _ (List.mem_singleton_self _)
      waits := fun _ hf => by
        rcases List.mem_append.mp hf with hf | hf
        · exact .inl hf
        · cases List.mem_singleton.mp hf
          exact .inr ⟨[], spec, row, e, hask, (List.append_nil _).symm, hparse,
            ⟨g.bindings, fun _ _ h => h, hwaiting⟩⟩ }

/-! ### Levels below -/

theorem get?_of_labelled {label : Option String} (h : g.labelled label row = .ok g')
    {name : String} {bound : Row} : g'.bindings.get? name = some bound ↔
      g.bindings.get? name = some bound ∨ (label = some name ∧ row = bound) := by
  cases label with
  | none =>
    cases h
    exact ⟨.inl, fun h => h.elim id nofun⟩
  | some label =>
    obtain ⟨bindings, hbind, rfl⟩ := map_eq_ok.mp h
    unfold Bindings.bind at hbind
    split at hbind
    · cases hbind
    · rename_i hnew
      cases hbind
      rw [Bindings.get?_set]
      by_cases hname : name = label
      · subst hname
        have hnone : g.bindings.get? name = none := Option.not_isSome_iff_eq_none.mp hnew
        simp [hnone]
      · simp [hname, Ne.symm hname]

theorem pending_of_labelled {label : Option String} (h : g.labelled label row = .ok g') :
    g'.pending = g.pending := by
  cases label with
  | none => cases h; rfl
  | some label =>
    obtain ⟨bindings, -, rfl⟩ := map_eq_ok.mp h
    rfl

/-- With the label of its own row, the level has bound the labels of all rows at it and below. -/
theorem Formed.get?_of_labelled {label : Option String} (h : v.Formed l base (out, g') finish)
    (hlabel : Filter.label? l.projection = .ok label) (hbound : g.labelled label l.row = .ok g')
    {name : String} {row : Row} : finish.2.bindings.get? name = some row ↔
      g.bindings.get? name = some row ∨ v.Binds l name row := by
  rw [h.bound, View.get?_of_labelled hbound, or_assoc, binds_iff, hlabel, Except.ok.injEq]

/-- A pointer writes under its own name and into the columns that keep it. -/
theorem frame_of_pointer (hrelation : v.schema.relation entity key = .ok (.pointer p))
    (value : Json) (hname : name ∉ Fields.names [(key, spec)]) :
    let out' := Fields.insert
      (Projected.copyColumns (Projected.pointerColumns p) row out) key value
    Fields.get? out' name = Fields.get? out name ∨
      (∃ key' p', key' ∈ Fields.names [(key, spec)] ∧
        v.schema.relation entity key' = .ok (.pointer p') ∧ name ∈ Projected.pointerColumns p') ∧
      ∃ value, Fields.get? row name = some value ∧ Fields.get? out' name = some value := by
  have hne : name ≠ key := fun he => hname (he ▸ List.mem_singleton_self _)
  dsimp only
  rw [Fields.get?_insert, if_neg hne, Projected.get?_copyColumns]
  split
  · rename_i hcolumn
    cases hvalue : Fields.get? row name with
    | none => exact .inl rfl
    | some value =>
      exact .inr ⟨⟨key, p, List.mem_singleton_self _, hrelation, hcolumn⟩, value, rfl, rfl⟩
  · exact .inl rfl

/-- A pointer that finds a row puts the object of the level below under its name. -/
theorem formed_pointer (hkey : key ≠ "#id")
    (hfield : Projected.ofField v.schema entity key spec = .ok (.pointer p nested))
    (hfollow : v.follow p row = .found found) {label : Option String}
    (hlabel : Filter.label? nested = .ok label) (hbound : g.labelled label found = .ok g')
    (h : v.Formed ⟨p.target, nested, found⟩ (base ++ [key]) ([], g') (inner, finish.2)) :
    v.Formed ⟨entity, [(key, spec)], row⟩ base (out, g)
      (Fields.insert (Projected.copyColumns (Projected.pointerColumns p) row out) key (.obj inner),
        finish.2) := by
  obtain ⟨hplain, hrelation⟩ := Projected.pointer_eq_ok hfield
  have hopens {key' : String} {l' : Level} : v.Opens ⟨entity, [(key, spec)], row⟩ key' l' ↔
      key' = key ∧ l' = ⟨p.target, nested, found⟩ := by
    rw [opens_singleton]
    constructor
    · rintro ⟨rfl, -, p', nested', found', hfield', hfollow', rfl⟩
      cases hfield.symm.trans hfield'
      cases hfollow.symm.trans hfollow'
      exact ⟨rfl, rfl⟩
    · rintro ⟨rfl, rfl⟩
      exact ⟨rfl, hkey, p, nested, found, hfield, hfollow, rfl⟩
  have hasks {path : List String} {name : String} {spec' : Json} {row' : Row}
      (h : v.Asks ⟨entity, [(key, spec)], row⟩ path name spec' row') :
      ∃ path', path = key :: path' ∧
        v.Asks ⟨p.target, nested, found⟩ path' name spec' row' := by
    cases path with
    | nil =>
      obtain ⟨hmem, hname, -⟩ := asks_nil.mp h
      cases List.mem_singleton.mp hmem
      rw [hplain] at hname
      cases hname
    | cons key' path =>
      obtain ⟨l', hopen, h⟩ := asks_step.mp h
      obtain ⟨rfl, rfl⟩ := hopens.mp hopen
      exact ⟨path, rfl, h⟩
  have hbase (path : List String) : base ++ [key] ++ path = base ++ key :: path := by simp
  exact {
    frame := frame_of_pointer hrelation _
    column := fun {name value} hname _ _ hcolumn _ => by
      cases List.mem_singleton.mp hname
      cases hrelation.symm.trans hcolumn
    bound := fun {name row'} => by
      rw [h.get?_of_labelled (l := ⟨p.target, nested, found⟩) hlabel hbound]
      refine or_congr_right ⟨fun h => ⟨key, _, hopens.mpr ⟨rfl, rfl⟩, h⟩, ?_⟩
      rintro ⟨key', l', hopen, h⟩
      obtain ⟨rfl, rfl⟩ := hopens.mp hopen
      exact h
    kept := fun f hf => h.kept (pending_of_labelled hbound ▸ hf)
    waits := fun f hf => by
      rcases h.waits f hf with hf | ⟨path, spec', row', e, hask, hpath, h⟩
      · exact .inl (pending_of_labelled hbound ▸ hf)
      · refine .inr ⟨key :: path, spec', row', e, ?_, hpath.trans (hbase path), h⟩
        exact asks_step.mpr ⟨_, hopens.mpr ⟨rfl, rfl⟩, hask⟩
    opened := fun hs hd _ _ _ _ hopen hnests => by
      have hd' := hopen.distinct hd
      obtain ⟨rfl, rfl⟩ := hopens.mp hopen
      rw [Projected.objectAt?_insert]
      cases hnests with
      | here => rfl
      | step hopen hnests => exact h.opened hs hd' hopen hnests
    asked := fun hs hd _ _ _ _ hask => by
      have hd' := (hopens.mpr ⟨rfl, rfl⟩).distinct hd
      obtain ⟨path, rfl, hask'⟩ := hasks hask
      obtain ⟨e, hparse, hvalue⟩ := h.asked hs hd' hask'
      refine ⟨e, hparse, ?_⟩
      rw [valueAt?, Projected.objectAt?_insert, ← hbase]
      exact hvalue }

/-! ### One key after the other -/

theorem formed_cons {entry : String × Json}
    (hfirst : v.Formed ⟨entity, [entry], row⟩ base start middle)
    (hrest : v.Formed ⟨entity, rest, row⟩ base middle finish) :
    v.Formed ⟨entity, entry :: rest, row⟩ base start finish := by
  have hmem {other : String} (h : other ∈ Fields.names rest) :
      other ∈ Fields.names (entry :: rest) := List.mem_cons_of_mem _ h
  have hmem' {other : String} (h : other ∈ Fields.names [entry]) :
      other ∈ Fields.names (entry :: rest) := List.mem_singleton.mp h ▸ List.mem_cons_self
  -- Further keys write neither under the name of an expression nor under that of a pointer.
  have hnew (hd : Level.Distinct ⟨entity, entry :: rest, row⟩) : entry.1 ∉ Fields.names rest :=
    (List.nodup_cons.mp (Json.distinct_obj.mp hd).1).1
  have hopened (hs : v.schema.PointersApart) (hd : Level.Distinct ⟨entity, entry :: rest, row⟩)
      {key : String} {l' : Level} (h : v.Opens ⟨entity, [entry], row⟩ key l') :
      Fields.get? finish.1 key = Fields.get? middle.1 key := by
    obtain ⟨p, hrelation⟩ := h.relation
    refine hrest.get?_of_not_mem ?_ fun _ hq => hs.not_mem_pointerColumns hrelation hq
    rw [List.mem_singleton.mp h.mem_names]
    exact hnew hd
  exact {
    frame := fun {name} hname => by
      rcases hrest.frame fun h => hname (hmem h) with hsame | ⟨⟨key, p, hkey, h⟩, hvalue⟩
      · rw [hsame]
        rcases hfirst.frame fun h => hname (hmem' h) with h | ⟨⟨key, p, hkey, h⟩, hvalue⟩
        · exact .inl h
        · exact .inr ⟨⟨key, p, hmem' hkey, h⟩, hvalue⟩
      · exact .inr ⟨⟨key, p, hmem hkey, h⟩, hvalue⟩
    column := fun {name value} hname hid hplain hcolumn hvalue => by
      by_cases hlater : name ∈ Fields.names rest
      · exact hrest.column hlater hid hplain hcolumn hvalue
      · have hentry : name ∈ Fields.names [entry] :=
          List.mem_singleton.mpr ((List.mem_cons.mp hname).resolve_right hlater)
        have hmiddle := hfirst.column hentry hid hplain hcolumn hvalue
        rcases hrest.frame hlater with hsame | ⟨-, value', hrow, hfinish⟩
        · exact hsame.trans hmiddle
        · exact hfinish.trans (hrow.symm.trans hvalue)
    bound := fun {label row'} => by
      have hopens {key' : String} {l' : Level} : v.Opens ⟨entity, entry :: rest, row⟩ key' l' ↔
          v.Opens ⟨entity, [entry], row⟩ key' l' ∨ v.Opens ⟨entity, rest, row⟩ key' l' := opens_cons
      rw [hrest.bound, hfirst.bound, or_assoc]
      simp only [hopens, or_and_right, exists_or]
    kept := List.Subset.trans hfirst.kept hrest.kept
    waits := fun f hf => by
      rcases hrest.waits f hf with hf | ⟨path, spec, row', e, hask, h⟩
      · rcases hfirst.waits f hf with hf | ⟨path, spec, row', e, hask, hpath, hparse, hw⟩
        · exact .inl hf
        · exact .inr ⟨path, spec, row', e, asks_cons.mpr (.inl hask), hpath, hparse,
            hw.mono hrest.keeps⟩
      · exact .inr ⟨path, spec, row', e, asks_cons.mpr (.inr hask), h⟩
    opened := fun hs hd _ _ _ _ hopen hnests => by
      rcases opens_cons.mp hopen with hopen | hopen
      · rw [Projected.objectAt?_cons_congr (hopened hs hd hopen)]
        exact hfirst.opened hs hd.head hopen hnests
      · exact hrest.opened hs hd.tail hopen hnests
    asked := fun hs hd path name spec row' hask => by
      rcases asks_cons.mp hask with hask | hask
      · obtain ⟨e, hparse, h⟩ := hfirst.asked hs hd.head hask
        refine ⟨e, hparse, h.imp (fun ⟨value, he, hvalue⟩ => ?_) fun ⟨waiting, hw, hmem⟩ =>
          ⟨waiting, hw.mono hrest.keeps, hrest.kept hmem⟩⟩
        refine ⟨value, Expression.evaluate_mono hrest.keeps he, ?_⟩
        rw [← hvalue]
        cases path with
        | nil =>
          obtain ⟨hmem, hkey, -⟩ := asks_nil.mp hask
          cases List.mem_singleton.mp hmem
          exact hrest.get?_of_not_mem (hnew hd) fun _ hp =>
            Schema.not_mem_pointerColumns_of_isKey hkey hp
        | cons key path =>
          obtain ⟨l', hopen, -⟩ := asks_step.mp hask
          rw [valueAt?, valueAt?, Projected.objectAt?_cons_congr (hopened hs hd hopen)]
      · exact hrest.asked hs hd.tail hask }

/-! ### Projections -/

theorem result_projectFields_nil (v : View) (entity : String) (obscure : Bool)
    (path : List String) (out row : Row) (g : Forming) :
    ((v.projectFields entity obscure path [] out row).run g).result = .ok (out, g) := by
  rw [projectFields]
  rfl

/-- The keys of a projection are projected one after the other. -/
theorem exists_of_projectFields_append {obscure : Bool} {before : Fields Json}
    (h : ((v.projectFields entity obscure base (before ++ rest) out row).run g).result =
      .ok finish) :
    ∃ middle : Row × Forming,
      ((v.projectFields entity obscure base before out row).run g).result = .ok middle ∧
      ((v.projectFields entity obscure base rest middle.1 row).run middle.2).result =
        .ok finish := by
  induction before generalizing out g with
  | nil => exact ⟨(out, g), result_projectFields_nil v entity obscure base out row g, h⟩
  | cons entry before ih =>
    obtain ⟨key, spec⟩ := entry
    rw [List.cons_append] at h
    by_cases hkey : key = "#id"
    · subst hkey
      rw [projectFields_label] at h ⊢
      exact ih h
    · rw [result_projectFields v entity hkey] at h ⊢
      obtain ⟨kind, hkind, h⟩ := bind_eq_ok.mp h
      obtain ⟨first, hfirst, h⟩ := bind_eq_ok.mp h
      obtain ⟨middle, hmiddle, h⟩ := ih h
      exact ⟨middle, bind_eq_ok.mpr ⟨kind, hkind, bind_eq_ok.mpr ⟨first, hfirst, hmiddle⟩⟩, h⟩

theorem result_expr (v : View) (entity : String) (obscure : Bool) (path : List String)
    (key : String) (out row : Row) (e : Expression) (g : Forming) :
    ((v.projectField entity obscure path key out row (.expr e)).run g).result =
      match e.evaluate (some row) g.bindings with
      | .resolved value => .ok (Fields.insert out key value, g)
      | .pending waiting =>
        .ok (out, { g with pending := g.pending ++ [⟨path, key, waiting⟩] }) := by
  cases he : e.evaluate (some row) g.bindings <;> simp [projectField, he, Form.defer, Query.result]

theorem result_column (v : View) (entity : String) (obscure : Bool) (path : List String)
    (key : String) (out row : Row) (g : Forming) :
    ((v.projectField entity obscure path key out row .column).run g).result =
      .ok (Projected.copyColumns [key] row out, g) := rfl

/-- A pointer that finds no row leaves the object as it is, or puts `null` under its name. -/
theorem projectField_of_not_found {obscure : Bool}
    (hfollow : ¬ ∃ found, v.follow p row = .found found)
    (h : ((v.projectField entity obscure base key out row (.pointer p nested)).run g).result =
      .ok finish) :
    finish = (out, g) ∨ finish = (Fields.insert
      (Projected.copyColumns (Projected.pointerColumns p) row out) key .null, g) := by
  unfold projectField at h
  dsimp only at h
  cases hf : v.follow p row with
  | found found => exact absurd ⟨found, hf⟩ hfollow
  | unset | elsewhere =>
    rw [hf] at h
    cases p <;> cases h
    · exact .inl rfl
    · exact .inr rfl
  | missing =>
    rw [hf] at h
    cases h
    exact .inr rfl

/-- A key of any kind, if the row that it finds is projected. -/
theorem projectField_formed {obscure : Bool} {kind : Projected} (hkey : key ≠ "#id")
    (hfield : Projected.ofField v.schema entity key spec = .ok kind)
    (h : ((v.projectField entity obscure base key out row kind).run g).result = .ok finish)
    (hnested : ∀ {p nested found finish}, kind = .pointer p nested →
      ((v.project p.target obscure (base ++ [key]) nested found).run g).result = .ok finish →
      ∃ label g', Filter.label? nested = .ok label ∧ g.labelled label found = .ok g' ∧
        v.Formed ⟨p.target, nested, found⟩ (base ++ [key]) ([], g') finish) :
    v.Formed ⟨entity, [(key, spec)], row⟩ base (out, g) finish := by
  have hinsert (value : Json) {name : String} (hne : name ≠ key) :
      Fields.get? (Fields.insert out key value) name = Fields.get? out name :=
    (Fields.get?_insert ..).trans (if_neg hne)
  rcases Projected.ofField_eq_ok hfield with ⟨hexpr, e, hparse, rfl⟩ | ⟨hplain, hkind⟩
  · refine formed_expr hexpr hparse ?_
    rw [result_expr] at h
    cases he : e.evaluate (some row) g.bindings with
    | resolved value =>
      rw [he] at h
      cases h
      exact .inl ⟨value, rfl, rfl, rfl⟩
    | pending waiting =>
      rw [he] at h
      cases h
      exact .inr ⟨waiting, rfl, rfl, rfl⟩
  rcases hkind with ⟨rfl, -⟩ | ⟨target, back, selection, rfl, hr, -⟩ | ⟨p, nested, rfl, hr, rfl⟩
  · rw [result_column] at h
    cases h
    have hopens := not_opens_of_ofField hfield (by intro p nested h; cases h) row
    refine formed_plain hplain hopens (fun hne => ?_) ?_
    · rw [Projected.get?_copyColumns, if_neg (by simpa using hne)]
    · intro _ _ value hvalue
      rw [Projected.get?_copyColumns, if_pos (List.mem_singleton_self _), hvalue]
      rfl
  · have hopens := not_opens_of_ofField hfield (by intro p nested h; cases h) row
    have hcolumn : v.schema.relation entity key ≠ .ok .column := by
      rw [hr]
      intro h
      cases h
    cases hid : Fields.get? row "id" with
    | none =>
      rw [projectField, hid] at h
      cases h
      exact formed_plain hplain hopens (hinsert _) fun _ h => absurd h hcolumn
    | some id =>
      rw [result_children hid] at h
      obtain ⟨children, -, rfl⟩ := map_eq_ok.mp h
      exact formed_plain hplain hopens (hinsert _) fun _ h => absurd h hcolumn
  · by_cases hfollow : ∃ found, v.follow p row = .found found
    · obtain ⟨found, hfollow⟩ := hfollow
      rw [result_pointer hfollow] at h
      obtain ⟨finish, hproject, rfl⟩ := map_eq_ok.mp h
      obtain ⟨label, g', hlabel, hbound, hformed⟩ := hnested rfl hproject
      exact formed_pointer hkey hfield hfollow hlabel hbound hformed
    · have hopens (key' : String) (l' : Level) :
          ¬ v.Opens ⟨entity, [(key, .obj nested)], row⟩ key' l' := by
        intro hopen
        obtain ⟨-, -, p', nested', found, hfield', hfound, -⟩ := opens_singleton.mp hopen
        cases hfield.symm.trans hfield'
        exact hfollow ⟨found, hfound⟩
      have hkeys : ∀ entry ∈ [(key, Json.obj nested)], Expression.isKey entry.1 = false :=
        fun entry hmem => List.mem_singleton.mp hmem ▸ hplain
      have hpointer {name : String} (hname : name ∈ Fields.names [(key, Json.obj nested)])
          (hcolumn : v.schema.relation entity name = .ok .column) : False := by
        cases List.mem_singleton.mp hname
        cases hr.symm.trans hcolumn
      rcases projectField_of_not_found hfollow h with rfl | rfl
      · exact formed_idle hkeys hopens (fun _ => .inl rfl)
          fun hname _ hcolumn => (hpointer hname hcolumn).elim
      · exact formed_idle hkeys hopens (frame_of_pointer hr _)
          fun hname _ hcolumn => (hpointer hname hcolumn).elim

mutual

theorem project_formed (v : View) (entity : String) (obscure : Bool) (base : List String)
    (projection : Fields Json) (row : Row) (g : Forming) {finish : Row × Forming}
    (h : ((v.project entity obscure base projection row).run g).result = .ok finish) :
    ∃ label g', Filter.label? projection = .ok label ∧ g.labelled label row = .ok g' ∧
      v.Formed ⟨entity, projection, row⟩ base ([], g') finish := by
  rw [result_project] at h
  obtain ⟨label, hlabel, h⟩ := bind_eq_ok.mp h
  obtain ⟨g', hbound, h⟩ := bind_eq_ok.mp h
  have hformed := projectFields_formed v entity obscure base projection [] row g' h
  exact ⟨label, g', hlabel, hbound, hformed⟩
termination_by sizeOf projection + 1

theorem projectFields_formed (v : View) (entity : String) (obscure : Bool) (base : List String)
    (left : Fields Json) (out row : Row) (g : Forming) {finish : Row × Forming}
    (h : ((v.projectFields entity obscure base left out row).run g).result = .ok finish) :
    v.Formed ⟨entity, left, row⟩ base (out, g) finish := by
  match left with
  | [] =>
    rw [result_projectFields_nil] at h
    cases h
    exact formed_nil
  | (key, spec) :: rest =>
    by_cases hkey : key = "#id"
    · subst hkey
      rw [projectFields_label] at h
      refine formed_cons (formed_plain (by decide) ?_ (fun _ => rfl) fun h => absurd rfl h)
        (projectFields_formed v entity obscure base rest out row g h)
      exact fun key' l' hopen => (opens_singleton.mp hopen).2.1 rfl
    · rw [result_projectFields v entity hkey] at h
      obtain ⟨kind, hfield, h⟩ := bind_eq_ok.mp h
      obtain ⟨middle, hmiddle, h⟩ := bind_eq_ok.mp h
      have hrest := projectFields_formed v entity obscure base rest middle.1 row middle.2 h
      refine formed_cons (projectField_formed hkey hfield hmiddle ?_) hrest
      intro p nested found finish hkind hproject
      subst hkind
      cases Projected.eq_obj_of_pointer hfield
      exact project_formed v p.target obscure (base ++ [key]) nested found g hproject
termination_by sizeOf left

end

end View

end EntityStore
