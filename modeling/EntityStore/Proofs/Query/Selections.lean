import EntityStore.Proofs.Json.Merge
import EntityStore.Proofs.Query.Ids
import EntityStore.Proofs.Query.Labels

/-! The labels of selections. A selection fits into a scope, with the labels that are in use around
it, if its filter fits with its own labels, and if so do its projection and all selections below it
(`Selection.FitsIn`). Hoisting sort keys into a projection adds no labels
(`View.fitsIn_hoist`). -/

namespace EntityStore

mutual

/-- The filter fits into the scope with its own labels, and the projection into the scope with the
labels that it binds. -/
inductive Selection.FitsIn (schema : Schema) : List String → String → Selection → Prop where
  | intro {scope inner : List String} {entity : String} {s : Selection}
    (filter : ∀ {document}, s.filter = some document →
      Filter.fitsIn (scope ++ Filter.openLabels document) document)
    (hinner : scope ⊆ inner) (data : Projected.FitsIn schema inner entity s.data) :
    Selection.FitsIn schema scope entity s

/-- The projection binds only labels of the scope, and the selections in it fit into the scope. -/
inductive Projected.FitsIn (schema : Schema) :
    List String → String → List (String × Json) → Prop where
  | intro {scope : List String} {entity : String} {projection : List (String × Json)}
    (label : ∀ {label}, ("#id", .str label) ∈ projection → label ∈ scope)
    (pointer : ∀ {key spec p nested}, (key, spec) ∈ projection →
      Projected.ofField schema entity key spec = .ok (.pointer p nested) →
        Projected.FitsIn schema scope p.target nested)
    (children : ∀ {key spec target back s}, (key, spec) ∈ projection →
      Projected.ofField schema entity key spec = .ok (.children target back s) →
        Selection.FitsIn schema scope target s) : Projected.FitsIn schema scope entity projection

end

namespace Selection.FitsIn

variable {schema : Schema} {scope : List String} {entity : String} {s : Selection}

theorem fitsIn_filter (h : s.FitsIn schema scope entity) {document : Json}
    (hf : s.filter = some document) :
    Filter.fitsIn (scope ++ Filter.openLabels document) document := by
  cases h with
  | intro hfilter => exact hfilter hf

theorem exists_data (h : s.FitsIn schema scope entity) :
    ∃ inner, scope ⊆ inner ∧ Projected.FitsIn schema inner entity s.data := by
  cases h with
  | intro _ hinner hdata => exact ⟨_, hinner, hdata⟩

end Selection.FitsIn

namespace Projected.FitsIn

variable {schema : Schema} {scope : List String} {entity key target : String} {spec : Json}
  {projection nested : List (String × Json)} {p : Pointer} {back : Option String} {s : Selection}

theorem nil (schema : Schema) (scope : List String) (entity : String) :
    FitsIn schema scope entity [] := .intro nofun nofun nofun

theorem label (h : FitsIn schema scope entity projection) {label : String}
    (hmem : ("#id", .str label) ∈ projection) : label ∈ scope := by
  cases h with
  | intro hlabel => exact hlabel hmem

theorem pointer (h : FitsIn schema scope entity projection) (hmem : (key, spec) ∈ projection)
    (hfield : ofField schema entity key spec = .ok (.pointer p nested)) :
    FitsIn schema scope p.target nested := by
  cases h with
  | intro _ hpointer => exact hpointer hmem hfield

theorem children (h : FitsIn schema scope entity projection) (hmem : (key, spec) ∈ projection)
    (hfield : ofField schema entity key spec = .ok (.children target back s)) :
    s.FitsIn schema scope target := by
  cases h with
  | intro _ _ hchildren => exact hchildren hmem hfield

theorem tail {entry : String × Json} (h : FitsIn schema scope entity (entry :: projection)) :
    FitsIn schema scope entity projection :=
  .intro (fun hmem => h.label (List.mem_cons_of_mem _ hmem))
    (fun hmem => h.pointer (List.mem_cons_of_mem _ hmem))
    (fun hmem => h.children (List.mem_cons_of_mem _ hmem))

theorem insert (h : FitsIn schema scope entity projection)
    (hlabel : ∀ label, (key, spec) ≠ ("#id", .str label))
    (hpointer : ∀ {p nested}, ofField schema entity key spec = .ok (.pointer p nested) →
      FitsIn schema scope p.target nested)
    (hchildren : ∀ target back s, ofField schema entity key spec ≠ .ok (.children target back s)) :
    FitsIn schema scope entity (Fields.insert projection key spec) := by
  refine .intro (fun hmem => ?_) (fun hmem hfield => ?_) (fun hmem hfield => ?_)
  · rcases Fields.mem_insert hmem with hmem | he
    · exact h.label hmem
    · exact absurd he.symm (hlabel _)
  · rcases Fields.mem_insert hmem with hmem | he
    · exact h.pointer hmem hfield
    · cases he
      exact hpointer hfield
  · rcases Fields.mem_insert hmem with hmem | he
    · exact h.children hmem hfield
    · cases he
      exact absurd hfield (hchildren _ _ _)

/-- An expression binds no labels. -/
theorem insert_expr (h : FitsIn schema scope entity projection) (hk : Expression.isKey key = true)
    (spec : Json) : FitsIn schema scope entity (Fields.insert projection key spec) := by
  have hfield : ofField schema entity key spec = (Expression.parse spec).map .expr := if_pos hk
  refine h.insert (fun label he => ?_) (fun hp => ?_) fun target back s hc => ?_
  · cases he
    cases hk
  · rw [hfield] at hp
    obtain ⟨e, -, he⟩ := map_eq_ok.mp hp
    cases he
  · rw [hfield] at hc
    obtain ⟨e, -, he⟩ := map_eq_ok.mp hc
    cases he

theorem ofField_pointer (hk : Expression.isKey key = false)
    (hp : QueryError.ofSchema (schema.relation entity key) = .ok (.pointer p)) :
    ofField schema entity key (.obj nested) = .ok (.pointer p nested) := by
  rw [ofField, hk, hp]
  rfl

/-- The projection of a row that a pointer leads to. -/
theorem insert_pointer (h : FitsIn schema scope entity projection)
    (hk : Expression.isKey key = false)
    (hp : QueryError.ofSchema (schema.relation entity key) = .ok (.pointer p))
    (hnested : FitsIn schema scope p.target nested) :
    FitsIn schema scope entity (Fields.insert projection key (.obj nested)) := by
  have hfield : ofField schema entity key (.obj nested) = .ok (.pointer p nested) :=
    ofField_pointer hk hp
  refine h.insert (fun label he => by cases he) (fun hq => ?_) fun target back s hc => ?_
  · rw [hfield] at hq
    cases hq
    exact hnested
  · rw [hfield] at hc
    cases hc

theorem nestedProjection (h : FitsIn schema scope entity projection)
    (hk : Expression.isKey key = false)
    (hp : QueryError.ofSchema (schema.relation entity key) = .ok (.pointer p)) :
    FitsIn schema scope p.target (SortKey.nestedProjection projection key) := by
  unfold SortKey.nestedProjection
  split
  · rename_i hget
    exact h.pointer (Fields.mem_of_get? hget) (ofField_pointer hk hp)
  · exact .nil ..

theorem compile (h : FitsIn schema scope entity projection) (spec : Json) :
    FitsIn schema scope entity (SortKey.compile schema entity projection spec).2 := by
  fun_induction SortKey.compile schema entity projection spec with
  | case2 => exact h.insert_expr (SortKey.isKey_freeName _) _
  | case6 entity projection attr value hk p hr _ inner ih =>
    have hk : Expression.isKey attr = false := Bool.eq_false_iff.mpr hk
    exact h.insert_pointer hk hr (ih (h.nestedProjection hk hr))
  | case1 | case3 | case4 | case5 | case7 | case8 => exact h

theorem compileItems (h : FitsIn schema scope entity projection) (items : List Json) :
    FitsIn schema scope entity (SortPlan.compileItems schema entity projection items).2 := by
  fun_induction SortPlan.compileItems schema entity projection items with
  | case4 => exact h.compile _
  | case5 _ _ _ _ _ _ _ _ _ _ _ ih => exact ih (h.compile _)
  | case1 | case2 | case3 => exact h

end Projected.FitsIn

theorem View.fitsIn_idSelection (schema : Schema) {scope : List String} (entity : String)
    {document : Json} (h : Filter.fitsIn (scope ++ Filter.openLabels document) document) :
    (idSelection (some document)).FitsIn schema scope entity := by
  have hcolumn {key : String} {spec : Json} {kind : Projected}
      (hmem : (key, spec) ∈ [("id", Json.ofNat 1)])
      (hkind : Projected.ofField schema entity key spec = .ok kind) : kind = .column := by
    cases List.mem_singleton.mp hmem
    cases he : schema.entity entity with
    | error e =>
      have hr : schema.relation entity "id" = .error e := by
        unfold Schema.relation
        rw [he]
        rfl
      have hk : Expression.isKey "id" = false := by decide
      rw [Projected.ofField, hk, hr] at hkind
      cases hkind
    | ok e => exact Except.ok.inj (hkind.symm.trans (ofField_id he _))
  refine .intro (fun hdocument => by cases hdocument; exact h) (List.Subset.refl scope)
    (.intro (fun hmem => ?_) ?_ ?_)
  · have hkey := congrArg Prod.fst (List.mem_singleton.mp hmem)
    exact absurd (show "#id" = "id" from hkey) (by decide)
  · exact fun hmem hkind => by cases hcolumn hmem hkind
  · exact fun hmem hkind => by cases hcolumn hmem hkind

theorem View.fitsIn_hoist {v : View} {scope : List String} {entity : String} {s : Selection}
    (h : s.FitsIn v.schema scope entity) :
    ∃ inner, scope ⊆ inner ∧ Projected.FitsIn v.schema inner entity (v.hoist entity s).2 := by
  obtain ⟨inner, hsub, hdata⟩ := h.exists_data
  refine ⟨inner, hsub, ?_⟩
  unfold hoist
  split
  · exact hdata
  · unfold SortPlan.compile
    split
    · exact hdata.compileItems _
    · exact hdata

/-- A foreign key column is no label: it ends in `Id`. -/
theorem foreignKeyColumn_ne (attr : String) : foreignKeyColumn attr ≠ "#id" := by
  intro h
  have h := congrArg String.toList h
  rw [foreignKeyColumn, String.toList_append] at h
  have hchars : attr.toList ++ ['I', 'd'] = ['#'] ++ ['i', 'd'] := h
  have hend := (List.append_inj' hchars rfl).2
  exact absurd hend (by decide)

namespace Projected

theorem fitsIn_backReference (scope : List String) (entity id : String) (back : Option String) :
    Filter.fitsIn scope (backReference entity (.str id) back) := by
  cases back with
  | none => simp [backReference, Filter.fitsIn, Filter.fitsInFields, entityColumn, entityIdColumn]
  | some attr =>
    simp [backReference, Filter.fitsIn, Filter.fitsInFields, foreignKeyColumn_ne]

theorem openLabels_backReference (entity id : String) (back : Option String) :
    Filter.openLabels (backReference entity (.str id) back) = [] := by
  cases back with
  | none =>
    simp [backReference, Filter.openLabels, Filter.openLabelsFields, entityColumn, entityIdColumn]
  | some attr =>
    simp [backReference, Filter.openLabels, Filter.openLabelsFields, foreignKeyColumn_ne]

/-- The rows that point back at a row are found without labels. -/
theorem fitsIn_selectionOf {schema : Schema} {scope : List String} {target : String} {s : Selection}
    (h : s.FitsIn schema scope target) (entity id : String) (back : Option String) :
    (selectionOf entity (.str id) back s).FitsIn schema scope target := by
  obtain ⟨inner, hinner, hdata⟩ := h.exists_data
  refine .intro (fun {document} hdocument => ?_) hinner hdata
  have hreference (scope : List String) := fitsIn_backReference scope entity id back
  unfold selectionOf at hdocument
  cases hf : s.filter with
  | none =>
    rw [hf] at hdocument
    cases hdocument
    exact hreference _
  | some filter =>
    rw [hf] at hdocument
    cases hdocument
    have hfilter := h.fitsIn_filter hf
    have hlabels : Filter.openLabels (.obj [("$and",
        .arr [backReference entity (.str id) back, filter])]) = Filter.openLabels filter := by
      simp [Filter.openLabels, Filter.openLabelsFields, Filter.openLabelsItems,
        openLabels_backReference]
    rw [hlabels]
    simp [Filter.fitsIn, Filter.fitsInFields, Filter.fitsInItems, hreference, hfilter]

end Projected

end EntityStore
