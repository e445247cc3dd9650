import EntityStore.Proofs.Query.Hoisting

/-! What a sorter adds to a projection. It puts expressions at the end, and pointers with such
expressions below them (`Projected.Grows`); in the projection of a pointer that was asked for it
does the same, and where no object was asked for it begins with an empty one. The back-references of
the projection stay what they are and where they are (`Projected.Grows.backReferences_eq`), and it
grows no higher than the sorter (`View.heightFields_hoist_lt`). -/

namespace EntityStore

/-! ## Back-references and heights -/

namespace Json

mutual

/-- The back-references of a projection, as `backReferencesIn` lists them. -/
def backReferences : Json → List (List String × String × Json)
  | .obj fields => backReferencesIn fields
  | _ => []

/-- The back-references of a projection and of those below its pointers: the pointers that lead to
each of them, its name and its selection. -/
def backReferencesIn : List (String × Json) → List (List String × String × Json)
  | [] => []
  | (name, spec) :: rest =>
    (if Expression.isKey name then []
      else if (splitBackReference? name).isSome then [([], name, spec)]
      else (backReferences spec).map fun (path, found) => (name :: path, found)) ++
      backReferencesIn rest

end

mutual

/-- How many arrays and objects lie inside one another. -/
def height : Json → Nat
  | .arr items => heightItems items + 1
  | .obj fields => heightFields fields + 1
  | _ => 0

/-- The height of the highest item. -/
def heightItems : List Json → Nat
  | [] => 0
  | x :: xs => max (height x) (heightItems xs)

/-- The height of the highest field. -/
def heightFields : List (String × Json) → Nat
  | [] => 0
  | (_, x) :: xs => max (height x) (heightFields xs)

end

theorem backReferences_eq (spec : Json) :
    spec.backReferences = backReferencesIn (spec.obj?.getD []) := by
  cases spec <;> rfl

theorem backReferencesIn_expr {name : String} (hkey : Expression.isKey name = true) (spec : Json)
    (rest : Fields Json) : backReferencesIn ((name, spec) :: rest) = backReferencesIn rest := by
  rw [backReferencesIn, if_pos hkey, List.nil_append]

theorem backReferencesIn_pointer {name : String} (hkey : Expression.isKey name = false)
    (hsplit : splitBackReference? name = none) (spec : Json) (rest : Fields Json) :
    backReferencesIn ((name, spec) :: rest) =
      (spec.backReferences.map fun (path, found) => (name :: path, found)) ++
        backReferencesIn rest := by
  rw [backReferencesIn, hkey, hsplit]
  rfl

theorem height_le_heightFields {name : String} {value : Json} {fields : Fields Json}
    (h : (name, value) ∈ fields) : height value ≤ heightFields fields := by
  induction fields with
  | nil => cases h
  | cons entry rest ih =>
    obtain ⟨other, x⟩ := entry
    rw [heightFields]
    rcases List.mem_cons.mp h with h | h
    · cases h
      exact Nat.le_max_left ..
    · exact Nat.le_trans (ih h) (Nat.le_max_right ..)

theorem height_le_heightItems {value : Json} {items : List Json} (h : value ∈ items) :
    height value ≤ heightItems items := by
  induction items with
  | nil => cases h
  | cons x xs ih =>
    rw [heightItems]
    rcases List.mem_cons.mp h with rfl | h
    · exact Nat.le_max_left ..
    · exact Nat.le_trans (ih h) (Nat.le_max_right ..)

theorem heightFields_insert_le (fields : Fields Json) (name : String) (value : Json) :
    heightFields (Fields.insert fields name value) ≤ max (heightFields fields) (height value) := by
  induction fields with
  | nil => simp [Fields.insert, heightFields]
  | cons entry rest ih =>
    obtain ⟨other, x⟩ := entry
    rw [Fields.insert]
    split <;> simp only [heightFields] <;> omega

theorem height_lt_of_field? {j value : Json} {name : String} (h : j.field? name = some value) :
    value.height < j.height := by
  cases j with
  | obj fields => exact Nat.lt_succ_of_le (height_le_heightFields (Fields.mem_of_get? h))
  | _ => cases h

theorem height_pos_of_record? {j : Json} {names : List String} {fields : Fields Json}
    (h : j.record? names = some fields) : 0 < j.height := by
  cases j with
  | obj | arr => exact Nat.succ_pos _
  | _ => cases h

theorem height_lt_of_record? {j value : Json} {names : List String} {fields : Fields Json}
    {name : String} (h : j.record? names = some fields) (hmem : (name, value) ∈ fields) :
    value.height < j.height := by
  cases j with
  | obj entries =>
    simp only [record?, Record.ofObject?, Option.ite_none_right_eq_some, Option.some.injEq] at h
    obtain ⟨-, rfl⟩ := h
    exact Nat.lt_succ_of_le (height_le_heightFields (List.mem_filter.mp hmem).1)
  | arr items =>
    simp only [record?, Record.ofArray?, Option.ite_none_right_eq_some, Option.some.injEq] at h
    obtain ⟨-, rfl⟩ := h
    exact Nat.lt_succ_of_le (height_le_heightItems (List.of_mem_zip hmem).2)
  | _ => cases h

end Json

/-! ## Grown projections -/

namespace Projected

/-- The second projection has the entries of the first one in their order, those of pointers grown
in the same way, and after them expressions and pointers with such entries only. A pointer that came
without an object grows from an empty one. -/
inductive Grows (schema : Schema) : String → Fields Json → Fields Json → Prop where
  | nil (entity : String) : Grows schema entity [] []
  | keep {entity : String} {old new : Fields Json} (entry : String × Json)
    (h : Grows schema entity old new) : Grows schema entity (entry :: old) (entry :: new)
  | nest {entity attr : String} {p : Pointer} {spec : Json} {old new nested : Fields Json}
    (hkey : Expression.isKey attr = false)
    (hrelation : schema.relation entity attr = .ok (.pointer p))
    (hnested : Grows schema p.target (spec.obj?.getD []) nested) (h : Grows schema entity old new) :
    Grows schema entity ((attr, spec) :: old) ((attr, .obj nested) :: new)
  | hoist {entity name : String} {new : Fields Json} (hkey : Expression.isKey name = true)
    (source : Json) (h : Grows schema entity [] new) :
    Grows schema entity [] ((name, source) :: new)
  | follow {entity attr : String} {p : Pointer} {new nested : Fields Json}
    (hkey : Expression.isKey attr = false)
    (hrelation : schema.relation entity attr = .ok (.pointer p))
    (hnested : Grows schema p.target [] nested) (h : Grows schema entity [] new) :
    Grows schema entity [] ((attr, .obj nested) :: new)

namespace Grows

variable {schema : Schema} {entity attr name : String} {p : Pointer}
  {old new last inner projection : Fields Json}

theorem refl (schema : Schema) (entity : String) : ∀ projection,
    Grows schema entity projection projection
  | [] => .nil entity
  | entry :: rest => .keep entry (refl schema entity rest)

theorem trans (h : Grows schema entity old new) (h' : Grows schema entity new last) :
    Grows schema entity old last := by
  induction h generalizing last with
  | nil => exact h'
  | keep entry _ ih =>
    cases h' with
    | keep _ h' => exact .keep entry (ih h')
    | nest hkey hrelation hnested h' => exact .nest hkey hrelation hnested (ih h')
  | nest hkey hrelation hnested _ ihNested ih =>
    cases h' with
    | keep _ h' => exact .nest hkey hrelation hnested (ih h')
    | nest _ hrelation' hnested' h' =>
      cases hrelation.symm.trans hrelation'
      exact .nest hkey hrelation (ihNested hnested') (ih h')
  | hoist hkey source _ ih =>
    cases h' with
    | keep _ h' => exact .hoist hkey source (ih h')
    | nest hkey' => cases hkey.symm.trans hkey'
  | follow hkey hrelation hnested _ ihNested ih =>
    cases h' with
    | keep _ h' => exact .follow hkey hrelation hnested (ih h')
    | nest _ hrelation' hnested' h' =>
      cases hrelation.symm.trans hrelation'
      exact .follow hkey hrelation (ihNested hnested') (ih h')

/-- An expression under a name of its own goes to the end. -/
theorem insert_expr (hkey : Expression.isKey name = true) (source : Json)
    (hname : Fields.get? projection name = none) :
    Grows schema entity projection (Fields.insert projection name source) := by
  induction projection with
  | nil => exact .hoist hkey source (.nil entity)
  | cons entry rest ih =>
    rw [Fields.get?_cons] at hname
    split at hname
    · cases hname
    · rename_i hne
      rw [Fields.insert, if_neg (Ne.symm hne)]
      exact .keep entry (ih hname)

theorem insert_pointer (hkey : Expression.isKey attr = false)
    (hrelation : schema.relation entity attr = .ok (.pointer p))
    (h : Grows schema p.target (SortKey.nestedProjection projection attr) inner) :
    Grows schema entity projection (Fields.insert projection attr (.obj inner)) := by
  induction projection with
  | nil => exact .follow hkey hrelation h (.nil entity)
  | cons entry rest ih =>
    obtain ⟨other, spec⟩ := entry
    rw [SortKey.nestedProjection, Fields.get?_cons] at h
    rw [Fields.insert]
    by_cases he : attr = other
    · subst he
      rw [if_pos rfl] at h
      rw [if_pos rfl]
      refine .nest hkey hrelation ?_ (refl schema entity rest)
      cases spec <;> exact h
    · rw [if_neg he] at h
      rw [if_neg (Ne.symm he)]
      exact .keep _ (ih h)

/-- No back-reference comes or goes. -/
theorem backReferences_eq (h : Grows schema entity old new) :
    Json.backReferencesIn new = Json.backReferencesIn old := by
  induction h with
  | nil => rfl
  | keep entry _ ih => rw [Json.backReferencesIn, Json.backReferencesIn, ih]
  | nest hkey hrelation _ _ ihNested ih =>
    have hsplit := Schema.splitBackReference?_of_pointer hrelation
    rw [Json.backReferencesIn_pointer hkey hsplit, Json.backReferencesIn_pointer hkey hsplit,
      ih, Json.backReferences_eq, Json.backReferences_eq, ← ihNested]
    rfl
  | hoist hkey source _ ih => exact (Json.backReferencesIn_expr hkey source _).trans ih
  | follow hkey hrelation _ _ ihNested ih =>
    rw [Json.backReferencesIn_pointer hkey (Schema.splitBackReference?_of_pointer hrelation),
      Json.backReferences, ihNested]
    exact ih

end Grows

end Projected

/-! ## Compiled sorters -/

namespace SortKey

open Projected (Grows)

theorem grows_compile (schema : Schema) (entity : String) (projection : Fields Json)
    (spec : Json) : Grows schema entity projection (compile schema entity projection spec).2 := by
  fun_induction compile schema entity projection spec with
  | case2 entity projection attr source hkey e hparse =>
    exact .insert_expr (isKey_freeName projection) source
      (Fields.get?_eq_none_iff.mpr (freeName_not_mem projection))
  | case6 entity projection attr value hkey p hrelation hholds inner ih =>
    exact .insert_pointer (Bool.eq_false_iff.mpr hkey) (QueryError.of_ofSchema hrelation) ih
  | case1 | case3 | case4 | case5 | case7 | case8 => exact .refl schema _ _

theorem heightFields_nestedProjection_le (projection : Fields Json) (attr : String) :
    Json.heightFields (nestedProjection projection attr) ≤ Json.heightFields projection - 1 := by
  unfold nestedProjection
  split
  · rename_i nested hget
    exact Nat.le_pred_of_lt (Json.height_le_heightFields (Fields.mem_of_get? hget))
  · exact Nat.zero_le _

open Json in
theorem heightFields_compile_le (schema : Schema) (entity : String) (projection : Fields Json)
    (spec : Json) : heightFields (compile schema entity projection spec).2 ≤
      max (heightFields projection) spec.height := by
  fun_induction compile schema entity projection spec with
  | case2 entity projection attr source hkey e hparse free =>
    have hinsert := heightFields_insert_le projection free source
    simp only [height, heightFields]
    omega
  | case6 entity projection attr value hkey p hrelation hholds inner ih =>
    have hinsert := heightFields_insert_le projection attr (.obj inner.2)
    have hnested := heightFields_nestedProjection_le projection attr
    have hinner : heightFields inner.2 ≤ _ := ih
    simp only [height, heightFields] at hinsert ⊢
    omega
  | case1 | case3 | case4 | case5 | case7 | case8 => exact Nat.le_max_left ..

end SortKey

namespace SortPlan

open Projected (Grows)

theorem grows_compileItems (schema : Schema) (entity : String) (projection : Fields Json)
    (items : List Json) :
    Grows schema entity projection (compileItems schema entity projection items).2 := by
  fun_induction compileItems schema entity projection items with
  | case4 projection item rest spec => exact SortKey.grows_compile schema entity projection spec
  | case5 projection item rest spec _ _ _ _ _ _ _ ih =>
    exact (SortKey.grows_compile schema entity projection spec).trans ih
  | case1 | case2 | case3 => exact .refl schema _ _

open Json in
theorem heightFields_compileItems_le (schema : Schema) (entity : String) (projection : Fields Json)
    (items : List Json) : heightFields (compileItems schema entity projection items).2 ≤
      max (heightFields projection) (heightItems items) := by
  fun_induction compileItems schema entity projection items with
  | case4 projection item rest spec hspec _ _ first =>
    have hitem := height_lt_of_field? hspec
    have hfirst : heightFields first.2 ≤ _ :=
      SortKey.heightFields_compile_le schema entity projection spec
    simp only [heightItems]
    omega
  | case5 projection item rest spec hspec _ _ first _ _ others ih =>
    have hitem := height_lt_of_field? hspec
    have hfirst : heightFields first.2 ≤ _ :=
      SortKey.heightFields_compile_le schema entity projection spec
    have hothers : heightFields others.2 ≤ _ := ih
    simp only [heightItems]
    omega
  | case1 | case2 | case3 => exact Nat.le_max_left ..

end SortPlan

/-- The height of a selection: that of its projection, or of its sorter if that is higher. -/
def Selection.height (s : Selection) : Nat :=
  max (Json.obj s.data).height (s.sorter.elim 0 Json.height)

theorem Selection.sorter_of_ofJson? {j sorter : Json} {s : Selection} (h : ofJson? j = some s)
    (hsorter : s.sorter = some sorter) : ∃ fields, j.record? fieldNames = some fields ∧
      Fields.get? fields "sorter" = some sorter := by
  simp only [ofJson?, Option.bind_eq_bind, Option.bind_eq_some_iff, Option.pure_def,
    Option.some.injEq] at h
  obtain ⟨fields, hrecord, _, _, _, _, found, hfound, _, _, _, _, rfl⟩ := h
  refine ⟨fields, hrecord, ?_⟩
  cases hsorter
  rw [Fields.optional?] at hfound
  split at hfound
  · rename_i value hget
    rw [hget]
    cases value <;> cases hfound <;> rfl
  · cases hfound

/-- A selection is no higher than the value that gives it. -/
theorem Selection.height_le_of_ofJson? {j : Json} {s : Selection} (h : ofJson? j = some s) :
    s.height ≤ j.height := by
  refine Nat.max_le.mpr ⟨?_, ?_⟩
  · rcases data_of_ofJson? h with hdata | ⟨fields, hrecord, hget⟩
    · rw [hdata]
      obtain ⟨fields, hrecord, -⟩ := Option.bind_eq_some_iff.mp h
      exact Json.height_pos_of_record? hrecord
    · exact (Json.height_lt_of_record? hrecord (Fields.mem_of_get? hget)).le
  · cases hsorter : s.sorter with
    | none => exact Nat.zero_le _
    | some sorter =>
      obtain ⟨fields, hrecord, hget⟩ := sorter_of_ofJson? h hsorter
      exact (Json.height_lt_of_record? hrecord (Fields.mem_of_get? hget)).le

namespace View

variable (v : View) (entity : String) (s : Selection)

theorem grows_hoist : Projected.Grows v.schema entity s.data (v.hoist entity s).2 := by
  unfold hoist
  split
  · exact .refl v.schema entity s.data
  · unfold SortPlan.compile
    split
    · exact SortPlan.grows_compileItems v.schema entity s.data _
    · exact .refl v.schema entity s.data

theorem heightFields_hoist_lt : Json.heightFields (v.hoist entity s).2 < s.height := by
  unfold hoist Selection.height
  split
  · exact Nat.lt_of_lt_of_le (Nat.lt_succ_self _) (Nat.le_max_left ..)
  · rename_i sorter hsorter
    rw [hsorter, Option.elim_some, Json.height]
    unfold SortPlan.compile
    split
    · rename_i items
      have hitems := SortPlan.heightFields_compileItems_le v.schema entity s.data items
      rw [Json.height]
      dsimp only
      omega
    · dsimp only
      omega

end View

end EntityStore
