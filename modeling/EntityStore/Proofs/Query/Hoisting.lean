import EntityStore.Proofs.Json.Text
import EntityStore.Proofs.Query.Formed
import Mathlib.Data.List.Nodup
import Mathlib.Data.List.Perm.Subperm

/-! Where sort expressions go. An expression is put under a name that is free
(`SortKey.freeName_not_mem`), in the projection at the end of the pointers before it. What was asked
for stays as it is and where it is, and is only extended below pointers (`Projected.Extends`), so
that the expressions of all sort items are found in the projection of a compiled sorter
(`SortPlan.compile_extends`). -/

namespace EntityStore

open Projected (valueAt?)

theorem natText_inj {m n : Nat} (h : natText m = natText n) : m = n :=
  toDigits_injective (String.ofList_injective h)

namespace Projected

/-! ## Extended projections -/

/-- The second projection has the entries of the first one in their order, those of pointers
extended in the same way, and after them expressions and pointers with such entries only. -/
inductive Extends (schema : Schema) : String → Fields Json → Fields Json → Prop where
  | nil (entity : String) : Extends schema entity [] []
  | keep {entity : String} {old new : Fields Json} (entry : String × Json)
    (h : Extends schema entity old new) : Extends schema entity (entry :: old) (entry :: new)
  | nest {entity attr : String} {p : Pointer} {old new nested nested' : Fields Json}
    (hkey : Expression.isKey attr = false)
    (hrelation : schema.relation entity attr = .ok (.pointer p))
    (hnested : Extends schema p.target nested nested') (h : Extends schema entity old new) :
    Extends schema entity ((attr, .obj nested) :: old) ((attr, .obj nested') :: new)
  | hoist {entity name : String} {new : Fields Json} (hkey : Expression.isKey name = true)
    (source : Json) (h : Extends schema entity [] new) :
    Extends schema entity [] ((name, source) :: new)
  | follow {entity attr : String} {p : Pointer} {new nested : Fields Json}
    (hkey : Expression.isKey attr = false)
    (hrelation : schema.relation entity attr = .ok (.pointer p))
    (hnested : Extends schema p.target [] nested) (h : Extends schema entity [] new) :
    Extends schema entity [] ((attr, .obj nested) :: new)

/-- What the path goes through is an object, as far as it is there. -/
def Admits : Fields Json → List String → Prop
  | _, [] => True
  | projection, step :: path =>
    match Fields.get? projection step with
    | none => True
    | some (.obj nested) => Admits nested path
    | some _ => False

variable {schema : Schema} {entity attr name step : String} {p : Pointer} {path : List String}
  {old new last inner projection rest : Fields Json} {value : Json}

theorem admits_nil : ∀ path, Admits [] path
  | [] | _ :: _ => trivial

theorem admits_cons : Admits ((name, value) :: rest) (step :: path) ↔
    if step = name then ∃ nested, value = .obj nested ∧ Admits nested path
    else Admits rest (step :: path) := by
  rw [Admits, Fields.get?_cons]
  by_cases h : step = name
  · rw [if_pos h, if_pos h]
    cases value <;> simp
  · rw [if_neg h, if_neg h, Admits]

/-- A path through objects is one through the projection below the first of them. -/
theorem Admits.nestedProjection (h : Admits projection (step :: path)) :
    Admits (SortKey.nestedProjection projection step) path := by
  rw [Admits] at h
  unfold SortKey.nestedProjection
  split at h
  · rename_i hget
    rw [hget]
    exact admits_nil path
  · rename_i nested hget
    rw [hget]
    exact h
  · exact h.elim

namespace Extends

theorem refl (schema : Schema) (entity : String) : ∀ projection,
    Extends schema entity projection projection
  | [] => .nil entity
  | entry :: rest => .keep entry (refl schema entity rest)

theorem trans (h : Extends schema entity old new) (h' : Extends schema entity new last) :
    Extends schema entity old last := by
  induction h generalizing last with
  | nil => exact h'
  | keep entry _ ih =>
    cases h' with
    | keep _ h' => exact .keep entry (ih h')
    | nest hkey hrelation hnested h' => exact .nest hkey hrelation hnested (ih h')
  | nest hkey hrelation hnested _ ihNested ih =>
    cases h' with
    | keep _ h' => exact .nest hkey hrelation hnested (ih h')
    | nest _ hrelation' hnested' h' =>
      cases hrelation.symm.trans hrelation'
      exact .nest hkey hrelation (ihNested hnested') (ih h')
  | hoist hkey source _ ih =>
    cases h' with
    | keep _ h' => exact .hoist hkey source (ih h')
    | nest hkey' => cases hkey.symm.trans hkey'
  | follow hkey hrelation hnested _ ihNested ih =>
    cases h' with
    | keep _ h' => exact .follow hkey hrelation hnested (ih h')
    | nest _ hrelation' hnested' h' =>
      cases hrelation.symm.trans hrelation'
      exact .follow hkey hrelation (ihNested hnested') (ih h')

/-- Paths that name no expression stay open. -/
theorem admits (h : Extends schema entity old new)
    (hkeys : ∀ step ∈ path, Expression.isKey step = false) (hold : Admits old path) :
    Admits new path := by
  induction h generalizing path with
  | nil => exact admits_nil path
  | keep entry _ ih =>
    cases path with
    | nil => trivial
    | cons step path =>
      rw [admits_cons] at hold ⊢
      split
      · rwa [if_pos ‹_›] at hold
      · rw [if_neg ‹_›] at hold
        exact ih hkeys hold
  | nest _ _ _ _ ihNested ih =>
    cases path with
    | nil => trivial
    | cons step path =>
      rw [admits_cons] at hold ⊢
      split
      · rw [if_pos ‹_›] at hold
        obtain ⟨nested, he, hold⟩ := hold
        cases he
        exact ⟨_, rfl, ihNested (fun s hs => hkeys s (.tail _ hs)) hold⟩
      · rw [if_neg ‹_›] at hold
        exact ih hkeys hold
  | hoist hkey source _ ih =>
    cases path with
    | nil => trivial
    | cons step path =>
      have hne : step ≠ _ := fun he => by
        have := hkeys step (.head _)
        rw [he, hkey] at this
        cases this
      rw [admits_cons, if_neg hne]
      exact ih hkeys (admits_nil _)
  | follow _ _ _ _ ihNested ih =>
    cases path with
    | nil => trivial
    | cons step path =>
      rw [admits_cons]
      split
      · exact ⟨_, rfl, ihNested (fun s hs => hkeys s (.tail _ hs)) (admits_nil path)⟩
      · exact ih hkeys (admits_nil _)

/-- An expression goes to the end under a name of its own. -/
theorem insert_expr (hkey : Expression.isKey name = true) (source : Json)
    (hname : name ∉ Fields.names projection) :
    Extends schema entity projection (Fields.insert projection name source) := by
  induction projection with
  | nil => exact .hoist hkey source (.nil entity)
  | cons entry rest ih =>
    obtain ⟨hne, hrest⟩ := not_or.mp (List.mem_cons.not.mp hname)
    rw [Fields.insert, if_neg (Ne.symm hne)]
    exact .keep entry (ih hrest)

/-- A pointer whose projection is extended stays in its place, and a new one goes to the end. -/
theorem insert_pointer (hkey : Expression.isKey attr = false)
    (hrelation : schema.relation entity attr = .ok (.pointer p))
    (hattr : Admits projection (attr :: path))
    (h : Extends schema p.target (SortKey.nestedProjection projection attr) inner) :
    Extends schema entity projection (Fields.insert projection attr (.obj inner)) := by
  induction projection with
  | nil => exact .follow hkey hrelation h (.nil entity)
  | cons entry rest ih =>
    obtain ⟨other, value⟩ := entry
    rw [admits_cons] at hattr
    rw [SortKey.nestedProjection, Fields.get?_cons] at h
    rw [Fields.insert]
    by_cases he : attr = other
    · subst he
      rw [if_pos rfl] at hattr h
      obtain ⟨nested, rfl, -⟩ := hattr
      rw [if_pos rfl]
      exact .nest hkey hrelation h (refl schema entity rest)
    · rw [if_neg he] at hattr h
      rw [if_neg (Ne.symm he)]
      exact .keep _ (ih hattr h)

end Extends

end Projected

/-! ## Single keys -/

namespace SortKey

open Projected (Extends Admits)

theorem numberedName_inj {m n : Nat} (h : numberedName m = numberedName n) : m = n := by
  have hlist := congrArg String.toList h
  simp only [numberedName, String.toList_append] at hlist
  exact natText_inj (String.toList_injective (List.append_cancel_left hlist))

/-- The free name is free: the projection cannot have all of one name more than it has. -/
theorem freeName_not_mem (projection : Fields Json) :
    freeName projection ∉ Fields.names projection := by
  let names := (List.range (projection.length + 1)).map fun n => numberedName (n + 1)
  change (names.find? _).getD _ ∉ _
  cases hfind : names.find? fun name => !Fields.contains projection name with
  | some name =>
    have hfree := List.find?_some hfind
    rw [Bool.not_eq_true'] at hfree
    rw [Option.getD_some, ← Fields.get?_eq_none_iff]
    exact Option.not_isSome_iff_eq_none.mp (Bool.eq_false_iff.mp hfree)
  | none =>
    exfalso
    have hnodup : names.Nodup := by
      refine List.Nodup.map (fun m n h => ?_) List.nodup_range
      exact Nat.succ.inj (numberedName_inj h)
    have hsubset : names ⊆ Fields.names projection := by
      intro name hmem
      have hcontains := List.find?_eq_none.mp hfind name hmem
      refine Decidable.byContradiction fun hnot => hcontains ?_
      rw [Fields.contains, Fields.get?_eq_none_iff.mpr hnot]
      rfl
    have hlength := (List.subperm_of_subset hnodup hsubset).length_le
    simp only [names, Fields.names, List.length_map, List.length_range] at hlength
    omega

/-- The pointers that a sort attribute follows, up to a column or an expression. -/
def pointersOf (schema : Schema) (entity : String) : Json → List String
  | .obj [(attr, value)] =>
    if Expression.isKey attr then []
    else
      match schema.relation entity attr with
      | .ok (.pointer p) => attr :: pointersOf schema p.target value
      | _ => []
  | _ => []

/-- The expression that a sort attribute ends in, behind the pointers that it follows. -/
def expressionOf? (schema : Schema) (entity : String) : Json → Option Json
  | .obj [(attr, value)] =>
    if Expression.isKey attr then some value
    else
      match schema.relation entity attr with
      | .ok (.pointer p) => expressionOf? schema p.target value
      | _ => none
  | _ => none

/-- Where a key reads the value of an expression: the pointers to its level, and its name there. -/
def slot? : SortKey → Option (List String × String)
  | column _ => none
  | hoisted name => some ([], name)
  | relation attr _ inner => inner.slot?.map fun (path, name) => (attr :: path, name)

/-- The key reads the expression of the attribute, which the projection has in its slot. A key
without a slot is one of an attribute without an expression. -/
def Reads (schema : Schema) (entity : String) (projection : Fields Json) (spec : Json)
    (key : SortKey) : Prop :=
  match expressionOf? schema entity spec with
  | none => key.slot? = none
  | some source => ∃ name, Expression.isKey name = true ∧
      key.slot? = some (pointersOf schema entity spec, name) ∧
        valueAt? (pointersOf schema entity spec) name projection = some source

variable {schema : Schema} {entity attr name : String} {projection projection' : Fields Json}
  {spec value source : Json} {key : SortKey} {p : Pointer} {path : List String}

theorem pointersOf_expr (hkey : Expression.isKey attr = true) (value : Json) :
    pointersOf schema entity (.obj [(attr, value)]) = [] := by
  simp [pointersOf, hkey]

theorem pointersOf_pointer (hkey : ¬ Expression.isKey attr = true)
    (hrelation : schema.relation entity attr = .ok (.pointer p)) (value : Json) :
    pointersOf schema entity (.obj [(attr, value)]) = attr :: pointersOf schema p.target value := by
  simp [pointersOf, hkey, hrelation]

theorem expressionOf?_expr (hkey : Expression.isKey attr = true) (value : Json) :
    expressionOf? schema entity (.obj [(attr, value)]) = some value := by
  simp [expressionOf?, hkey]

theorem expressionOf?_column (hkey : ¬ Expression.isKey attr = true)
    (hrelation : schema.relation entity attr = .ok .column) (value : Json) :
    expressionOf? schema entity (.obj [(attr, value)]) = none := by
  simp [expressionOf?, hkey, hrelation]

theorem expressionOf?_pointer (hkey : ¬ Expression.isKey attr = true)
    (hrelation : schema.relation entity attr = .ok (.pointer p)) (value : Json) :
    expressionOf? schema entity (.obj [(attr, value)]) = expressionOf? schema p.target value := by
  simp [expressionOf?, hkey, hrelation]

theorem isKey_of_mem_pointersOf (schema : Schema) (entity : String) (spec : Json) :
    ∀ step ∈ pointersOf schema entity spec, Expression.isKey step = false := by
  fun_induction pointersOf schema entity spec with
  | case2 entity attr value hkey p hrelation ih =>
    exact List.forall_mem_cons.mpr ⟨Bool.eq_false_iff.mpr hkey, ih⟩
  | case1 | case3 | case4 => exact nofun

theorem holdsExpression_of_expressionOf? (h : expressionOf? schema entity spec = some source) :
    holdsExpression spec = true := by
  fun_induction expressionOf? schema entity spec with
  | case1 entity attr value hkey => simp [holdsExpression, holdsExpressionFields, hkey]
  | case2 entity attr value hkey p hrelation ih =>
    simp [holdsExpression, holdsExpressionFields, ih h]
  | case3 | case4 => cases h

theorem valueAt?_cons (projection : Fields Json) (attr : String) (path : List String)
    (name : String) : valueAt? (attr :: path) name projection =
      valueAt? path name (nestedProjection projection attr) := by
  rw [valueAt?, Projected.objectAt?, nestedProjection]
  cases Fields.get? projection attr with
  | none => cases path <;> rfl
  | some value => cases value <;> first | rfl | (cases path <;> rfl)

theorem valueAt?_insert (projection : Fields Json) (attr : String) (inner : Fields Json)
    (path : List String) (name : String) :
    valueAt? (attr :: path) name (Fields.insert projection attr (.obj inner)) =
      valueAt? path name inner := by
  rw [valueAt?, Projected.objectAt?_insert]
  rfl

/-- An expression stays where it is. -/
theorem valueAt?_compile (hname : Expression.isKey name = true)
    (h : valueAt? path name projection = some value) :
    valueAt? path name (compile schema entity projection spec).2 = some value := by
  fun_induction compile schema entity projection spec generalizing path with
  | case2 entity projection attr source hkey e hparse =>
    have hfree : Fields.get? projection (freeName projection) = none :=
      Fields.get?_eq_none_iff.mpr (freeName_not_mem projection)
    cases path with
    | nil =>
      have hne : name ≠ freeName projection := by
        rintro rfl
        cases hfree.symm.trans h
      exact (Fields.get?_insert ..).trans ((if_neg hne).trans h)
    | cons step path =>
      have hne : step ≠ freeName projection := by
        rintro rfl
        rw [valueAt?, Projected.objectAt?, hfree] at h
        cases h
      rw [valueAt?, Projected.objectAt?, Fields.get?_insert, if_neg hne]
      exact h
  | case6 entity projection attr source hkey p hrelation hholds inner =>
    rename_i ih
    cases path with
    | nil =>
      have hne : name ≠ attr := by
        rintro rfl
        exact hkey hname
      exact (Fields.get?_insert ..).trans ((if_neg hne).trans h)
    | cons step path =>
      by_cases he : step = attr
      · subst he
        rw [valueAt?_cons] at h
        exact (valueAt?_insert ..).trans (ih h)
      · rw [valueAt?, Projected.objectAt?, Fields.get?_insert, if_neg he]
        exact h
  | case1 | case3 | case4 | case5 | case7 | case8 => exact h

theorem Reads.slot (h : Reads schema entity projection spec key)
    (hslot : key.slot? = some (path, name)) :
    Expression.isKey name = true ∧ (valueAt? path name projection).isSome := by
  rw [Reads] at h
  split at h
  · cases h.symm.trans hslot
  · obtain ⟨_, hname, hslot', hvalue⟩ := h
    cases hslot'.symm.trans hslot
    exact ⟨hname, by rw [hvalue]; rfl⟩

theorem Reads.mono (h : Reads schema entity projection spec key)
    (hkept : ∀ {path name value}, Expression.isKey name = true →
      valueAt? path name projection = some value → valueAt? path name projection' = some value) :
    Reads schema entity projection' spec key := by
  rw [Reads] at h ⊢
  split at h
  · exact h
  · obtain ⟨name, hname, hslot, hvalue⟩ := h
    exact ⟨name, hname, hslot, hkept hname hvalue⟩

/-- A compiled key reads its expression from a place where none was before. -/
theorem reads_compile (h : (compile schema entity projection spec).1 = .ok key) :
    Reads schema entity (compile schema entity projection spec).2 spec key ∧
      ∀ path name, key.slot? = some (path, name) → valueAt? path name projection = none := by
  fun_induction compile schema entity projection spec generalizing key with
  | case2 entity projection attr source hkey e hparse =>
    cases h
    constructor
    · rw [Reads, expressionOf?_expr hkey, pointersOf_expr hkey]
      exact ⟨_, isKey_freeName projection, rfl, (Fields.get?_insert ..).trans (if_pos rfl)⟩
    · rintro path name hslot
      cases hslot
      exact Fields.get?_eq_none_iff.mpr (freeName_not_mem projection)
  | case4 entity projection attr value hkey hrelation =>
    cases h
    rw [Reads, expressionOf?_column hkey (QueryError.of_ofSchema hrelation)]
    exact ⟨rfl, fun path name hslot => by cases hslot⟩
  | case6 entity projection attr value hkey p hrelation hholds compiled =>
    rename_i ih
    have hrelation := QueryError.of_ofSchema hrelation
    obtain ⟨inner, hinner, rfl⟩ := map_eq_ok.mp h
    obtain ⟨hreads, hfresh⟩ := ih hinner
    constructor
    · rw [Reads] at hreads ⊢
      rw [expressionOf?_pointer hkey hrelation, pointersOf_pointer hkey hrelation]
      split at hreads
      · rw [slot?, hreads]
        rfl
      · obtain ⟨name, hname, hslot, hvalue⟩ := hreads
        exact ⟨name, hname, by rw [slot?, hslot]; rfl, (valueAt?_insert ..).trans hvalue⟩
    · intro path name hslot
      obtain ⟨⟨path', name'⟩, hslot, he⟩ := Option.map_eq_some_iff.mp hslot
      cases he
      exact (valueAt?_cons ..).trans (hfresh path' name hslot)
  | case7 entity projection attr value hkey p hrelation hholds ih =>
    obtain ⟨inner, hinner, rfl⟩ := map_eq_ok.mp h
    have hnone : expressionOf? schema p.target value = none :=
      Option.eq_none_iff_forall_ne_some.mpr fun source hsource =>
        hholds (holdsExpression_of_expressionOf? hsource)
    have hslot : (relation attr p inner).slot? = none := by
      have hreads := (ih hinner).1
      rw [Reads, hnone] at hreads
      rw [slot?, hreads]
      rfl
    rw [Reads, expressionOf?_pointer hkey (QueryError.of_ofSchema hrelation), hnone, hslot]
    exact ⟨rfl, fun path name hnot => by cases hnot⟩
  | case1 | case3 | case5 | case8 => cases h

/-- A compiled key only extends the projection. -/
theorem extends_compile (h : Admits projection (pointersOf schema entity spec)) :
    Extends schema entity projection (compile schema entity projection spec).2 := by
  fun_induction compile schema entity projection spec with
  | case2 entity projection attr source hkey e hparse free =>
    exact .insert_expr (isKey_freeName projection) source (freeName_not_mem projection)
  | case6 entity projection attr value hkey p hrelation hholds inner ih =>
    have hrelation := QueryError.of_ofSchema hrelation
    rw [pointersOf_pointer hkey hrelation] at h
    exact .insert_pointer (Bool.eq_false_iff.mpr hkey) hrelation h (ih h.nestedProjection)
  | case1 | case3 | case4 | case5 | case7 | case8 => exact .refl schema _ _

end SortKey

/-! ## Sorters -/

namespace SortPlan

open Projected (Extends Admits)

/-- The sort attributes of a sorter. -/
def attributes : Json → List Json
  | .arr items => items.filterMap (·.field? "$attr")
  | _ => []

/-- The places that the keys read expressions from. -/
def slots (keys : List (SortKey × SortDirection)) : List (List String × String) :=
  keys.filterMap (·.1.slot?)

variable {schema : Schema} {entity name : String} {projection : Fields Json}
  {item spec value : Json} {items : List Json} {entry : SortKey × SortDirection}
  {keys : List (SortKey × SortDirection)} {path : List String} {slot : List String × String}

theorem attributes_cons (h : item.field? "$attr" = some spec) (items : List Json) :
    attributes (.arr (item :: items)) = spec :: attributes (.arr items) := by
  simp [attributes, h]

theorem slots_cons_none (h : entry.1.slot? = none) (keys : List (SortKey × SortDirection)) :
    slots (entry :: keys) = slots keys := by
  simp [slots, h]

theorem slots_cons_some (h : entry.1.slot? = some slot) (keys : List (SortKey × SortDirection)) :
    slots (entry :: keys) = slot :: slots keys := by
  simp [slots, h]

theorem valueAt?_compileItems (hname : Expression.isKey name = true)
    (h : valueAt? path name projection = some value) :
    valueAt? path name (compileItems schema entity projection items).2 = some value := by
  fun_induction compileItems schema entity projection items with
  | case4 => exact SortKey.valueAt?_compile hname h
  | case5 _ _ _ _ _ _ _ _ _ _ _ ih => exact ih (SortKey.valueAt?_compile hname h)
  | case1 | case2 | case3 => exact h

/-- The keys read the expressions of their items, from different places that were free before. -/
theorem reads_compileItems (h : (compileItems schema entity projection items).1 = .ok keys) :
    List.Forall₂ (fun spec key =>
      key.1.Reads schema entity (compileItems schema entity projection items).2 spec)
      (attributes (.arr items)) keys ∧
    (slots keys).Nodup ∧ ∀ path name, (path, name) ∈ slots keys →
      Expression.isKey name = true ∧ valueAt? path name projection = none := by
  fun_induction compileItems schema entity projection items generalizing keys with
  | case1 =>
    cases h
    exact ⟨.nil, List.nodup_nil, fun path name hmem => absurd hmem List.not_mem_nil⟩
  | case5 projection item rest spec hspec direction hdirection first key hkey =>
    rename_i ih
    obtain ⟨others, hothers, rfl⟩ := map_eq_ok.mp h
    obtain ⟨hreads, hnodup, hfree⟩ := ih hothers
    obtain ⟨hread, hfresh⟩ := SortKey.reads_compile hkey
    refine ⟨?_, ?_, ?_⟩
    · rw [attributes_cons hspec]
      exact .cons (hread.mono valueAt?_compileItems) hreads
    · cases hslot : key.slot? with
      | none => rwa [slots_cons_none hslot]
      | some slot =>
        obtain ⟨path, name⟩ := slot
        rw [slots_cons_some hslot]
        refine List.nodup_cons.mpr ⟨fun hmem => ?_, hnodup⟩
        have hsome := (hread.slot hslot).2
        rw [(hfree path name hmem).2] at hsome
        cases hsome
    · intro path name hmem
      obtain ⟨entry, hentry, hslot⟩ := List.mem_filterMap.mp hmem
      rcases List.mem_cons.mp hentry with rfl | hentry
      · exact ⟨(hread.slot hslot).1, hfresh path name hslot⟩
      · obtain ⟨hname, hnone⟩ := hfree path name (List.mem_filterMap.mpr ⟨entry, hentry, hslot⟩)
        refine ⟨hname, Option.eq_none_iff_forall_ne_some.mpr fun value hvalue => ?_⟩
        cases hnone.symm.trans (SortKey.valueAt?_compile hname hvalue)
  | case2 | case3 | case4 => cases h

/-- Sort items only extend the projection. -/
theorem extends_compileItems
    (h : ∀ spec ∈ attributes (.arr items),
      Admits projection (SortKey.pointersOf schema entity spec)) :
    Extends schema entity projection (compileItems schema entity projection items).2 := by
  fun_induction compileItems schema entity projection items with
  | case4 projection item rest spec hspec =>
    rw [attributes_cons hspec] at h
    exact SortKey.extends_compile (h spec (.head _))
  | case5 projection item rest spec hspec direction hdirection first key hkey others ih =>
    rw [attributes_cons hspec] at h
    have hfirst := SortKey.extends_compile (h spec (.head _))
    refine hfirst.trans (ih fun other hmem => ?_)
    have hadmits := h other (.tail _ hmem)
    exact hfirst.admits (SortKey.isKey_of_mem_pointersOf schema entity other) hadmits
  | case1 | case2 | case3 => exact .refl schema _ _

/-- A sorter puts its expressions beside what was asked for. Where every pointer that it follows is
absent from the projection or has an object, every entry stays as it is and in its place, extended
below pointers only, and what is new comes after it, under new names. Each key of an expression
reads the expression of its item, and no two of them read one place. -/
theorem compile_extends {sorter : Json} {data projection : Fields Json} {plan : SortPlan}
    (h : compile schema entity sorter data = (.ok plan, projection))
    (hpointers : ∀ spec ∈ attributes sorter, Admits data (SortKey.pointersOf schema entity spec)) :
    Extends schema entity data projection ∧
      ((Json.obj data).distinct = true → sorter.distinct = true →
        (Json.obj projection).distinct = true) ∧
      List.Forall₂ (fun spec key => key.1.Reads schema entity projection spec)
        (attributes sorter) plan.keys ∧
      (slots plan.keys).Nodup := by
  unfold compile at h
  split at h
  · rename_i items
    obtain ⟨hplan, rfl⟩ := Prod.mk.inj h
    obtain ⟨keys, hkeys, rfl⟩ := map_eq_ok.mp hplan
    obtain ⟨hreads, hnodup, -⟩ := reads_compileItems hkeys
    refine ⟨extends_compileItems hpointers, fun hdata hsorter => ?_, hreads, hnodup⟩
    exact distinct_compileItems schema entity data items hdata (Json.distinct_arr.mp hsorter)
  · cases h

/-- Users by what is computed for their boss, for themselves and again for their boss, where the
caller has asked for an expression of the boss under the first name. -/
theorem compile_extends_boss :
    let user := (({} : Entity).withAttribute "boss" { type := .ref "user" }).withAttribute "age"
      { type := .int }
    let schema := ({} : Schema).withEntity "user" user
    let age (n : Int) : Json := .obj [("$add", .arr [.obj [("#attr", .str "age")], .num (.int n)])]
    let item (spec : Json) : Json := .obj [("$attr", spec)]
    let sorter : Json := .arr [item (.obj [("boss", .obj [("$expr", age 1)])]),
      item (.obj [("$expr", age 2)]), item (.obj [("boss", .obj [("$expr", age 3)])])]
    let data : Fields Json := [("boss", .obj [("$expr1", age 0)]), ("id", .num (.int 1))]
    let boss (name : String) : SortKey :=
      .relation "boss" (.foreignKey "user" "bossId") (.hoisted name)
    let plan : SortPlan :=
      ⟨[(boss "$expr2", .asc), (.hoisted "$expr1", .asc), (boss "$expr3", .asc)]⟩
    let projection : Fields Json :=
      [("boss", .obj [("$expr1", age 0), ("$expr2", age 1), ("$expr3", age 3)]),
        ("id", .num (.int 1)), ("$expr1", age 2)]
    compile schema "user" sorter data = (.ok plan, projection) ∧
      (∀ spec ∈ attributes sorter, Admits data (SortKey.pointersOf schema "user" spec)) ∧
      Extends schema "user" data projection ∧ (Json.obj projection).distinct = true ∧
      List.Forall₂ (fun spec key => key.1.Reads schema "user" projection spec)
        (attributes sorter) plan.keys ∧
      (slots plan.keys).Nodup := by
  intro user schema age item sorter data boss plan projection
  have hcompile : compile schema "user" sorter data = (.ok plan, projection) := by decide +kernel
  have hpointers : ∀ spec ∈ attributes sorter,
      Admits data (SortKey.pointersOf schema "user" spec) := by
    intro spec hmem
    have hspec : spec ∈ [Json.obj [("boss", .obj [("$expr", age 1)])], .obj [("$expr", age 2)],
      .obj [("boss", .obj [("$expr", age 3)])]] := hmem
    simp only [List.mem_cons, List.not_mem_nil, or_false] at hspec
    rcases hspec with rfl | rfl | rfl <;> trivial
  obtain ⟨hextends, hdistinct, hreads, hnodup⟩ := compile_extends hcompile hpointers
  exact ⟨hcompile, hpointers, hextends, hdistinct (by decide) (by decide), hreads, hnodup⟩

end SortPlan

end EntityStore
