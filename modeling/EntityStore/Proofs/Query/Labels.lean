import EntityStore.Proofs.Execution
import EntityStore.Proofs.Query.Expression
import EntityStore.Proofs.Query.Parsing
import EntityStore.Query.Filter.Compile
import EntityStore.Query.Nesting

/-! The labels of filter documents. A document fits into a scope if it binds no other labels outside
of its subqueries, and if its uncorrelated subqueries bind none of them (`Filter.fitsIn`). It avoids
labels that it neither binds nor reads, wherever it does so (`Filter.Avoids`). -/

namespace EntityStore

/-- A collection of labels from all parts of a document: `ofFields` collects them from fields. -/
structure Collects (ofFields : List (String × Json) → List String) : Prop where
  nil : ofFields [] = []
  cons : ∀ field rest, ofFields (field :: rest) = ofFields [field] ++ ofFields rest
  obj : ∀ key fields, ofFields [(key, .obj fields)] = ofFields fields
  arr : ∀ key items, ofFields [(key, .arr items)] = items.flatMap fun x => ofFields [("", x)]
  leaf : ∀ value, (∀ fields, value ≠ .obj fields) → (∀ items, value ≠ .arr items) →
    ofFields [("", value)] = []

namespace Collects

theorem bound : Collects Filter.labelsBoundFields where
  nil := rfl
  cons := by
    rintro ⟨key, value⟩ rest
    by_cases hk : key = "#id" <;> cases value <;> simp [Filter.labelsBoundFields, hk]
  obj key fields := by simp [Filter.labelsBoundFields, Filter.labelsBound]
  arr key items := by
    have hitems : Filter.labelsBoundItems items =
        items.flatMap fun x => Filter.labelsBoundFields [("", x)] := by
      induction items with
      | nil => rfl
      | cons x xs ih => simp [Filter.labelsBoundItems, Filter.labelsBoundFields, ih]
    simp [Filter.labelsBoundFields, Filter.labelsBound, hitems]
  leaf value hobj harr := by cases value <;> simp_all [Filter.labelsBoundFields, Filter.labelsBound]

theorem read : Collects Filter.labelsReadFields where
  nil := rfl
  cons := by
    rintro ⟨key, value⟩ rest
    by_cases hk : key = "#refId" <;> cases value <;> simp [Filter.labelsReadFields, hk]
  obj key fields := by simp [Filter.labelsReadFields, Filter.labelsRead]
  arr key items := by
    have hitems : Filter.labelsReadItems items =
        items.flatMap fun x => Filter.labelsReadFields [("", x)] := by
      induction items with
      | nil => rfl
      | cons x xs ih => simp [Filter.labelsReadItems, Filter.labelsReadFields, ih]
    simp [Filter.labelsReadFields, Filter.labelsRead, hitems]
  leaf value hobj harr := by cases value <;> simp_all [Filter.labelsReadFields, Filter.labelsRead]

variable {ofFields : List (String × Json) → List String} (hL : Collects ofFields)

include hL

theorem eq_flatMap (fields : List (String × Json)) :
    ofFields fields = fields.flatMap fun field => ofFields [field] := by
  induction fields with
  | nil => exact hL.nil
  | cons field rest ih => rw [hL.cons, ih, List.flatMap_cons]

/-- The labels of a part are labels of the whole, whatever name the part has. -/
theorem mem_of_field {key : String} {value : Json} {fields : List (String × Json)}
    (h : (key, value) ∈ fields) {label : String} (hl : label ∈ ofFields [("", value)]) :
    label ∈ ofFields fields := by
  rw [hL.eq_flatMap]
  refine List.mem_flatMap.mpr ⟨(key, value), h, ?_⟩
  cases value with
  | obj inner =>
    rw [hL.obj] at hl ⊢
    exact hl
  | arr items =>
    rw [hL.arr] at hl ⊢
    exact hl
  | null | bool _ | num _ | str _ =>
    rw [hL.leaf _ (by simp) (by simp)] at hl
    cases hl

theorem mem_of_item {items : List Json} {x : Json} (h : x ∈ items) {label : String}
    (hl : label ∈ ofFields [("", x)]) : label ∈ ofFields [("", .arr items)] := by
  rw [hL.arr]
  exact List.mem_flatMap.mpr ⟨x, h, hl⟩

end Collects

namespace Filter

theorem labelsBound_eq (document : Json) :
    labelsBound document = labelsBoundFields [("", document)] := by
  simp [labelsBoundFields]

theorem labelsRead_eq (document : Json) :
    labelsRead document = labelsReadFields [("", document)] := by
  simp [labelsReadFields]

/-- A document neither binds nor reads any of the labels. -/
def Avoids (hidden : List String) (document : Json) : Prop :=
  ∀ label ∈ hidden, label ∉ labelsBound document ∧ label ∉ labelsRead document

namespace Avoids

variable {hidden : List String} {fields : List (String × Json)} {items : List Json}

theorem field (h : Avoids hidden (.obj fields)) {key : String} {value : Json}
    (hmem : (key, value) ∈ fields) : Avoids hidden value := by
  intro label hl
  obtain ⟨hbound, hread⟩ := h label hl
  refine ⟨fun hin => hbound ?_, fun hin => hread ?_⟩
  · exact Collects.bound.mem_of_field hmem (labelsBound_eq value ▸ hin)
  · exact Collects.read.mem_of_field hmem (labelsRead_eq value ▸ hin)

theorem item (h : Avoids hidden (.arr items)) {x : Json} (hmem : x ∈ items) :
    Avoids hidden x := by
  intro label hl
  obtain ⟨hbound, hread⟩ := h label hl
  rw [labelsBound_eq] at hbound
  rw [labelsRead_eq] at hread
  refine ⟨fun hin => hbound ?_, fun hin => hread ?_⟩
  · exact Collects.bound.mem_of_item hmem (labelsBound_eq x ▸ hin)
  · exact Collects.read.mem_of_item hmem (labelsRead_eq x ▸ hin)

theorem label (h : Avoids hidden (.obj fields)) {label : String}
    (hmem : ("#id", .str label) ∈ fields) : label ∉ hidden := by
  intro hl
  refine (h label hl).1 ?_
  rw [labelsBound, Collects.bound.eq_flatMap]
  exact List.mem_flatMap.mpr ⟨_, hmem, List.mem_cons_self⟩

end Avoids

theorem mem_of_label? {fields : List (String × Json)} {label : String}
    (h : label? fields = .ok (some label)) : ("#id", .str label) ∈ fields := by
  unfold label? at h
  split at h
  · cases h
  · rename_i hget
    cases h
    exact Fields.mem_of_get? hget
  · cases h

/-! ## Scopes -/

mutual

/-- The labels that a filter document binds outside of its subqueries. -/
def openLabels : Json → List String
  | .obj fields => openLabelsFields fields
  | .arr items => openLabelsItems items
  | _ => []

/-- The labels that the items of an array bind outside of subqueries. -/
def openLabelsItems : List Json → List String
  | [] => []
  | x :: xs => openLabels x ++ openLabelsItems xs

/-- The labels that the fields of an object bind outside of subqueries. -/
def openLabelsFields : List (String × Json) → List String
  | [] => []
  | ("#id", .str label) :: rest => label :: openLabelsFields rest
  | ("$in", .obj _) :: rest | ("$nin", .obj _) :: rest => openLabelsFields rest
  | (_, v) :: rest => openLabels v ++ openLabelsFields rest

end

mutual

/-- Whether a filter document fits into a scope: outside of its subqueries it binds only labels of
the scope, and no subquery that counts as uncorrelated binds any of them. Around the subqueries of a
subquery the scope has the labels of that one too. -/
def fitsIn (scope : List String) : Json → Bool
  | .obj fields => fitsInFields scope fields
  | .arr items => fitsInItems scope items
  | _ => true

/-- Whether the items of an array fit into a scope. -/
def fitsInItems (scope : List String) : List Json → Bool
  | [] => true
  | x :: xs => fitsIn scope x && fitsInItems scope xs

/-- Whether the fields of an object fit into a scope. -/
def fitsInFields (scope : List String) : List (String × Json) → Bool
  | [] => true
  | ("#id", .str label) :: rest => scope.contains label && fitsInFields scope rest
  | ("$in", .obj operand) :: rest | ("$nin", .obj operand) :: rest =>
    fitsInOperand scope operand && fitsInFields scope rest
  | (_, v) :: rest => fitsIn scope v && fitsInFields scope rest

/-- Whether the filter of a subquery fits into a scope. -/
def fitsInOperand (scope : List String) : List (String × Json) → Bool
  | [] => true
  | (name, document) :: rest =>
    if name = "filter" then
      (isCorrelated document || (labelsBound document).all fun label => !scope.contains label) &&
        fitsIn (scope ++ openLabels document) document
    else fitsInOperand scope rest

end

variable {scope : List String}

theorem fitsIn_of_item {items : List Json} (h : fitsIn scope (.arr items)) {x : Json}
    (hmem : x ∈ items) : fitsIn scope x := by
  rw [fitsIn] at h
  induction items with
  | nil => cases hmem
  | cons y ys ih =>
    rw [fitsInItems, Bool.and_eq_true] at h
    rcases List.mem_cons.mp hmem with rfl | hmem
    · exact h.1
    · exact ih h.2 hmem

theorem fitsInFields_cons (field : String × Json) (rest : List (String × Json)) :
    fitsInFields scope (field :: rest) =
      (fitsInFields scope [field] && fitsInFields scope rest) := by
  obtain ⟨key, value⟩ := field
  by_cases hid : key = "#id"
  · cases value <;> simp [fitsInFields, hid]
  by_cases hin : key = "$in"
  · cases value <;> simp [fitsInFields, hin]
  by_cases hnin : key = "$nin"
  · cases value <;> simp [fitsInFields, hnin]
  simp [fitsInFields, hid, hin, hnin]

theorem fitsInFields_of_mem {fields : List (String × Json)} (h : fitsInFields scope fields)
    {field : String × Json} (hmem : field ∈ fields) : fitsInFields scope [field] := by
  induction fields with
  | nil => cases hmem
  | cons first rest ih =>
    rw [fitsInFields_cons, Bool.and_eq_true] at h
    rcases List.mem_cons.mp hmem with rfl | hmem
    · exact h.1
    · exact ih h.2 hmem

theorem fitsIn_of_label {fields : List (String × Json)} (h : fitsIn scope (.obj fields))
    {label : String} (hmem : ("#id", .str label) ∈ fields) : label ∈ scope := by
  have h := fitsInFields_of_mem h hmem
  simpa [fitsInFields] using h

theorem fitsIn_of_field {fields : List (String × Json)} (h : fitsIn scope (.obj fields))
    {key : String} {value : Json} (hmem : (key, value) ∈ fields) (hin : key ≠ "$in")
    (hnin : key ≠ "$nin") : fitsIn scope value := by
  have h := fitsInFields_of_mem h hmem
  by_cases hid : key = "#id" <;> cases value <;> simp_all [fitsInFields, fitsIn]

theorem fitsInOperand_of_field {fields : List (String × Json)} (h : fitsIn scope (.obj fields))
    {key : String} {operand : List (String × Json)} (hmem : (key, .obj operand) ∈ fields)
    (hk : key = "$in" ∨ key = "$nin") : fitsInOperand scope operand := by
  have h := fitsInFields_of_mem h hmem
  rcases hk with rfl | rfl <;> simpa [fitsInFields] using h

/-- The filter of a subquery fits into the scope with its own labels. If it counts as uncorrelated,
it avoids all labels around it. -/
theorem fitsIn_of_operand {operand : List (String × Json)} (h : fitsInOperand scope operand)
    {document : Json} (hget : Fields.get? operand "filter" = some document) :
    fitsIn (scope ++ openLabels document) document ∧
      (isCorrelated document = false → Avoids scope document) := by
  induction operand with
  | nil => cases hget
  | cons field rest ih =>
    obtain ⟨name, value⟩ := field
    rw [fitsInOperand] at h
    rw [Fields.get?_cons] at hget
    by_cases hname : name = "filter"
    · rw [if_pos hname.symm] at hget
      cases hget
      rw [if_pos hname, Bool.and_eq_true, Bool.or_eq_true] at h
      refine ⟨h.2, fun hfree => ?_⟩
      have hbound := h.1.resolve_left (by rw [hfree]; exact Bool.false_ne_true)
      intro label hl
      have hnot : label ∉ labelsBound document := fun hin => by
        simpa [hl] using List.all_eq_true.mp hbound label hin
      refine ⟨hnot, fun hread => ?_⟩
      have hcorrelated : isCorrelated document = true :=
        List.any_eq_true.mpr ⟨label, hread, decide_eq_true hnot⟩
      rw [hfree] at hcorrelated
      cases hcorrelated
    · rw [if_neg (Ne.symm hname)] at hget
      rw [if_neg hname] at h
      exact ih h hget

end Filter

namespace Expression

theorem labels_args {items : List Json} {args : List Expression}
    (h : List.Forall₂ (fun x e => ∀ label ∈ e.labels, label ∈ Filter.labelsRead x) items args) :
    ∀ label ∈ unboundList {} args, label ∈ Filter.labelsRead (.arr items) := by
  intro label hl
  induction h with
  | nil => cases hl
  | @cons x _ xs _ harg _ ih =>
    have hread : Filter.labelsRead (.arr (x :: xs)) =
        Filter.labelsRead x ++ Filter.labelsRead (.arr xs) := rfl
    rw [hread]
    rcases List.mem_append.mp hl with hl | hl
    · exact List.mem_append_left _ (harg label hl)
    · exact List.mem_append_right _ (ih hl)

theorem parseCases_labels :
    ParseCases fun document e => ∀ label ∈ e.labels, label ∈ Filter.labelsRead document where
  const _ := nofun
  attr _ := nofun
  ref hlabel _ := by
    intro label hl
    cases List.mem_singleton.mp hl
    rw [Filter.labelsRead, Collects.read.eq_flatMap]
    exact List.mem_flatMap.mpr ⟨_, Fields.mem_of_get? hlabel, List.mem_cons_self⟩
  unary op payload arg e hpayload ih := by
    intro label hl
    refine Collects.read.mem_of_field List.mem_cons_self (Filter.labelsRead_eq payload ▸ ?_)
    rcases hpayload with rfl | rfl
    · exact List.mem_append_left _ (ih label hl)
    · exact ih label hl
  multi op items args _ hargs := fun label hl =>
    Collects.read.mem_of_field List.mem_cons_self
      (Filter.labelsRead_eq (.arr items) ▸ labels_args hargs label hl)

/-- An expression reads no other labels than its document. -/
theorem labels_parse {e : Expression} (value : Json) (h : parse value = .ok e) :
    ∀ label ∈ e.labels, label ∈ Filter.labelsRead value := parseCases_labels.parse value h

end Expression

end EntityStore
