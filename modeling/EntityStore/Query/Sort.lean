import EntityStore.Query.Nesting
import EntityStore.Query.View
import EntityStore.Json.Compare

/-! Sorting of results.

A sorter is a list of items `{"$attr": …, "$direction": "asc" | "desc"}`. A sort key is a column, a
key behind a pointer, or an expression. An expression is hoisted: it is put into the projection
under the first free name `$expr1`, `$expr2`, …, and read back from the projected row. -/

namespace EntityStore

/-- The direction of one sort item. -/
inductive SortDirection where
  | asc
  | desc
deriving DecidableEq

/-- What a sort item compares. -/
inductive SortKey where
  | column (name : String)
  /-- An expression that the projection computes under a name. -/
  | hoisted (name : String)
  /-- A key of the row that a pointer leads to; the projection nests it under `attr`. -/
  | relation (attr : String) (pointer : Pointer) (inner : SortKey)
deriving DecidableEq

/-- A compiled sorter. -/
structure SortPlan where
  keys : List (SortKey × SortDirection)
deriving DecidableEq

namespace SortDirection

/-- The direction of a sort item; ascending if it gives none. -/
def ofItem (item : Json) : Except QueryError SortDirection :=
  match item.field? "$direction" with
  | none => .ok asc
  | some (.str text) =>
    if text = "asc" then .ok asc
    else if text = "desc" then .ok desc
    else .error (.invalid (.sortDirection (.str text)))
  | some other => .error (.invalid (.sortDirection other))

/-- An order in this direction. -/
def apply : SortDirection → Ordering → Ordering
  | asc, o => o
  | desc, o => o.swap

end SortDirection

namespace SortKey

/-- The name `$expr1`, `$expr2`, … with a number. -/
def numberedName (n : Nat) : String := "$expr" ++ natText n

/-- The first name `$expr1`, `$expr2`, … that the projection does not have. One of the first names
is free, since there are more of them than the projection has. -/
def freeName (projection : Fields Json) : String :=
  let names := (List.range (projection.length + 1)).map fun n => numberedName (n + 1)
  (names.find? fun name => !Fields.contains projection name).getD "$expr"

mutual

/-- Whether an expression lies in a sort attribute. -/
def holdsExpression : Json → Bool
  | .obj fields => holdsExpressionFields fields
  | _ => false

/-- Whether an expression lies in one of the fields. -/
def holdsExpressionFields : List (String × Json) → Bool
  | [] => false
  | (key, value) :: rest =>
    Expression.isKey key || holdsExpression value || holdsExpressionFields rest

end

/-- The projection below a pointer, in which a nested key is hoisted. -/
def nestedProjection (projection : Fields Json) (attr : String) : Fields Json :=
  match Fields.get? projection attr with
  | some (.obj nested) => nested
  | _ => []

/-- Compiles a sort attribute. The result comes with the projection into which expressions are
hoisted, also where a fault is found further down. -/
def compile (schema : Schema) (entity : String) (projection : Fields Json) :
    Json → Except QueryError SortKey × Fields Json
  | .obj [(attr, value)] =>
    if Expression.isKey attr then
      match Expression.parse value with
      | .error e => (.error e, projection)
      | .ok _ =>
        let name := freeName projection
        (.ok (.hoisted name), Fields.insert projection name value)
    else
      match QueryError.ofSchema (schema.relation entity attr) with
      | .error e => (.error e, projection)
      | .ok .column => (.ok (.column attr), projection)
      | .ok (.toMany _ _) => (.error (.invalid (.sortOnToMany attr)), projection)
      | .ok (.pointer p) =>
        if holdsExpression value then
          let inner := compile schema p.target (nestedProjection projection attr) value
          (inner.1.map (.relation attr p), Fields.insert projection attr (.obj inner.2))
        else
          ((compile schema p.target [] value).1.map (.relation attr p), projection)
  | _ => (.error (.invalid .sortAttribute), projection)

/-- The value that a row is sorted by. A pointer that leads to no row gives `null`. -/
def extract (v : View) (raw projected : Option Row) : SortKey → Json
  | .column name => (raw.bind (Fields.get? · name)).getD .null
  | .hoisted name => (projected.bind (Fields.get? · name)).getD .null
  | .relation attr pointer inner =>
    let target := raw.bind fun row =>
      match v.follow pointer row with
      | .found target => some target
      | _ => none
    let nested := (projected.bind (Fields.get? · attr)).bind Json.obj?
    extract v target nested inner

end SortKey

namespace SortPlan

/-- Compiles sort items one after the other, each with the projection of those before it. -/
def compileItems (schema : Schema) (entity : String) (projection : Fields Json) :
    List Json → Except QueryError (List (SortKey × SortDirection)) × Fields Json
  | [] => (.ok [], projection)
  | item :: rest =>
    match item.field? "$attr" with
    | none => (.error (.invalid .sortItem), projection)
    | some attr =>
      match SortDirection.ofItem item with
      | .error e => (.error e, projection)
      | .ok direction =>
        let first := SortKey.compile schema entity projection attr
        match first.1 with
        | .error e => (.error e, first.2)
        | .ok key =>
          let others := compileItems schema entity first.2 rest
          (others.1.map ((key, direction) :: ·), others.2)

/-- Compiles a sorter. The result comes with the projection into which expressions are hoisted. -/
def compile (schema : Schema) (entity : String) (sorter : Json) (projection : Fields Json) :
    Except QueryError SortPlan × Fields Json :=
  match sorter with
  | .arr items =>
    let compiled := compileItems schema entity projection items
    (compiled.1.map .mk, compiled.2)
  | _ => (.error (.invalid .sorterNotArray), projection)

/-- The order of two lists of key values, the first difference deciding. -/
def compareKeys : List SortDirection → List Json → List Json → Ordering
  | direction :: directions, a :: as, b :: bs =>
    (direction.apply (a.compare b)).then (compareKeys directions as bs)
  | _, _, _ => .eq

/-- The key values of a row. -/
def keysOf (plan : SortPlan) (v : View) (raw projected : Row) : List Json :=
  plan.keys.map fun (key, _) => key.extract v (some raw) (some projected)

/-- The order of two lists of key values under the directions of the plan. -/
def order (plan : SortPlan) (a b : List Json) : Ordering :=
  compareKeys (plan.keys.map (·.2)) a b

/-- Sorts projected rows that belong to the raw rows at the same places. Rows with equal keys stay
in their order. -/
def sort (plan : SortPlan) (v : View) (raw projected : List Row) : List Row :=
  let decorated := (raw.zip projected).map fun (r, p) => (plan.keysOf v r p, p)
  (decorated.mergeSort fun a b => (plan.order a.1 b.1).isLE).map (·.2)

end SortPlan

/-! Hoisting does not raise the one-to-many nesting of a projection. -/

theorem Schema.splitBackReference?_of_pointer {s : Schema} {entity attr : String} {p : Pointer}
    (h : s.relation entity attr = .ok (.pointer p)) : splitBackReference? attr = none := by
  unfold Schema.relation at h
  cases he : s.entity entity with
  | error e => simp [he, bind, Except.bind] at h
  | ok e =>
    simp only [he, bind, Except.bind] at h
    split at h
    · simp at h
    · split at h
      · rename_i hs
        exfalso
        unfold Schema.backReference at h
        simp only [bind, Except.bind] at h
        split at h
        · simp at h
        · split at h
          · split at h
            · split at h <;> simp at h
            · simp at h
          · split at h
            · split at h <;> simp at h
            · simp at h
      · assumption

theorem Schema.splitBackReference?_of_toMany {s : Schema} {entity attr target : String}
    {back : Option String} (h : s.relation entity attr = .ok (.toMany target back)) :
    (splitBackReference? attr).isSome = true := by
  unfold Schema.relation at h
  cases he : s.entity entity with
  | error e => simp [he, bind, Except.bind] at h
  | ok e =>
    simp only [he, bind, Except.bind] at h
    split at h
    · simp at h
    · split at h
      · rename_i hs; simp [hs]
      · exfalso
        split at h
        · simp at h
        · simp at h
        · split at h
          · simp at h
          · split at h <;> simp at h

theorem QueryError.of_ofSchema {α : Type} {r : Except SchemaError α} {a : α}
    (h : ofSchema r = .ok a) : r = .ok a := by
  cases r <;> simp_all [ofSchema]

open Json in
theorem SortKey.nestingFields_nestedProjection_le (projection : Fields Json) {attr : String}
    (hb : splitBackReference? attr = none) (hk : Expression.isKey attr = false) :
    nestingFields (nestedProjection projection attr) ≤ nestingFields projection := by
  unfold nestedProjection
  split
  · rename_i nested h
    have := nestingField_le (Fields.mem_of_get? h)
    simpa [nestingField, hb, hk, nesting] using this
  · simp [nestingFields]

theorem SortKey.isKey_numberedName (n : Nat) : Expression.isKey (numberedName n) = true := by
  have h : (numberedName n).toList = "$expr".toList ++ Nat.toDigits 10 n := by
    simp [numberedName, natText]
  have hdrop : ("$expr".toList ++ Nat.toDigits 10 n).drop 5 = Nat.toDigits 10 n :=
    List.drop_left' (by decide)
  rw [Expression.isKey, h, hdrop]
  simp only [Bool.and_eq_true, List.isPrefixOf_iff_prefix, List.prefix_append, true_and,
    List.all_eq_true]
  exact fun c hc => Nat.isDigit_of_mem_toDigits (by decide) (by decide) hc

theorem SortKey.isKey_freeName (projection : Fields Json) :
    Expression.isKey (freeName projection) = true := by
  simp only [freeName]
  generalize h : List.find? _ _ = found
  cases found with
  | none => rw [Option.getD_none]; decide
  | some name =>
    obtain ⟨n, _, rfl⟩ := List.mem_map.mp (List.mem_of_find?_eq_some h)
    rw [Option.getD_some]
    exact isKey_numberedName _

open Json in
theorem SortKey.nestingFields_compile_le (schema : Schema) (entity : String)
    (projection : Fields Json) (spec : Json) :
    nestingFields (compile schema entity projection spec).2 ≤ nestingFields projection := by
  fun_induction compile schema entity projection spec with
  | case2 _ projection _ value _ _ _ name =>
    have := nestingFields_insert_le projection name value
    simp only [nestingField, name, isKey_freeName, if_true] at this
    simpa using this
  | case6 entity projection attr value hk p hr _ inner ih =>
    have hb := Schema.splitBackReference?_of_pointer (QueryError.of_ofSchema hr)
    have hk : Expression.isKey attr = false := by simpa using hk
    have hn := nestingFields_nestedProjection_le projection hb hk
    have hi := nestingFields_insert_le projection attr (.obj inner.2)
    simp only [nestingField, hb, hk, nesting] at hi
    simp at hi ⊢
    have hle : nestingFields inner.2 ≤ nestingFields (nestedProjection projection attr) := ih
    omega
  | case1 | case3 | case4 | case5 | case7 | case8 => simp

open Json in
theorem SortPlan.nestingFields_compileItems_le (schema : Schema) (entity : String)
    (projection : Fields Json) (items : List Json) :
    nestingFields (compileItems schema entity projection items).2 ≤ nestingFields projection := by
  fun_induction compileItems schema entity projection items with
  | case4 projection _ _ attr _ _ _ first =>
    exact SortKey.nestingFields_compile_le schema entity projection attr
  | case5 projection _ _ attr _ _ _ first _ _ others ih =>
    exact Nat.le_trans ih (SortKey.nestingFields_compile_le schema entity projection attr)
  | case1 | case2 | case3 => simp

/-- The projection of a compiled sorter nests no deeper than the projection it began with. -/
theorem SortPlan.nestingFields_compile_le (schema : Schema) (entity : String) (sorter : Json)
    (projection : Fields Json) :
    Json.nestingFields (compile schema entity sorter projection).2 ≤
      Json.nestingFields projection := by
  unfold compile
  split
  · exact nestingFields_compileItems_le schema entity projection _
  · exact Nat.le_refl _

end EntityStore
