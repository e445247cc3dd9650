import Mathlib.Control.Monad.Basic
import EntityStore.Proofs.Query.EagerSelect
import EntityStore.Proofs.Store.Serial

/-! Eager subqueries of a store. Whether uncorrelated subqueries are computed once or for every row
anew makes no difference to a select as long as no such subquery writes a label that is in use
around it (`Store.select_eager`). Where one does, even in a constant, it does make a difference
(`Store.select_eager_of_constant`). -/

namespace EntityStore

/-- Every row that anybody sees has a text for its id. -/
theorem Storage.Keyed.identified {s : Storage} (K : s.Keyed) (schema : Schema)
    (txn : Option TxnId) : (s.view schema txn).Identified := by
  intro key row hrow id hid
  rw [K.get?_id schema hrow] at hid
  exact ⟨key.id, (Option.some.inj hid).symm⟩

namespace Store

/-- The store with the eager computation of subqueries switched on or off. -/
def eager (s : Store) (on : Bool) : Store :=
  { s with config := { s.config with eagerSubqueries := on } }

/-- A select gives the same rows or the same error with and without eager subqueries. No subquery
that counts as uncorrelated may write a label that is in use around it: one that the filter around
it writes, that a projection binds, or that is bound or obscured from the start. -/
theorem select_eager (schema : Schema) (config : Config) {calls : List Call}
    (hfresh : Call.Fresh calls) (hunique : ∀ call ∈ calls, call.Unique) {scope : List String}
    {entity : String} {selection : Selection} {option : SelectOption}
    (hselection : selection.FitsIn schema scope entity) (hoption : option.bindings.Within scope)
    (caller : Option TxnId) :
    let s := ({ schema, config } : Store).run calls
    ((s.eager true).select caller entity selection option).1 =
      ((s.eager false).select caller entity selection option).1 := by
  intro s
  have S := serial_run schema config hfresh hunique
  have hv : (s.view caller).Identified := S.keyed.identified s.schema caller
  have hfit : selection.FitsIn (s.view caller).schema scope entity := by
    have hschema : (s.view caller).schema = schema := schema_run _ calls
    rw [hschema]
    exact hselection
  have hsame := (View.select_coincide hv entity selection option hfit hoption s.work s.work).1
  exact congrArg (Except.mapError StoreError.query) hsame

/-- A subquery with a label of its own, below a filter with another one. -/
theorem select_eager_apart :
    let note : Entity :=
      { attributes := Std.ExtTreeMap.ofList [("tag", { type := .string })] compare }
    let schema : Schema := { entities := Std.ExtTreeMap.ofList [("note", note)] compare }
    let a : TxnId := ⟨1, "a"⟩
    let create : Call :=
      .mutate (some a) "note" (.create (.obj [("id", .str "x"), ("tag", .str "t")])) false
    let s := ({ schema } : Store).run [.begin a, create]
    let read : Json := .obj [("$eq", .arr [.obj [("#refId", .str "i"), ("#refAttr", .str "id")],
      .str "x"])]
    let filter : Json := .obj [("#id", .str "o"), ("tag", .obj [("$in", .obj
      [("entity", .str "note"), ("data", .obj [("tag", .ofNat 1)]),
        ("filter", .obj [("#id", .str "i"), ("$expr", read)])])])]
    let selection : Selection := { data := [("id", .ofNat 1)], filter := some filter }
    selection.FitsIn schema [] "note" ∧
      ((s.eager true).select (some a) "note" selection {}).1 =
        ((s.eager false).select (some a) "note" selection {}).1 := by
  intro note schema a create s read filter selection
  have hfresh : Call.Fresh [.begin a, create] := by decide
  have hunique : ∀ call ∈ [.begin a, create], call.Unique := by
    simp [create, Call.Unique, Operation.Unique, Operation.create, Json.UniqueRows, Json.rows,
      Fields.names]
  have hselection : selection.FitsIn schema [] "note" :=
    View.fitsIn_idSelection schema "note" (by decide)
  have hoption : Bindings.Within {} [] := .empty _
  exact ⟨hselection, select_eager schema {} hfresh hunique hselection hoption (some a)⟩

/-- The constant that the tags are compared with makes the subquery count as uncorrelated, although
it reads the label of the order. Computed for every row it finds the order of an item; computed once
it reads a label that nothing binds. -/
theorem select_eager_of_constant :
    let text : Attribute := { type := .string }
    let order : Entity := { attributes := Std.ExtTreeMap.ofList [("code", text)] compare }
    let item : Entity :=
      { attributes := Std.ExtTreeMap.ofList [("orderCode", text), ("tag", text)] compare }
    let schema : Schema :=
      { entities := Std.ExtTreeMap.ofList [("order", order), ("item", item)] compare }
    let a : TxnId := ⟨1, "a"⟩
    let create (entity : String) (row : Row) : Call :=
      .mutate (some a) entity (.create (.obj row)) false
    let s := ({ schema } : Store).run [.begin a,
      create "order" [("id", .str "o1"), ("code", .str "x")],
      create "order" [("id", .str "o2"), ("code", .str "y")],
      create "item" [("id", .str "i1"), ("orderCode", .str "x"), ("tag", .str "t")], .commit a]
    let read : Json := .obj [("$eq", .arr [.obj [("#attr", .str "orderCode")],
      .obj [("#refId", .str "o"), ("#refAttr", .str "code")]])]
    let filter : Json := .obj [("#id", .str "o"), ("code", .obj [("$in", .obj
      [("entity", .str "item"), ("data", .obj [("orderCode", .ofNat 1)]), ("filter", .obj
        [("tag", .obj [("$ne", .obj [("#id", .str "o")])]), ("$expr", read)])])])]
    let selection : Selection := { data := [("id", .ofNat 1)], filter := some filter }
    ((s.eager true).select none "order" selection {}).1 = .error (.query (.unresolved "o")) ∧
      ((s.eager false).select none "order" selection {}).1 = .ok [[("id", .str "o1")]] := by
  intro text order item schema a create s read filter selection
  have hresult (s : Store) : (s.select none "order" selection {}).1 =
      ((exec ((s.view none).matching "order" selection {}) s.work).1.map fun rows =>
        rows.map fun row => Projected.copyColumns ["id"] row []).mapError .query :=
    congrArg (Except.mapError StoreError.query)
      (View.result_select_idSelection (s.view none) "order" (some filter) s.work)
  have heager : (exec (((s.eager true).view none).matching "order" selection {})
      (s.eager true).work).1 = .error (.unresolved "o") := by decide +kernel
  have hlazy : (exec (((s.eager false).view none).matching "order" selection {})
      (s.eager false).work).1 = .ok [[("id", .str "o1"), ("code", .str "x")]] := by decide +kernel
  rw [hresult, hresult, heager, hlazy]
  exact ⟨rfl, rfl⟩

end Store

end EntityStore
