import EntityStore.Proofs.Query.Structural
import EntityStore.Proofs.Store.Serial

/-! Structural errors of a store. A select with a structural error has either a selection that no
store with the schema answers, or a projection that fails wherever a row gets to it
(`Store.select_structural`). Whether a row gets there depends on what is stored: where none does,
the same select succeeds (`Store.select_unnoticed`). -/

namespace EntityStore

/-- Every row that anybody sees has a text as its id. -/
theorem Storage.Keyed.named {s : Storage} (K : s.Keyed) (schema : Schema) (txn : Option TxnId) :
    (s.view schema txn).Named := fun key _ hrow => ⟨key.id, K.get?_id schema hrow⟩

namespace Store

variable {s : Store} {caller : Option TxnId} {entity : String} {selection : Selection}
  {option : SelectOption}

/-- What a select gives is the result of its query. -/
theorem result_select (s : Store) (caller : Option TxnId) (entity : String) (selection : Selection)
    (option : SelectOption) : (s.select caller entity selection option).1 =
      ((s.view caller).select entity selection option).result.mapError .query := by
  rw [select_eq]
  have hdet := (s.view caller).select_determined entity selection option s.work {}
  exact congrArg (Except.mapError StoreError.query) hdet

theorem result_eq_ok {rows : List Row}
    (h : (s.select caller entity selection option).1 = .ok rows) :
    ((s.view caller).select entity selection option).result = .ok rows := by
  rw [result_select] at h
  exact mapError_eq_ok.mp h

theorem named_run (schema : Schema) (config : Config) {calls : List Call}
    (hfresh : Call.Fresh calls) (hunique : ∀ call ∈ calls, call.Unique) (reader : Option TxnId) :
    ((({ schema, config } : Store).run calls).view reader).Named :=
  have S := serial_run schema config hfresh hunique
  S.keyed.named (({ schema, config } : Store).run calls).schema reader

/-- A select fails with a structural error only for one of two reasons: the entity is unknown or the
filter or the sorter does not compile, and then no store with the schema answers the select, or some
row gets to a projection that does not compile, and then no store answers it in which a row gets to
that projection. -/
theorem select_structural (schema : Schema) (config : Config) {calls : List Call}
    (hfresh : Call.Fresh calls) (hunique : ∀ call ∈ calls, call.Unique) {caller : Option TxnId}
    {entity : String} {selection : Selection} {option : SelectOption} {e : StoreError}
    (he : e.kind = .structural) :
    let s := ({ schema, config } : Store).run calls
    (s.select caller entity selection option).1 = .error e →
      (∀ (s' : Store) reader, s'.schema = schema →
        ∀ rows, (s'.select reader entity selection option).1 ≠ .ok rows) ∨
      ∃ target projection,
        (s.view caller).Projects entity selection option target projection ∧
          ∀ config' calls', Call.Fresh calls' → (∀ call ∈ calls', call.Unique) → ∀ reader,
            let s' := ({ schema, config := config' } : Store).run calls'
            (s'.view reader).Projects entity selection option target projection →
              ∀ rows, (s'.select reader entity selection option).1 ≠ .ok rows := by
  intro s h
  have hschema : (s.view caller).schema = schema := schema_run _ calls
  rw [result_select] at h
  obtain ⟨error, herror, rfl⟩ := mapError_eq_error.mp h
  have hstructural := StoreError.kind_query.mp he
  have hnamed := named_run schema config hfresh hunique caller
  rcases View.exists_of_structural hnamed hstructural herror with
    hcompiles | ⟨target, projection, hprojects, hcompiles⟩
  · refine .inl fun s' reader hs' rows hrows => hcompiles ?_
    have hc := View.compiles_of_select (result_eq_ok hrows)
    rw [hschema, ← hs']
    exact hc
  · refine .inr ⟨target, projection, hprojects, fun config' calls' hfresh' hunique' reader => ?_⟩
    intro s' hprojects' rows hrows
    have hschema' : (s'.view reader).schema = schema := schema_run _ calls'
    have hc := View.compiles_of_projects (named_run schema config' hfresh' hunique' reader)
      (result_eq_ok hrows) hprojects'
    rw [hschema'] at hc
    rw [hschema] at hcompiles
    exact hcompiles hc

/-- A user who is their own boss, asked for an attribute of the boss that users do not have. A store
without users answers the select, so the reason is the projection, and no store answers it in which
a row gets there. -/
theorem select_structural_boss :
    let user : Entity :=
      { attributes := Std.ExtTreeMap.ofList [("boss", { type := .ref "user" })] compare }
    let schema : Schema := { entities := Std.ExtTreeMap.ofList [("user", user)] compare }
    let a : TxnId := ⟨1, "a"⟩
    let create : Call :=
      .mutate (some a) "user" (.create (.obj [("id", .str "u1"), ("bossId", .str "u1")])) false
    let calls : List Call := [.begin a, create]
    let s := ({ schema } : Store).run calls
    let selection : Selection := { data := [("boss", .obj [("nope", .ofNat 1)])] }
    let e : StoreError := .query (.schema (.unknownAttribute "user" "nope"))
    Call.Fresh calls ∧ (∀ call ∈ calls, call.Unique) ∧ e.kind = .structural ∧
      (s.select (some a) "user" selection {}).1 = .error e ∧
        ∃ target projection, (s.view (some a)).Projects "user" selection {} target projection ∧
          ∀ config' calls', Call.Fresh calls' → (∀ call ∈ calls', call.Unique) → ∀ reader,
            let s' := ({ schema, config := config' } : Store).run calls'
            (s'.view reader).Projects "user" selection {} target projection →
              ∀ rows, (s'.select reader "user" selection {}).1 ≠ .ok rows := by
  intro user schema a create calls s selection e
  have hfresh : Call.Fresh calls := by decide
  have hunique : ∀ call ∈ calls, call.Unique := by
    simp [calls, create, Call.Unique, Operation.Unique, Operation.create, Json.UniqueRows,
      Json.rows, Fields.names]
  have hdeclared : schema.entity "user" = .ok user := rfl
  have hempty : (({ schema } : Store).select none "user" selection {}).1 = .ok [] := by
    have hscan : (({ schema } : Store).view none).scan "user" = [] := by decide +kernel
    rw [result_select, View.result_select_of_scan_nil (.of_declared hdeclared _ _) hscan]
    rfl
  have herror : (s.select (some a) "user" selection {}).1 = .error e := by
    have hnope : Projected.ofField schema "user" "nope" (.ofNat 1) =
        .error (.schema (.unknownAttribute "user" "nope")) := rfl
    have hboss : Projected.ofField schema "user" "boss" (.obj [("nope", .ofNat 1)]) =
        .ok (.pointer (.foreignKey "user" "bossId") [("nope", .ofNat 1)]) := rfl
    have hscan : (s.view (some a)).scan "user" = [[("id", .str "u1"), ("bossId", .str "u1")]] := by
      decide +kernel
    have hrow : (s.view (some a)).row? "user" "u1" =
        some [("id", .str "u1"), ("bossId", .str "u1")] := by decide +kernel
    have hfollow : (s.view (some a)).follow (.foreignKey "user" "bossId")
        [("id", .str "u1"), ("bossId", .str "u1")] =
          .found [("id", .str "u1"), ("bossId", .str "u1")] :=
      View.follow_of_row? (by decide) hrow
    have hschema : (s.view (some a)).schema = schema := schema_run _ calls
    rw [← hschema] at hnope hboss hdeclared
    have hselect : ((s.view (some a)).select "user" selection {}).result =
        .error (.schema (.unknownAttribute "user" "nope")) :=
      View.result_select_of_project hdeclared hscan
        (View.result_project_of_follow rfl (by decide) hboss hfollow
          (View.result_project_of_ofField rfl (by decide) hnope))
    rw [result_select, hselect]
    rfl
  refine ⟨hfresh, hunique, rfl, herror, ?_⟩
  rcases select_structural schema {} hfresh hunique rfl herror with hnone | hplace
  · exact absurd hempty (hnone _ none rfl [])
  · exact hplace

/-- A column that the entity does not have goes unnoticed as long as there are no users. -/
theorem select_unnoticed :
    let user : Entity :=
      { attributes := Std.ExtTreeMap.ofList [("name", { type := .string })] compare }
    let schema : Schema := { entities := Std.ExtTreeMap.ofList [("user", user)] compare }
    let a : TxnId := ⟨1, "a"⟩
    let create : Call :=
      .mutate (some a) "user" (.create (.obj [("id", .str "u1"), ("name", .str "ann")])) false
    let s : Store := { schema }
    let s' := s.run [.begin a, create]
    let selection : Selection := { data := [("nope", .ofNat 1)] }
    let e : StoreError := .query (.schema (.unknownAttribute "user" "nope"))
    (s.select none "user" selection {}).1 = .ok [] ∧
      (s'.select (some a) "user" selection {}).1 = .error e ∧ e.kind = .structural := by
  intro user schema a create s s' selection e
  have hdeclared : schema.entity "user" = .ok user := rfl
  refine ⟨?_, ?_, rfl⟩
  · have hscan : (s.view none).scan "user" = [] := by decide +kernel
    rw [result_select, View.result_select_of_scan_nil (.of_declared hdeclared _ _) hscan]
    rfl
  · have hnope : Projected.ofField schema "user" "nope" (.ofNat 1) =
        .error (.schema (.unknownAttribute "user" "nope")) := rfl
    have hscan : (s'.view (some a)).scan "user" = [[("id", .str "u1"), ("name", .str "ann")]] := by
      decide +kernel
    have hschema : (s'.view (some a)).schema = schema := schema_run _ _
    rw [← hschema] at hnope hdeclared
    have hselect : ((s'.view (some a)).select "user" selection {}).result =
        .error (.schema (.unknownAttribute "user" "nope")) :=
      View.result_select_of_project hdeclared hscan
        (View.result_project_of_ofField rfl (by decide) hnope)
    rw [result_select, hselect]
    rfl

end Store

end EntityStore
