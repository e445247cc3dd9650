import EntityStore.Proofs.Store.Hydration

/-! What becomes of a row that is created. A create that may find its row fails just when another
transaction owns the row, and else the row is absorbed by the one that is seen. A create that may
not find its row succeeds just when nothing is stored under the key. Nothing else is touched
(`Store.create_outcomes`). -/

namespace EntityStore

namespace Storage

variable {s : Storage} {txn owner : TxnId} {key k : RowKey} {n : Node}

/-- The transaction has created the row and not committed it. -/
def Creates (s : Storage) (txn : TxnId) (key : RowKey) : Prop :=
  ∃ n, s.node? key = some n ∧ n.owner = some txn ∧ n.current = none

/-- A conflict about one row is about its owner. -/
theorem conflict?_singleton_eq_some :
    s.conflict? txn [key] = some (k, owner) ↔ k = key ∧ s.Owns owner key ∧ owner ≠ txn := by
  unfold conflict? Owns
  rw [List.findSome?_cons, List.findSome?_nil]
  cases hn : s.node? key with
  | none => simp
  | some n =>
    cases ho : n.owner with
    | none => simp [ho]
    | some o =>
      by_cases he : o = txn
      · simp only [Option.bind_some, ho, he, if_true]
        refine ⟨nofun, ?_⟩
        rintro ⟨-, ⟨m, hm, hmo⟩, hne⟩
        cases hm
        cases ho.symm.trans hmo
        exact absurd he hne
      · simp only [Option.bind_some, ho, he, if_false, Option.some.injEq, Prod.mk.injEq]
        constructor
        · rintro ⟨rfl, rfl⟩
          exact ⟨rfl, ⟨n, rfl, ho⟩, he⟩
        · rintro ⟨rfl, ⟨m, hm, hmo⟩, -⟩
          cases hm
          exact ⟨rfl, Option.some.inj (ho.symm.trans hmo)⟩

theorem conflict?_eq_none_of_unowned (h : ¬ ∃ owner, s.Owns owner key ∧ owner ≠ txn) :
    s.conflict? txn [key] = none := by
  refine Option.eq_none_iff_forall_ne_some.mpr fun ⟨k, owner⟩ hc => h ?_
  exact ⟨owner, (conflict?_singleton_eq_some.mp hc).2⟩

theorem Creates.owns (h : s.Creates owner key) : s.Owns owner key := by
  obtain ⟨n, hn, ho, -⟩ := h
  exact ⟨n, hn, ho⟩

/-- Nobody sees what another transaction has created. -/
theorem Creates.visible (h : s.Creates owner key) (hne : owner ≠ txn) :
    s.visible key (some txn) = none := by
  obtain ⟨n, hn, ho, hc⟩ := h
  have hother : n.owner ≠ some txn := fun he => hne (Option.some.inj (ho.symm.trans he))
  rw [Storage.visible, hn, Option.bind_some, Node.visible_of_owner_ne hother, hc]

/-- What is owned by another transaction and not seen has been created by it. -/
theorem Owns.creates (h : s.Owns owner key) (hne : owner ≠ txn)
    (hv : s.visible key (some txn) = none) : s.Creates owner key := by
  obtain ⟨n, hn, ho⟩ := h
  have hother : n.owner ≠ some txn := fun he => hne (Option.some.inj (ho.symm.trans he))
  rw [Storage.visible, hn, Option.bind_some, Node.visible_of_owner_ne hother] at hv
  exact ⟨n, hn, ho, hv⟩

end Storage

namespace Command

variable {s : Storage} {txn owner : TxnId} {entity id : String} {row : Row} {n : Node}

theorem creation_of_node?_eq_none (hid : idOf? row = some id)
    (h : s.node? ⟨entity, id⟩ = none) (allowExists : Bool) :
    creation s txn entity allowExists row = .ok (⟨entity, id⟩, .put row) := by
  rw [creation, hid]
  dsimp only
  rw [h]

/-- A create changes the row that it creates. -/
theorem key_of_creation (hid : idOf? row = some id) {allowExists : Bool} {key : RowKey}
    {c : RowChange} (h : creation s txn entity allowExists row = .ok (key, c)) :
    key = ⟨entity, id⟩ := by
  rw [creation, hid] at h
  dsimp only at h
  split at h
  · cases h
    rfl
  · split at h <;> cases h <;> rfl

/-- A row that may exist is locked just when another transaction owns it. -/
theorem creation_eq_error_iff (hid : idOf? row = some id) {error : StoreError} :
    creation s txn entity true row = .error error ↔
      ∃ owner, (s.Owns owner ⟨entity, id⟩ ∧ owner ≠ txn) ∧
        error = .rowLocked ⟨entity, id⟩ owner := by
  rw [creation_eq s txn entity hid]
  cases hc : s.conflict? txn [⟨entity, id⟩] with
  | none =>
    refine ⟨nofun, ?_⟩
    rintro ⟨owner, hforeign, -⟩
    cases hc.symm.trans (Storage.conflict?_singleton_eq_some.mpr ⟨rfl, hforeign⟩)
  | some conflict =>
    obtain ⟨k, owner⟩ := conflict
    obtain ⟨rfl, hforeign⟩ := Storage.conflict?_singleton_eq_some.mp hc
    constructor
    · intro h
      cases h
      exact ⟨owner, hforeign, rfl⟩
    · rintro ⟨other, hother, rfl⟩
      cases hc.symm.trans (Storage.conflict?_singleton_eq_some.mpr ⟨rfl, hother⟩)
      rfl

/-- A row that may not exist is refused if it is stored. If another transaction has created it, it
is locked; else the error has the row that is seen, or the committed one. -/
theorem creation_of_node?_eq_some (txn : TxnId) (hid : idOf? row = some id)
    (hn : s.node? ⟨entity, id⟩ = some n) :
    (∀ owner, s.Creates owner ⟨entity, id⟩ → owner ≠ txn →
      creation s txn entity false row = .error (.rowLocked ⟨entity, id⟩ owner)) ∧
    ((¬ ∃ owner, s.Creates owner ⟨entity, id⟩ ∧ owner ≠ txn) →
      creation s txn entity false row = .error (.rowExists ⟨entity, id⟩
        (((s.visible ⟨entity, id⟩ (some txn)).or n.current).getD []))) := by
  have hsee : s.visible ⟨entity, id⟩ (some txn) = n.visible (some txn) := by
    rw [Storage.visible, hn, Option.bind_some]
  rw [creation, hid]
  dsimp only
  rw [hn]
  dsimp only
  constructor
  · intro owner hcreates hne
    have hown : s.Owns owner ⟨entity, id⟩ := hcreates.owns
    rw [← hsee, hcreates.visible hne, Storage.conflict?_singleton_eq_some.mpr ⟨rfl, hown, hne⟩]
  · intro hnone
    rw [hsee]
    cases hv : n.visible (some txn) with
    | some existing => rfl
    | none =>
      have hfree : s.conflict? txn [⟨entity, id⟩] = none := by
        refine Storage.conflict?_eq_none_of_unowned ?_
        rintro ⟨owner, hown, hne⟩
        exact hnone ⟨owner, hown.creates hne (hsee.trans hv), hne⟩
      rw [hfree]
      rfl

theorem exists_creation_eq_error (txn : TxnId) (hid : idOf? row = some id)
    (hn : s.node? ⟨entity, id⟩ = some n) :
    ∃ error, creation s txn entity false row = .error error := by
  obtain ⟨hlocked, hexists⟩ := creation_of_node?_eq_some txn hid hn
  by_cases hborn : ∃ owner, s.Creates owner ⟨entity, id⟩ ∧ owner ≠ txn
  · obtain ⟨owner, hcreates, hne⟩ := hborn
    exact ⟨_, hlocked owner hcreates hne⟩
  · exact ⟨_, hexists hborn⟩

/-- A row that may not exist can be created just when it is not stored. -/
theorem creation_false_eq_error_iff (hid : idOf? row = some id) {error : StoreError} :
    creation s txn entity false row = .error error ↔
      (∃ owner, (s.Creates owner ⟨entity, id⟩ ∧ owner ≠ txn) ∧
        error = .rowLocked ⟨entity, id⟩ owner) ∨
      ∃ n, s.node? ⟨entity, id⟩ = some n ∧
        (¬ ∃ owner, s.Creates owner ⟨entity, id⟩ ∧ owner ≠ txn) ∧
        error = .rowExists ⟨entity, id⟩
          (((s.visible ⟨entity, id⟩ (some txn)).or n.current).getD []) := by
  cases hn : s.node? ⟨entity, id⟩ with
  | none =>
    rw [creation_of_node?_eq_none hid hn]
    refine ⟨nofun, ?_⟩
    rintro (⟨owner, ⟨⟨n, hstored, -⟩, -⟩, -⟩ | ⟨n, hstored, -⟩)
    · cases hn.symm.trans hstored
    · cases hstored
  | some n =>
    obtain ⟨hlocked, hexists⟩ := creation_of_node?_eq_some txn hid hn
    by_cases hborn : ∃ owner, s.Creates owner ⟨entity, id⟩ ∧ owner ≠ txn
    · obtain ⟨owner, hcreates, hne⟩ := hborn
      rw [hlocked owner hcreates hne]
      constructor
      · intro h
        cases h
        exact .inl ⟨owner, ⟨hcreates, hne⟩, rfl⟩
      · rintro (⟨other, ⟨hother, -⟩, rfl⟩ | ⟨-, -, hnone, -⟩)
        · rw [hcreates.owns.unique hother.owns]
        · exact absurd ⟨owner, hcreates, hne⟩ hnone
    · rw [hexists hborn]
      constructor
      · intro h
        cases h
        exact .inr ⟨n, rfl, hborn, rfl⟩
      · rintro (⟨owner, hforeign, -⟩ | ⟨m, hm, -, rfl⟩)
        · exact absurd ⟨owner, hforeign⟩ hborn
        · cases hm
          rfl

end Command

namespace Store

variable {s : Store} {calls : List Call} {txn : TxnId} {entity id : String} {e : Entity}
  {row : Row} {allowExists : Bool}

/-- A create of one row makes the change that it is to make, or fails and changes nothing. -/
theorem mutate_creation (hopen : (s.storage.transaction? txn).isSome)
    (hentity : s.schema.entity entity = .ok e) (row : Row) (allowExists : Bool) :
    let r := s.mutate (some txn) entity (.create (.obj row)) allowExists
    let made := Command.creation s.storage txn entity allowExists row
    r.1 = made.map (fun _ => 1) ∧
      r.2.storage = match made with
        | .ok (key, c) => s.storage.change txn key c
        | .error _ => s.storage := by
  intro r made
  obtain ⟨hresult, hsame⟩ :=
    mutate_create (p := { store := s }) (.refl s) hopen hentity row allowExists
  have hr : r.1 = _ := hresult
  have hstorage : r.2.storage = _ := hsame.storage
  rw [hr, hstorage, Command.exec_createRow_eq]
  change _ ∧ _ = match made with | .ok (key, c) => _ | .error _ => _
  have hmade : Command.creation s.storage txn entity allowExists row = made := rfl
  dsimp only
  rw [hmade]
  cases made with
  | ok change => exact ⟨rfl, rfl⟩
  | error error =>
    obtain ⟨w, hw⟩ := ({ store := s } : Progress).fail_eq_withWork error
    dsimp only
    rw [hw]
    exact ⟨rfl, rfl⟩

/-- A change that the store accepts and that is to be made of a free row gives the row that the
transaction sees from then on. -/
theorem visible_mutate_creation {key : RowKey} {c : RowChange} (H : s.storage.Ledger)
    (K : s.storage.Keyed) (hopen : (s.storage.transaction? txn).isSome)
    (hentity : s.schema.entity entity = .ok e)
    (hfree : ¬ ∃ owner, s.storage.Owns owner key ∧ owner ≠ txn)
    (ha : s.storage.Accepts txn key c)
    (hc : Command.creation s.storage txn entity allowExists row = .ok (key, c)) :
    let r := s.mutate (some txn) entity (.create (.obj row)) allowExists
    r.1 = .ok 1 ∧
      r.2.storage.visible key (some txn) = c.apply (s.storage.visible key (some txn)) := by
  intro r
  have hnone := Storage.conflict?_eq_none_iff.mp (Storage.conflict?_eq_none_of_unowned hfree)
  have hpermits : s.storage.Permits txn key := ⟨hopen, hnone key (List.mem_singleton_self key)⟩
  obtain ⟨hresult, hstorage⟩ := mutate_creation hopen hentity row allowExists
  rw [hc] at hresult hstorage
  refine ⟨hresult, ?_⟩
  have hr : r.2.storage = s.storage.change txn key c := hstorage
  rw [hr, Storage.visible_change_self H K hpermits ha, if_pos rfl]

/-- A create of one row touches no other row. -/
theorem node?_mutate_creation (hopen : (s.storage.transaction? txn).isSome)
    (hentity : s.schema.entity entity = .ok e) (hid : Command.idOf? row = some id)
    {other : RowKey} (hne : other ≠ ⟨entity, id⟩) :
    (s.mutate (some txn) entity (.create (.obj row)) allowExists).2.storage.node? other =
      s.storage.node? other := by
  rw [(mutate_creation hopen hentity row allowExists).2]
  split
  · rename_i k c hc
    cases Command.key_of_creation hid hc
    rw [Storage.node?_change, if_neg hne]
  · rfl

/-- What a create of one row in an open transaction comes to. If the row may exist, the create fails
just when another transaction owns the row, and names that owner; else the row is absorbed by the
one that the transaction saw. If the row may not exist, the create succeeds just when nothing is
stored under its key, and the transaction sees the row; else it is locked by the other transaction
that has created it, or refused as existing. No other row is touched. -/
theorem create_outcomes (schema : Schema) (config : Config) (hfresh : Call.Fresh calls)
    (hunique : ∀ call ∈ calls, call.Unique) (hentity : schema.entity entity = .ok e)
    (hu : (Fields.names row).Nodup) (hid : Fields.get? row "id" = some (.str id)) :
    let s := ({ schema, config } : Store).run calls
    (s.storage.transaction? txn).isSome →
    let key : RowKey := ⟨entity, id⟩
    let seen := s.storage.visible key (some txn)
    let create := s.mutate (some txn) entity (.create (.obj row))
    let foreign := fun owner => s.storage.Owns owner key ∧ owner ≠ txn
    let unborn := fun owner => s.storage.Creates owner key ∧ owner ≠ txn
    (∀ error, (create true).1 = .error error ↔
      ∃ owner, foreign owner ∧ error = .rowLocked key owner) ∧
    ((¬ ∃ owner, foreign owner) → (create true).1 = .ok 1 ∧
      (create true).2.storage.visible key (some txn) = absorb seen row) ∧
    ((create false).1 = .ok 1 ↔ s.storage.node? key = none) ∧
    (s.storage.node? key = none →
      (create false).2.storage.visible key (some txn) = some row) ∧
    (∀ error, (create false).1 = .error error ↔
      (∃ owner, unborn owner ∧ error = .rowLocked key owner) ∨
      ∃ n, s.storage.node? key = some n ∧ (¬ ∃ owner, unborn owner) ∧
        error = .rowExists key ((seen.or n.current).getD [])) ∧
    ∀ allowExists other, other ≠ key →
      (create allowExists).2.storage.node? other = s.storage.node? other := by
  intro s hopen key seen create foreign unborn
  have S := serial_run schema config hfresh hunique
  have H : s.storage.Ledger := S.ledger
  have K : s.storage.Keyed := S.keyed
  have hschema : s.schema.entity entity = .ok e := by
    rw [schema_run]
    exact hentity
  have hidOf : Command.idOf? row = some id := by
    rw [Command.idOf?, hid]
    rfl
  have herror (allowExists : Bool) (error : StoreError) : (create allowExists).1 = .error error ↔
      Command.creation s.storage txn entity allowExists row = .error error := by
    rw [(mutate_creation hopen hschema row allowExists).1, map_eq_error]
  have hfits : key.Fits row := ⟨hu, hid⟩
  have hnew (hnode : s.storage.node? key = none) :
      (create false).1 = .ok 1 ∧ (create false).2.storage.visible key (some txn) = some row := by
    have hunseen : seen = none := Option.bind_eq_none_iff.mpr fun n hn => by
      cases hnode.symm.trans hn
    have haccepts : s.storage.Accepts txn key (.put row) := ⟨hfits, hunseen⟩
    refine visible_mutate_creation H K hopen hschema ?_ haccepts
      (Command.creation_of_node?_eq_none hidOf hnode false)
    rintro ⟨owner, ⟨n, hn, -⟩, -⟩
    cases hnode.symm.trans hn
  refine ⟨fun error => ?_, fun hfree => ?_, ⟨fun hok => ?_, fun h => (hnew h).1⟩,
    fun h => (hnew h).2, fun error => ?_, fun allowExists other hne => ?_⟩
  · rw [herror]
    exact Command.creation_eq_error_iff hidOf
  · have hc := Command.creation_eq s.storage txn entity hidOf
    rw [Storage.conflict?_eq_none_of_unowned hfree] at hc
    rw [← Storage.apply_upsertion]
    exact visible_mutate_creation H K hopen hschema hfree (Storage.accepts_upsertion hfits) hc
  · refine Option.eq_none_iff_forall_ne_some.mpr fun n hn => ?_
    obtain ⟨error, hrefused⟩ := Command.exists_creation_eq_error txn hidOf hn
    cases hok.symm.trans ((herror false error).mpr hrefused)
  · rw [herror]
    exact Command.creation_false_eq_error_iff hidOf
  · exact node?_mutate_creation hopen hschema hidOf hne

/-- One note is committed, and another one has been created by a transaction that is open. A second
transaction may create the first note once more, if notes may exist, and gives it a new title; the
other note is locked for it. -/
theorem create_outcomes_title :
    let schema : Schema := { entities := Std.ExtTreeMap.ofList [("note", {})] compare }
    let a : TxnId := ⟨1, "a"⟩
    let b : TxnId := ⟨2, "b"⟩
    let c : TxnId := ⟨3, "c"⟩
    let titled (id title : String) : Row := [("id", .str id), ("title", .str title)]
    let create (txn : TxnId) (id : String) : Call :=
      .mutate (some txn) "note" (.create (.obj (("day", .num (.int 1)) :: titled id "old"))) false
    let s := ({ schema } : Store).run
      [.begin a, create a "x", .commit a, .begin c, create c "y", .begin b]
    let again (id : String) := s.mutate (some b) "note" (.create (.obj (titled id "new")))
    (again "x" true).1 = .ok 1 ∧
      (again "x" true).2.storage.visible ⟨"note", "x"⟩ (some b) =
        some (("day", .num (.int 1)) :: titled "x" "new") ∧
      (again "x" false).1 =
        .error (.rowExists ⟨"note", "x"⟩ (("day", .num (.int 1)) :: titled "x" "old")) ∧
      (again "y" false).1 = .error (.rowLocked ⟨"note", "y"⟩ c) ∧
      (again "x" true).2.storage.node? ⟨"note", "y"⟩ = s.storage.node? ⟨"note", "y"⟩ := by
  intro schema a b c titled create s again
  let calls : List Call := [.begin a, create a "x", .commit a, .begin c, create c "y", .begin b]
  have hfresh : Call.Fresh calls := by decide
  have hunique : ∀ call ∈ calls, call.Unique := by
    simp [calls, create, titled, Call.Unique, Operation.Unique, Operation.create,
      Json.UniqueRows, Json.rows, Fields.names]
  have hentity : schema.entity "note" = .ok {} := rfl
  have hopen : (s.storage.transaction? b).isSome := by decide +kernel
  have hx : s.storage.node? ⟨"note", "x"⟩ =
      some (.committed (("day", .num (.int 1)) :: titled "x" "old")) := by
    decide +kernel
  have hy : s.storage.node? ⟨"note", "y"⟩ =
      some (.created (("day", .num (.int 1)) :: titled "y" "old") c) := by
    decide +kernel
  have hseen : s.storage.visible ⟨"note", "x"⟩ (some b) =
      some (("day", .num (.int 1)) :: titled "x" "old") := by
    rw [Storage.visible, hx]
    rfl
  have hfree (owner : TxnId) : ¬ s.storage.Owns owner ⟨"note", "x"⟩ := by
    rintro ⟨n, hn, ho⟩
    cases hx.symm.trans hn
    cases ho
  have hnames (id : String) : (Fields.names (titled id "new")).Nodup := by
    simp [Fields.names, titled]
  obtain ⟨-, hmerged, -, -, hrefused, hframe⟩ :=
    create_outcomes schema {} hfresh hunique hentity (hnames "x") rfl hopen
  obtain ⟨-, -, -, -, hlocked, -⟩ :=
    create_outcomes schema {} hfresh hunique hentity (hnames "y") rfl hopen
  have hunowned : ¬ ∃ owner, s.storage.Owns owner ⟨"note", "x"⟩ ∧ owner ≠ b := by
    rintro ⟨owner, hown, -⟩
    exact hfree owner hown
  obtain ⟨hok, hvisible⟩ := hmerged hunowned
  refine ⟨hok, ?_, ?_, ?_, hframe true _ (by decide)⟩
  · rw [hvisible, hseen]
    rfl
  · refine (hrefused _).mpr (.inr ⟨_, hx, ?_, ?_⟩)
    · rintro ⟨owner, hcreates, -⟩
      exact hfree owner hcreates.owns
    · rw [hseen]
      rfl
  · exact (hlocked _).mpr (.inl ⟨c, ⟨⟨_, hy, rfl, rfl⟩, by decide⟩, rfl⟩)

end Store

end EntityStore
