import EntityStore.Proofs.Store.Effect
import EntityStore.Proofs.Store.Sequence

/-! Failing calls. A mutation that fails has changed nothing, except that a create of several rows
keeps the rows before the one at which it fails; a sync that fails leaves the store that its
operations leave when each is performed in a call of its own, up to the first one that fails
(`Store.failure_atomic`). -/

namespace EntityStore

namespace Store

/-- Rows, open transactions and statistics are the same; only the counters of queries and the
journal may differ. -/
def Unchanged (s s' : Store) : Prop := ∃ work, s' = { s with work }

namespace Unchanged

variable {s s' s'' : Store}

theorem refl (s : Store) : s.Unchanged s := ⟨s.work, rfl⟩

theorem trans (h : s.Unchanged s') (h' : s'.Unchanged s'') : s.Unchanged s'' := by
  obtain ⟨w, rfl⟩ := h
  obtain ⟨w', rfl⟩ := h'
  exact ⟨w', rfl⟩

theorem symm (h : s.Unchanged s') : s'.Unchanged s := by
  obtain ⟨w, rfl⟩ := h
  exact ⟨s.work, rfl⟩

theorem storage (h : s.Unchanged s') : s'.storage = s.storage := by
  obtain ⟨w, rfl⟩ := h
  rfl

theorem schema (h : s.Unchanged s') : s'.schema = s.schema := by
  obtain ⟨w, rfl⟩ := h
  rfl

end Unchanged

end Store

namespace Progress

variable {p : Progress}

theorem fail_eq_withWork (p : Progress) (e : StoreError) : ∃ w, p.fail e = p.withWork w := by
  cases e with
  | rowLocked key owner => exact ⟨_, rfl⟩
  | _ => exact ⟨p.store.work, rfl⟩

end Progress

namespace Command

variable {α β : Type} {txn : TxnId} {entity : String} {allowExists : Bool}

/-! ## Failing commands -/

/-- The command changes no rows. -/
def Quiet (c : Command α) : Prop := ∀ p, ∃ w, (exec c p).2 = p.withWork w

/-- If the command fails, it has changed no rows. -/
def Atomic (c : Command α) : Prop :=
  ∀ p e, (exec c p).1 = .error e → ∃ w, (exec c p).2 = p.withWork w

theorem Quiet.atomic {c : Command α} (h : Quiet c) : Atomic c := fun p _ _ => h p

theorem quiet_ofExcept (r : Except StoreError α) : Quiet (ofExcept r) :=
  fun p => ⟨p.store.work, rfl⟩

theorem quiet_matchingIds (txn : TxnId) (entity : String) (filter : Option Json) :
    Quiet (matchingIds txn entity filter) := by
  intro p
  obtain ⟨r, w, he, -⟩ := exec_matchingIds txn entity filter p
  exact ⟨w, congrArg (·.2) he⟩

namespace Atomic

theorem bind {c : Command α} {f : α → Command β} (hc : Quiet c) (hf : ∀ a, Atomic (f a)) :
    Atomic (c >>= f) := by
  intro p e he
  obtain ⟨w, hw⟩ := hc p
  rw [exec_bind] at he ⊢
  generalize exec c p = r at he hw ⊢
  obtain ⟨_ | a, q⟩ := r
  · exact ⟨w, hw⟩
  · obtain ⟨w', hw'⟩ := hf a q e he
    refine ⟨w', hw'.trans ?_⟩
    cases hw
    rfl

/-- What follows a command does not fail. -/
theorem map {c : Command α} (hc : Atomic c) (f : α → β) : Atomic (c >>= fun a => pure (f a)) := by
  intro p e he
  have hp := hc p
  rw [exec_bind] at he ⊢
  generalize exec c p = r at he hp ⊢
  obtain ⟨_ | a, q⟩ := r
  · exact hp _ rfl
  · cases he

end Atomic

theorem claim_atomic {p : Progress} {keys : List RowKey} {c : RowChange} {e : StoreError}
    (h : (p.claim txn keys c).1 = .error e) : ∃ w, (p.claim txn keys c).2 = p.withWork w := by
  cases hc : p.store.storage.conflict? txn keys with
  | none =>
    rw [Progress.claim_of_free hc] at h
    cases h
  | some conflict =>
    rw [Progress.claim_of_conflict hc]
    exact ⟨_, rfl⟩

theorem atomic_updateRows (txn : TxnId) (entity : String) (ids : List String) (patch : Row) :
    Atomic (updateRows txn entity ids patch) := by
  intro p e he
  rw [exec_updateRows] at he ⊢
  split at he
  · rw [if_pos ‹_›]
    exact ⟨p.store.work, rfl⟩
  · rw [if_neg ‹_›]
    exact claim_atomic he

theorem atomic_removeRows (txn : TxnId) (entity : String) (ids : List String) :
    Atomic (removeRows txn entity ids) := by
  intro p e he
  rw [exec_removeRows] at he ⊢
  exact claim_atomic he

theorem atomic_createRow (txn : TxnId) (entity : String) (allowExists : Bool) (row : Row) :
    Atomic (createRow txn entity allowExists row) := by
  intro p e he
  rw [exec_createRow_eq] at he ⊢
  cases hd : creation p.store.storage txn entity allowExists row with
  | ok change =>
    rw [hd] at he
    cases he
  | error e' => exact p.fail_eq_withWork e'

/-- The row to create that an item of an array gives. -/
def rowToCreate (entity : String) (item : Json) : Except StoreError Row :=
  match item.obj? with
  | some row => .ok row
  | none => .error (.invalidOperation (.rowNotObject entity))

theorem rowsToCreate_cons (item : Json) (items : List Json) :
    rowsToCreate entity (.arr (item :: items)) = (rowToCreate entity item).bind fun row =>
      (rowsToCreate entity (.arr items)).map (row :: ·) := mapM_cons (rowToCreate entity) item items

theorem rowsToCreate_map_obj (rows : List Row) :
    rowsToCreate entity (.arr (rows.map .obj)) = .ok rows := by
  induction rows with
  | nil => rfl
  | cons row rows ih =>
    rw [List.map_cons, rowsToCreate_cons, ih]
    rfl

theorem eq_map_obj_of_rowsToCreate {items : List Json} {rows : List Row}
    (h : rowsToCreate entity (.arr items) = .ok rows) : items = rows.map .obj := by
  induction items generalizing rows with
  | nil =>
    cases h
    rfl
  | cons item items ih =>
    rw [rowsToCreate_cons] at h
    obtain ⟨row, hrow, h⟩ := bind_eq_ok.mp h
    obtain ⟨rest, hrest, rfl⟩ := map_eq_ok.mp h
    have hitem : item = .obj row := by
      cases item <;> cases hrow
      rfl
    rw [List.map_cons, hitem, ih hrest]

theorem createRows_eq {data : Json} {rows : List Row} (h : rowsToCreate entity data = .ok rows) :
    createRows txn entity allowExists data = (do
      rows.forM (createRow txn entity allowExists)
      return rows.length) := by
  rw [createRows, h]
  rfl

theorem atomic_createRows {data : Json}
    (h : ∀ rows, rows ≠ [] → data ≠ .arr (rows.map .obj)) :
    Atomic (createRows txn entity allowExists data) := by
  cases hrows : rowsToCreate entity data with
  | error e =>
    rw [createRows, hrows]
    exact (quiet_ofExcept (.error e)).atomic
  | ok rows =>
    rw [createRows_eq hrows]
    refine Atomic.map ?_ fun _ => rows.length
    cases data with
    | obj row =>
      cases hrows
      exact (atomic_createRow txn entity allowExists row).map id
    | arr items =>
      have hitems := eq_map_obj_of_rowsToCreate hrows
      cases rows with
      | nil => exact (quiet_ofExcept (.ok ())).atomic
      | cons row rows => exact absurd (congrArg Json.arr hitems) (h _ nofun)
    | _ => cases hrows

/-- A mutation that does not create an array of rows changes nothing if it fails. -/
theorem atomic_perform {op : Operation}
    (h : op.action = .create → ∀ rows, rows ≠ [] → op.data ≠ .arr (rows.map .obj)) :
    Atomic (perform txn entity op allowExists) := by
  unfold perform
  cases ha : op.action with
  | create => exact atomic_createRows (h ha)
  | remove =>
    exact .bind (quiet_matchingIds txn entity op.filter) fun ids => atomic_removeRows txn entity ids
  | update | custom =>
    dsimp only
    cases op.data.obj? with
    | none => exact (quiet_ofExcept (.error _)).atomic
    | some patch =>
      exact .bind (quiet_matchingIds txn entity op.filter) fun ids =>
        atomic_updateRows txn entity ids patch

/-! ## Creating rows one by one -/

/-- Creates of single rows, as operations. -/
def creates (entity : String) (rows : List Row) : List (String × Operation) :=
  rows.map fun row => (entity, .create (.obj row))

/-- Two stores with the same rows let the same row be created, or refuse it alike. -/
theorem createRow_congr {p q : Progress} (h : p.store.Unchanged q.store) (row : Row) :
    (exec (createRow txn entity allowExists row) q).1 =
        (exec (createRow txn entity allowExists row) p).1 ∧
      (exec (createRow txn entity allowExists row) p).2.store.Unchanged
        (exec (createRow txn entity allowExists row) q).2.store := by
  obtain ⟨w, hw⟩ := h
  have hstorage : q.store.storage = p.store.storage := by rw [hw]
  rw [exec_createRow_eq, exec_createRow_eq, hstorage]
  cases creation p.store.storage txn entity allowExists row with
  | ok change =>
    refine ⟨rfl, w, ?_⟩
    dsimp only [Progress.change]
    rw [hw]
  | error e =>
    obtain ⟨w', hp⟩ := p.fail_eq_withWork e
    obtain ⟨w'', hq⟩ := q.fail_eq_withWork e
    refine ⟨rfl, w'', ?_⟩
    dsimp only
    rw [hp, hq]
    dsimp only [Progress.withWork]
    rw [hw]

end Command

namespace Store

variable {s s' : Store} {p q : Progress} {txn : TxnId} {entity : String} {e : Entity}
  {allowExists : Bool}

/-- A create of one row in a call of its own does what it does along with others. -/
theorem mutate_create (h : p.store.Unchanged s)
    (hopen : (p.store.storage.transaction? txn).isSome)
    (hentity : p.store.schema.entity entity = .ok e) (row : Row) (allowExists : Bool) :
    let r := exec (Command.createRow txn entity allowExists row) p
    let r' := s.mutate (some txn) entity (.create (.obj row)) allowExists
    r'.1 = r.1.map (fun _ => 1) ∧ r.2.store.Unchanged r'.2 := by
  intro r r'
  let op : Operation := .create (.obj row)
  obtain ⟨hresult, hstore⟩ := Command.createRow_congr (q := { store := s }) h row
  rw [← h.storage] at hopen
  rw [← h.schema] at hentity
  obtain ⟨w, hmutate⟩ := Command.exec_mutate (p := { store := s }) hopen hentity op allowExists
  have hperform : exec (Command.perform txn entity op allowExists) { store := s } =
      ((exec (Command.createRow txn entity allowExists row) { store := s }).1.map fun _ => 1,
        (exec (Command.createRow txn entity allowExists row) { store := s }).2) := by
    change exec (Command.createRows txn entity allowExists (.obj row)) { store := s } = _
    rw [Command.createRows_eq rfl, exec_bind, exec_forM_cons]
    generalize exec (Command.createRow txn entity allowExists row) { store := s } = created
    obtain ⟨_ | _, q⟩ := created <;> rfl
  rw [hperform, hresult] at hmutate
  have hr : r' = _ := congrArg (fun q => (q.1, q.2.store)) hmutate
  rw [hr]
  exact ⟨rfl, hstore.trans ⟨w, rfl⟩⟩

/-- Rows that are created one after the other can as well be created in calls of their own. -/
theorem mutateAll_creates {rows : List Row} (h : p.store.Unchanged s)
    (hopen : (p.store.storage.transaction? txn).isSome)
    (hentity : p.store.schema.entity entity = .ok e)
    (hrows : exec (rows.forM (Command.createRow txn entity allowExists)) p = (.ok (), q)) :
    ∃ t, s.mutateAll (some txn) allowExists (Command.creates entity rows) = (.ok (), t) ∧
      q.store.Unchanged t ∧ (q.store.storage.transaction? txn).isSome ∧
      q.store.schema.entity entity = .ok e := by
  induction rows generalizing p s with
  | nil =>
    cases hrows
    exact ⟨s, rfl, h, hopen, hentity⟩
  | cons row rows ih =>
    have hext : p.Extends txn (fun _ _ => True)
        (exec (Command.createRow txn entity allowExists row) p).2 :=
      Command.createRow_extends hopen (fun _ => ⟨trivial, trivial⟩) allowExists
    obtain ⟨hresult, hstore⟩ := mutate_create h hopen hentity row allowExists
    rw [exec_forM_cons] at hrows
    generalize exec (Command.createRow txn entity allowExists row) p = r at *
    obtain ⟨_ | _, p'⟩ := r
    · cases hrows
    · have hopen' : (p'.store.storage.transaction? txn).isSome := by
        rw [hext.isSome_transaction?]
        exact hopen
      have hentity' : p'.store.schema.entity entity = .ok e := by
        obtain ⟨changes, w, -, rfl⟩ := hext
        exact hentity
      obtain ⟨t, ht, hrest⟩ := ih hstore hopen' hentity' hrows
      exact ⟨t, (mutateAll_cons_of_ok (Prod.ext hresult rfl)).trans ht, hrest⟩

/-- Rows that are created one after the other up to one that fails can as well be created in calls
of their own. -/
theorem mutateAll_creates_error {rows : List Row} {error : StoreError} (h : p.store.Unchanged s)
    (hopen : (p.store.storage.transaction? txn).isSome)
    (hentity : p.store.schema.entity entity = .ok e)
    (hrows : exec (rows.forM (Command.createRow txn entity allowExists)) p = (.error error, q)) :
    ∃ before row after t, rows = before ++ row :: after ∧
      s.mutateAll (some txn) allowExists (Command.creates entity before) = (.ok (), t) ∧
      (t.mutate (some txn) entity (.create (.obj row)) allowExists).1 = .error error ∧
      t.Unchanged q.store := by
  obtain ⟨before, row, after, p', rfl, hbefore, hrow⟩ := exec_forM_eq_error hrows
  obtain ⟨t, ht, hsame, hopen', hentity'⟩ := mutateAll_creates h hopen hentity hbefore
  obtain ⟨hcreate, -⟩ := mutate_create hsame hopen' hentity' row allowExists
  obtain ⟨w, hw⟩ := Command.atomic_createRow txn entity allowExists row p' error
    (congrArg (·.1) hrow)
  rw [hrow] at hcreate hw
  have hq : q = p'.withWork w := hw
  subst hq
  exact ⟨before, row, after, t, rfl, ht, hcreate, hsame.symm.trans ⟨w, rfl⟩⟩

/-- A mutation that does not create an array of rows leaves the store unchanged if it fails. -/
theorem unchanged_of_mutate_error {caller : Option TxnId} {op : Operation} {error : StoreError}
    (hmutate : s.mutate caller entity op allowExists = (.error error, s'))
    (h : op.action = .create → ∀ rows, rows ≠ [] → op.data ≠ .arr (rows.map .obj)) :
    s.Unchanged s' := by
  let p : Progress := { store := s }
  rcases Command.mutate_cases caller entity p with ⟨e, hrefused⟩ | ⟨txn, e, rfl, hopen, hentity⟩
  · have hs : s.mutate caller entity op allowExists = (.error e, s) :=
      congrArg (fun q => (q.1, q.2.store)) (hrefused op allowExists)
    obtain ⟨-, rfl⟩ := Prod.mk.inj (hs.symm.trans hmutate)
    exact .refl s
  · obtain ⟨w, hexec⟩ := Command.exec_mutate hopen hentity op allowExists
    have hs : s.mutate (some txn) entity op allowExists = _ :=
      congrArg (fun q => (q.1, q.2.store)) hexec
    obtain ⟨hresult, rfl⟩ := Prod.mk.inj (hs.symm.trans hmutate)
    obtain ⟨w', hperform⟩ := Command.atomic_perform h p error hresult
    rw [hperform]
    exact ⟨w, rfl⟩

/-- A create of an array of rows that fails at one of them leaves what the creates of the rows
before it leave, each made in a call of its own. -/
theorem creates_of_mutate_error {caller : Option TxnId} {op : Operation} {error : StoreError}
    {rows : List Row} (hmutate : s.mutate caller entity op allowExists = (.error error, s'))
    (hrows : rows ≠ []) (haction : op.action = .create) (hdata : op.data = .arr (rows.map .obj)) :
    ∃ before row after t, rows = before ++ row :: after ∧
      s.mutateAll caller allowExists (Command.creates entity before) = (.ok (), t) ∧
      (t.mutate caller entity (.create (.obj row)) allowExists).1 = .error error ∧
      t.Unchanged s' := by
  let p : Progress := { store := s }
  rcases Command.mutate_cases caller entity p with ⟨e, hrefused⟩ | ⟨txn, e, rfl, hopen, hentity⟩
  · have hs (op : Operation) : s.mutate caller entity op allowExists = (.error e, s) :=
      congrArg (fun q => (q.1, q.2.store)) (hrefused op allowExists)
    -- A call that is refused at once fails at the first row.
    obtain ⟨he, rfl⟩ := Prod.mk.inj ((hs op).symm.trans hmutate)
    cases he
    obtain ⟨row, after, rfl⟩ := List.exists_cons_of_ne_nil hrows
    exact ⟨[], row, after, s, rfl, rfl, congrArg (·.1) (hs _), .refl s⟩
  · obtain ⟨w, hexec⟩ := Command.exec_mutate hopen hentity op allowExists
    have hs : s.mutate (some txn) entity op allowExists = _ :=
      congrArg (fun q => (q.1, q.2.store)) hexec
    obtain ⟨hresult, rfl⟩ := Prod.mk.inj (hs.symm.trans hmutate)
    have hperform : Command.perform txn entity op allowExists = (do
        rows.forM (Command.createRow txn entity allowExists)
        return rows.length) := by
      rw [Command.perform, haction, hdata]
      exact Command.createRows_eq (Command.rowsToCreate_map_obj rows)
    rw [hperform, exec_bind] at hresult ⊢
    rcases hloop : exec (rows.forM (Command.createRow txn entity allowExists)) p with ⟨_ | _, q⟩
    · rw [hloop] at hresult
      cases hresult
      obtain ⟨before, row, after, t, hsplit, ht, hcreate, hsame⟩ :=
        mutateAll_creates_error (.refl s) hopen hentity hloop
      exact ⟨before, row, after, t, hsplit, ht, hcreate, hsame.trans ⟨w, rfl⟩⟩
    · rw [hloop] at hresult
      cases hresult

/-- A mutation that fails leaves rows, open transactions and statistics as they are, unless it
creates an array of rows: then it leaves what the creates of the rows before the failing one leave,
each made in a call of its own. A sync that fails leaves the store that its operations leave, each
performed in a call of its own that may update the rows that exist, up to the first one that fails.
-/
theorem failure_atomic (s : Store) (caller : Option TxnId) :
    (∀ entity op allowExists e s', s.mutate caller entity op allowExists = (.error e, s') →
      ((op.action = .create → ∀ rows, rows ≠ [] → op.data ≠ .arr (rows.map .obj)) →
        s.Unchanged s') ∧
      ∀ rows, rows ≠ [] → op.action = .create → op.data = .arr (rows.map .obj) →
        ∃ before row after t, rows = before ++ row :: after ∧
          s.mutateAll caller allowExists (Command.creates entity before) = (.ok (), t) ∧
          (t.mutate caller entity (.create (.obj row)) allowExists).1 = .error e ∧
          t.Unchanged s') ∧
    ∀ records e s', s.sync caller records = (.error e, s') →
      s.mutateAll caller true (records.flatMap SyncRecord.operations) = (.error e, s') := by
  refine ⟨fun entity op allowExists e s' h => ⟨?_, ?_⟩, fun records e s' h => sync_error h⟩
  · exact unchanged_of_mutate_error h
  · exact fun rows hrows haction hdata => creates_of_mutate_error h hrows haction hdata

/-- A row without an id ends a create of two rows and a sync, and a patch that is not an object ends
an update. -/
theorem failure_atomic_note :
    let schema : Schema := { entities := Std.ExtTreeMap.ofList [("note", {})] compare }
    let a : TxnId := ⟨1, "a"⟩
    let s := ({ schema } : Store).run [.begin a]
    let rows : List Row := [[("id", .str "x")], []]
    let creates : Operation := .create (.arr (rows.map .obj))
    let update : Operation := .update (.str "x") (.obj [])
    let records := rows.map fun row => SyncRecord.create "note" (.obj row)
    (∃ before row after t, rows = before ++ row :: after ∧
      s.mutateAll (some a) false (Command.creates "note" before) = (.ok (), t) ∧
      (t.mutate (some a) "note" (.create (.obj row)) false).1 =
        .error (.invalidOperation (.noId "note")) ∧
      t.Unchanged (s.mutate (some a) "note" creates false).2) ∧
    s.Unchanged (s.mutate (some a) "note" update false).2 ∧
    s.mutateAll (some a) true (records.flatMap SyncRecord.operations) =
      (.error (.invalidOperation (.noId "note")), (s.sync (some a) records).2) := by
  intro schema a s rows creates update records
  have hcreates : (s.mutate (some a) "note" creates false).1 =
      .error (.invalidOperation (.noId "note")) := by decide +kernel
  have hupdate : (s.mutate (some a) "note" update false).1 =
      .error (.invalidOperation (.patchNotObject "update" "note")) := by decide +kernel
  have hrecords : (s.sync (some a) records).1 = .error (.invalidOperation (.noId "note")) := by
    decide +kernel
  obtain ⟨hmutate, hsync⟩ := failure_atomic s (some a)
  refine ⟨?_, ?_, hsync records _ _ (Prod.ext hrecords rfl)⟩
  · exact (hmutate "note" creates false _ _ (Prod.ext hcreates rfl)).2 rows nofun rfl rfl
  · exact (hmutate "note" update false _ _ (Prod.ext hupdate rfl)).1 nofun

end Store

end EntityStore
