import EntityStore.Proofs.Store.Mutation

/-! Operations one after the other. A command that is part of another one does what it would do in
a call of its own (`Command.Local`). So a sync does what its operations do when each is performed in
a call of its own, up to the first one that fails (`Command.sync_performs`). -/

namespace EntityStore

namespace Store

/-- Performs operations one after the other, each in a call of its own, up to the first one that
fails. -/
def mutateAll (s : Store) (caller : Option TxnId) (allowExists : Bool) :
    List (String × Operation) → Except StoreError Unit × Store
  | [] => (.ok (), s)
  | (entity, op) :: rest =>
    match s.mutate caller entity op allowExists with
    | (.ok _, s') => s'.mutateAll caller allowExists rest
    | (.error e, s') => (.error e, s')

variable {s s' : Store} {caller : Option TxnId} {allowExists : Bool} {entity : String}
  {op : Operation} {first last : List (String × Operation)}

theorem mutateAll_cons_of_ok {affected : Nat}
    (h : s.mutate caller entity op allowExists = (.ok affected, s')) :
    s.mutateAll caller allowExists ((entity, op) :: last) =
      s'.mutateAll caller allowExists last := by
  rw [mutateAll, h]

theorem mutateAll_cons_of_error {e : StoreError}
    (h : s.mutate caller entity op allowExists = (.error e, s')) :
    s.mutateAll caller allowExists ((entity, op) :: last) = (.error e, s') := by
  rw [mutateAll, h]

theorem mutateAll_append_of_ok (h : s.mutateAll caller allowExists first = (.ok (), s')) :
    s.mutateAll caller allowExists (first ++ last) = s'.mutateAll caller allowExists last := by
  induction first generalizing s with
  | nil =>
    cases h
    rfl
  | cons entry first ih =>
    obtain ⟨entity, op⟩ := entry
    rcases hr : s.mutate caller entity op allowExists with ⟨_ | affected, t⟩
    · rw [mutateAll_cons_of_error hr] at h
      cases h
    · rw [mutateAll_cons_of_ok hr] at h
      rw [List.cons_append, mutateAll_cons_of_ok hr]
      exact ih h

theorem mutateAll_append_of_error {e : StoreError}
    (h : s.mutateAll caller allowExists first = (.error e, s')) :
    s.mutateAll caller allowExists (first ++ last) = (.error e, s') := by
  induction first generalizing s with
  | nil => cases h
  | cons entry first ih =>
    obtain ⟨entity, op⟩ := entry
    rcases hr : s.mutate caller entity op allowExists with ⟨_ | affected, t⟩
    · rw [mutateAll_cons_of_error hr] at h
      rw [List.cons_append, mutateAll_cons_of_error hr]
      exact h
    · rw [mutateAll_cons_of_ok hr] at h
      rw [List.cons_append, mutateAll_cons_of_ok hr]
      exact ih h

end Store

namespace Command

variable {α β : Type} {txn : TxnId} {entity : String} {allowExists : Bool}

theorem runOn_eq (c : Command α) (s : Store) :
    c.runOn s = ((exec c { store := s }).1, (exec c { store := s }).2.store) := rfl

/-- Whatever changes were made before, the command does what it does in a call of its own. -/
def Local (c : Command α) : Prop :=
  ∀ p : Progress, ((exec c p).1, (exec c p).2.store) = c.runOn p.store

namespace Local

theorem pure (a : α) : Local (pure a : Command α) := fun _ => rfl

theorem ofExcept (r : Except StoreError α) : Local (ofExcept r) := fun _ => rfl

theorem report (event : Log.Event) (fields : List (String × String)) :
    Local (report event fields) := fun _ => rfl

theorem bind {c : Command α} {f : α → Command β} (hc : Local c) (hf : ∀ a, Local (f a)) :
    Local (c >>= f) := by
  intro p
  have h := hc p
  rw [runOn_eq] at h ⊢
  rw [exec_bind, exec_bind]
  generalize exec c p = r at h ⊢
  generalize exec c { store := p.store } = r' at h ⊢
  obtain ⟨a, q⟩ := r
  obtain ⟨a', q'⟩ := r'
  obtain ⟨rfl, hstore⟩ := Prod.mk.inj h
  cases a with
  | error e => exact Prod.ext rfl hstore
  | ok a =>
    refine (hf a q).trans (Eq.trans ?_ (hf a q').symm)
    exact congrArg (f a).runOn hstore

theorem map {c : Command α} (hc : Local c) (f : α → β) : Local (c >>= fun a => Pure.pure (f a)) :=
  hc.bind fun a => pure (f a)

/-- Of the progress the command reads the store only. -/
theorem get {f : Progress → Command β} (h : ∀ p, f p = f { store := p.store })
    (hf : ∀ s, Local (f { store := s })) : Local (get >>= f) := by
  intro p
  rw [runOn_eq, exec_bind, exec_get, continueWith_ok, exec_bind, exec_get, continueWith_ok, h p]
  exact hf p.store p

theorem forM {f : α → Command Unit} (h : ∀ x, Local (f x)) (xs : List α) : Local (xs.forM f) := by
  induction xs with
  | nil => exact pure ()
  | cons x xs ih => exact (h x).bind fun _ => ih

end Local

theorem claim_local (p : Progress) (txn : TxnId) (keys : List RowKey) (c : RowChange) :
    ((p.claim txn keys c).1, (p.claim txn keys c).2.store) =
      ((Progress.claim { store := p.store } txn keys c).1,
        (Progress.claim { store := p.store } txn keys c).2.store) := by
  unfold Progress.claim
  cases p.store.storage.conflict? txn keys <;> rfl

theorem updateRows_local (txn : TxnId) (entity : String) (ids : List String) (patch : Row) :
    Local (updateRows txn entity ids patch) := by
  intro p
  rw [runOn_eq, exec_updateRows, exec_updateRows]
  split
  · rfl
  · exact claim_local ..

theorem removeRows_local (txn : TxnId) (entity : String) (ids : List String) :
    Local (removeRows txn entity ids) := by
  intro p
  rw [runOn_eq, exec_removeRows, exec_removeRows]
  exact claim_local ..

theorem createRow_local (txn : TxnId) (entity : String) (allowExists : Bool) (row : Row) :
    Local (createRow txn entity allowExists row) := by
  intro p
  rw [runOn_eq, exec_createRow_eq, exec_createRow_eq]
  cases creation p.store.storage txn entity allowExists row with
  | ok change => rfl
  | error e => cases e <;> rfl

theorem perform_local (txn : TxnId) (entity : String) (op : Operation) (allowExists : Bool) :
    Local (perform txn entity op allowExists) := by
  have hfound : Local (matchingIds txn entity op.filter) := fun _ => rfl
  unfold perform
  cases op.action with
  | create =>
    refine (Local.ofExcept _).bind fun rows => Local.bind ?_ fun _ => .pure rows.length
    exact .forM (createRow_local txn entity allowExists) rows
  | remove => exact hfound.bind fun ids => removeRows_local txn entity ids
  | update | custom =>
    dsimp only
    cases op.data.obj? with
    | none => exact fun _ => rfl
    | some patch => exact hfound.bind fun ids => updateRows_local txn entity ids patch

theorem openTransaction_local (caller : Option TxnId) : Local (openTransaction caller) := by
  cases caller with
  | none => exact fun _ => rfl
  | some txn =>
    intro p
    rw [runOn_eq, exec_openTransaction, exec_openTransaction]
    dsimp only
    split <;> rfl

theorem mutate_local (caller : Option TxnId) (entity : String) (op : Operation)
    (allowExists : Bool) : Local (mutate caller entity op allowExists) := by
  refine (openTransaction_local caller).bind fun txn => .get (fun _ => rfl) fun s => ?_
  refine (Local.ofExcept _).bind fun _ => (perform_local txn entity op allowExists).bind ?_
  refine fun affected => .get (fun _ => rfl) fun s => ?_
  dsimp only
  split
  · exact (Local.report _ _).bind fun _ => .pure affected
  · exact .pure affected

/-! ## Syncs as sequences of calls -/

/-- The command does what the operations do, each in a call of its own that may update the rows that
exist, up to the first one that fails. -/
def Performs (c : Command α) (caller : Option TxnId) (ops : List (String × Operation)) : Prop :=
  ∀ p : Progress, ((exec c p).1.map fun _ => (), (exec c p).2.store) =
    p.store.mutateAll caller true ops

namespace Performs

variable {caller : Option TxnId} {first last : List (String × Operation)}

theorem pure (a : α) : Performs (pure a : Command α) caller [] := fun _ => rfl

theorem mutate (entity : String) (op : Operation) :
    Performs (mutate caller entity op true) caller [(entity, op)] := by
  intro p
  have h := mutate_local caller entity op true p
  have hmutate : p.store.mutate caller entity op true = _ := h.symm
  generalize exec (Command.mutate caller entity op true) p = r at hmutate ⊢
  obtain ⟨_ | affected, q⟩ := r
  · rw [Store.mutateAll_cons_of_error hmutate]
    rfl
  · rw [Store.mutateAll_cons_of_ok hmutate]
    rfl

theorem bind {c : Command α} {f : α → Command β} (hc : Performs c caller first)
    (hf : ∀ a, Performs (f a) caller last) : Performs (c >>= f) caller (first ++ last) := by
  intro p
  have h := (hc p).symm
  rw [exec_bind]
  generalize exec c p = r at h ⊢
  obtain ⟨_ | a, q⟩ := r
  · exact (Store.mutateAll_append_of_error h).symm
  · exact (hf a q).trans (Store.mutateAll_append_of_ok h).symm

theorem mapM {f : α → Command β} {g : α → List (String × Operation)}
    (h : ∀ x, Performs (f x) caller (g x)) (xs : List α) :
    Performs (xs.mapM f) caller (xs.flatMap g) := by
  induction xs with
  | nil => exact pure []
  | cons x xs ih =>
    rw [List.mapM_cons, List.flatMap_cons]
    refine (h x).bind fun y => ?_
    have hrest := ih.bind fun ys => pure (y :: ys)
    rwa [List.append_nil] at hrest

end Performs

/-- The rows of a snapshot, each with its entity and with the id that it is filed under. -/
def filed (rows : NameMap (NameMap Row)) : List (String × Row) :=
  rows.toList.flatMap fun (entity, table) =>
    table.toList.map fun (id, row) => (entity, Fields.insertNew row "id" (.str id))

theorem operations_snapshot (rows : NameMap (NameMap Row)) :
    (SyncRecord.snapshot rows).operations =
      (filed rows).flatMap fun x => [(x.1, .create (.obj x.2))] := by
  rw [← List.map_eq_flatMap, filed, List.map_flatMap, SyncRecord.operations]
  simp only [List.map_map]
  rfl

theorem replay_performs (caller : Option TxnId) (record : SyncRecord) :
    Performs (replay caller record) caller record.operations := by
  cases record with
  | create entity data | update entity data filter | remove entity filter => exact .mutate entity _
  | snapshot rows =>
    have hrow (x : String × Row) : Performs (Command.mutate caller x.1 (.create (.obj x.2)) true)
        caller [(x.1, .create (.obj x.2))] := .mutate x.1 _
    rw [operations_snapshot, ← List.append_nil (List.flatMap ..)]
    exact (Performs.mapM hrow (filed rows)).bind fun counts => .pure (total counts)

end Command

/-- A sync that fails leaves what its operations leave one after the other, up to the first one that
fails. -/
theorem Store.sync_error {s s' : Store} {caller : Option TxnId} {records : List SyncRecord}
    {e : StoreError} (h : s.sync caller records = (.error e, s')) :
    s.mutateAll caller true (records.flatMap SyncRecord.operations) = (.error e, s') := by
  have hrecords := Command.Performs.mapM (Command.replay_performs caller) records { store := s }
  refine hrecords.symm.trans ?_
  have h : ((exec (Command.sync caller records) { store := s }).1,
      (exec (Command.sync caller records) { store := s }).2.store) = (.error e, s') := h
  rw [Command.sync, exec_bind] at h
  generalize exec (records.mapM (Command.replay caller)) { store := s } = r at h ⊢
  obtain ⟨_ | counts, q⟩ := r
  · cases h
    rfl
  · cases h

end EntityStore
