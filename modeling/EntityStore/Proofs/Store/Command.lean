import EntityStore.Store.Sync
import EntityStore.Proofs.Execution
import EntityStore.Proofs.Row.Change

/-! Commands as steps. Each command of a mutation has an equation that gives its answer and the
progress it leaves (`exec_updateRows`, `exec_removeRows`, `exec_createRow`): either it reports a
conflict, or fails, or makes certain row changes. -/

namespace EntityStore

namespace Storage

/-- The first of the rows that somebody else owns, and its owner. -/
def conflict? (s : Storage) (txn : TxnId) (keys : List RowKey) : Option (RowKey × TxnId) :=
  keys.findSome? fun key => (s.node? key).bind fun n =>
    n.owner.bind fun owner => if owner = txn then none else some (key, owner)

variable {s : Storage} {txn : TxnId} {keys : List RowKey}

theorem conflict?_eq_none_iff : s.conflict? txn keys = none ↔
    ∀ key ∈ keys, ∀ n, s.node? key = some n → n.isFreeFor txn = true := by
  simp only [conflict?, List.findSome?_eq_none_iff, Option.bind_eq_none_iff]
  refine forall_congr' fun key => forall_congr' fun _ => forall_congr' fun n => ?_
  refine forall_congr' fun _ => ?_
  rw [Node.isFreeFor_iff]
  exact forall_congr' fun owner => forall_congr' fun _ => by simp

end Storage

namespace Progress

/-- The progress after row changes of a transaction. -/
def change (p : Progress) (txn : TxnId) (changes : List (RowKey × RowChange)) : Progress where
  store := { p.store with storage := p.store.storage.changeAll txn changes }
  changes := p.changes ++ changes

/-- The progress after an event was written into the journal. -/
def report (p : Progress) (event : Log.Event) (fields : List (String × String)) : Progress :=
  { p with store := p.store.report event fields }

/-- The progress after a conflict about a row was reported. -/
def reportConflict (p : Progress) (key : RowKey) (owner : TxnId) : Progress :=
  p.report .rowConflict [("entity", key.entity), ("id", key.id), ("owner", owner.name)]

/-- The progress after a command has failed: it has reported a conflict, if that was the error. -/
def fail (p : Progress) : StoreError → Progress
  | .rowLocked key owner => p.reportConflict key owner
  | _ => p

/-- Makes the same change in several rows, unless somebody else owns one of them. -/
def claim (p : Progress) (txn : TxnId) (keys : List RowKey) (c : RowChange) :
    Except StoreError Nat × Progress :=
  match p.store.storage.conflict? txn keys with
  | none => (.ok keys.length, p.change txn (keys.map (·, c)))
  | some (key, owner) => (.error (.rowLocked key owner), p.reportConflict key owner)

@[simp] theorem change_nil (p : Progress) (txn : TxnId) : p.change txn [] = p := by
  simp [change]

theorem change_change (p : Progress) (txn : TxnId) (first last : List (RowKey × RowChange)) :
    (p.change txn first).change txn last = p.change txn (first ++ last) := by
  simp [change, Storage.changeAll_append]

end Progress

namespace Command

variable {α β : Type} {p : Progress} {txn : TxnId} {key : RowKey}

@[simp] theorem exec_ofExcept (r : Except StoreError α) (p : Progress) :
    exec (ofExcept r) p = (r, p) := rfl

@[simp] theorem exec_invalid (fault : OperationFault) (p : Progress) :
    exec (invalid fault : Command α) p = (.error (.invalidOperation fault), p) := rfl

@[simp] theorem exec_report (event : Log.Event) (fields : List (String × String)) (p : Progress) :
    exec (report event fields) p = (.ok (), p.report event fields) := rfl

@[simp] theorem exec_change (txn : TxnId) (key : RowKey) (c : RowChange) (p : Progress) :
    exec (change txn key c) p = (.ok (), p.change txn [(key, c)]) := rfl

@[simp] theorem exec_locked (key : RowKey) (owner : TxnId) (p : Progress) :
    exec (locked key owner : Command α) p =
      (.error (.rowLocked key owner), p.reportConflict key owner) := rfl

@[simp] theorem exec_node? (key : RowKey) (p : Progress) :
    exec (node? key) p = (.ok (p.store.storage.node? key), p) := rfl

theorem exec_checkOwnership (txn : TxnId) (keys : List RowKey) (p : Progress) :
    exec (checkOwnership txn keys) p =
      match p.store.storage.conflict? txn keys with
      | none => (.ok (), p)
      | some (key, owner) => (.error (.rowLocked key owner), p.reportConflict key owner) := by
  induction keys with
  | nil => rfl
  | cons key keys ih =>
    unfold checkOwnership Storage.conflict? at ih ⊢
    rw [exec_forM_cons, exec_bind, exec_node?, continueWith_ok, List.findSome?_cons]
    cases hn : p.store.storage.node? key with
    | none => exact ih
    | some n =>
      cases ho : n.owner with
      | none => simpa [ho] using ih
      | some owner =>
        by_cases h : owner = txn
        · simpa [ho, h] using ih
        · simp [ho, h]

theorem exec_forM_change (txn : TxnId) (keys : List RowKey) (c : RowChange) (p : Progress) :
    exec (keys.forM fun key => change txn key c) p =
      (.ok (), p.change txn (keys.map (·, c))) := by
  induction keys generalizing p with
  | nil => simp
  | cons key keys ih =>
    rw [exec_forM_cons, exec_change, continueWith_ok, ih, Progress.change_change]
    rfl

theorem exec_claim (txn : TxnId) (entity : String) (ids : List String) (c : RowChange)
    (p : Progress) : exec (do
      checkOwnership txn (ids.map (RowKey.mk entity))
      (ids.map (RowKey.mk entity)).forM fun key => change txn key c
      return ids.length) p = p.claim txn (ids.map (RowKey.mk entity)) c := by
  rw [exec_bind, exec_checkOwnership, Progress.claim]
  cases p.store.storage.conflict? txn (ids.map (RowKey.mk entity)) with
  | none =>
    rw [continueWith_ok, exec_bind, exec_forM_change, continueWith_ok, exec_pure, List.length_map]
  | some conflict => rfl

/-- Whether a patch would give one of the rows another id. -/
def changesId (patch : Row) (ids : List String) : Bool :=
  (Fields.get? patch "id").any fun id => ids.any fun old => id.str? ≠ some old

theorem exec_updateRows (txn : TxnId) (entity : String) (ids : List String) (patch : Row)
    (p : Progress) : exec (updateRows txn entity ids patch) p =
      if changesId patch ids then (.error (.invalidOperation (.changedId entity)), p)
      else p.claim txn (ids.map (RowKey.mk entity)) (.merge patch) := by
  unfold updateRows changesId
  cases Fields.get? patch "id" with
  | none => exact exec_claim txn entity ids (.merge patch) p
  | some id =>
    dsimp only [Option.any_some]
    split
    · rfl
    · exact exec_claim txn entity ids (.merge patch) p

theorem exec_removeRows (txn : TxnId) (entity : String) (ids : List String) (p : Progress) :
    exec (removeRows txn entity ids) p = p.claim txn (ids.map (RowKey.mk entity)) .delete :=
  exec_claim txn entity ids .delete p

/-- The id of a row to create. -/
def idOf? (row : Row) : Option String := (Fields.get? row "id").bind Json.str?

theorem exec_createRow_of_noId {row : Row} (h : idOf? row = none) (entity : String)
    (allowExists : Bool) (p : Progress) : exec (createRow txn entity allowExists row) p =
      (.error (.invalidOperation (.noId entity)), p) := by
  unfold createRow idOf? at *
  rw [h]
  rfl

theorem changesId_of_idOf? {row : Row} {id : String} (h : idOf? row = some id) :
    changesId row [id] = false := by
  unfold idOf? at h
  unfold changesId
  cases hv : Fields.get? row "id" with
  | none => rfl
  | some v =>
    rw [hv] at h
    have hv : v.str? = some id := h
    simp [hv]

theorem exec_createRow {row : Row} {id : String} (h : idOf? row = some id) (entity : String)
    (allowExists : Bool) (p : Progress) : exec (createRow txn entity allowExists row) p =
      let key : RowKey := ⟨entity, id⟩
      match p.store.storage.node? key with
      | none => (.ok (), p.change txn [(key, .put row)])
      | some n =>
        match n.visible (some txn), allowExists, p.store.storage.conflict? txn [key] with
        | some existing, false, _ => (.error (.rowExists key existing), p)
        | _, _, some (_, owner) => (.error (.rowLocked key owner), p.reportConflict key owner)
        | some _, true, none => (.ok (), p.change txn [(key, .merge row)])
        | none, true, none => (.ok (), p.change txn [(key, .put row)])
        | none, false, none => (.error (.rowExists key (n.current.getD [])), p) := by
  have hid := changesId_of_idOf? h
  unfold createRow idOf? at *
  rw [h]
  dsimp only
  rw [exec_bind, exec_node?, continueWith_ok]
  cases hn : p.store.storage.node? ⟨entity, id⟩ with
  | none => rfl
  | some n =>
    dsimp only
    have hc : p.store.storage.conflict? txn [⟨entity, id⟩] =
        n.owner.bind fun owner => if owner = txn then none else some (⟨entity, id⟩, owner) := by
      simp [Storage.conflict?, hn]
    cases hv : n.visible (some txn) with
    | some existing =>
      cases allowExists with
      | false => rfl
      | true =>
        change exec ((fun _ => ()) <$> updateRows txn entity [id] row) p = _
        rw [exec_map, exec_updateRows, hid, if_neg Bool.false_ne_true, List.map_singleton,
          Progress.claim, hc]
        cases n.owner with
        | none => rfl
        | some owner => by_cases he : owner = txn <;> simp [he, Except.map]
    | none =>
      rw [hc]
      cases ho : n.owner with
      | none => cases allowExists <;> rfl
      | some owner =>
        by_cases he : owner = txn
        · cases allowExists <;> simp [he]
        · cases allowExists <;> simp [he]

/-- The change that a create of a row makes, or why it fails. -/
def creation (s : Storage) (txn : TxnId) (entity : String) (allowExists : Bool) (row : Row) :
    Except StoreError (RowKey × RowChange) :=
  match idOf? row with
  | none => .error (.invalidOperation (.noId entity))
  | some id =>
    let key : RowKey := ⟨entity, id⟩
    match s.node? key with
    | none => .ok (key, .put row)
    | some n =>
      match n.visible (some txn), allowExists, s.conflict? txn [key] with
      | some existing, false, _ => .error (.rowExists key existing)
      | _, _, some (_, owner) => .error (.rowLocked key owner)
      | some _, true, none => .ok (key, .merge row)
      | none, true, none => .ok (key, .put row)
      | none, false, none => .error (.rowExists key (n.current.getD []))

theorem exec_createRow_eq (txn : TxnId) (entity : String) (allowExists : Bool) (row : Row)
    (p : Progress) : exec (createRow txn entity allowExists row) p =
      match creation p.store.storage txn entity allowExists row with
      | .ok change => (.ok (), p.change txn [change])
      | .error e => (.error e, p.fail e) := by
  unfold creation
  cases hid : idOf? row with
  | none => exact exec_createRow_of_noId hid entity allowExists p
  | some id =>
    rw [exec_createRow hid]
    dsimp only
    cases p.store.storage.node? ⟨entity, id⟩ with
    | none => rfl
    | some n =>
      dsimp only
      rcases p.store.storage.conflict? txn [⟨entity, id⟩] with _ | ⟨k, owner⟩ <;>
        cases n.visible (some txn) <;> cases allowExists <;> rfl

end Command

end EntityStore
