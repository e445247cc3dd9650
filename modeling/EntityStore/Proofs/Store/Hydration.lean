import EntityStore.Proofs.Row.Upsert
import EntityStore.Proofs.Store.Atomic
import EntityStore.Proofs.Store.Publication
import EntityStore.Proofs.Store.Serial

/-! Hydration. A sync of creates and snapshots brings rows: it merges each of them into the row that
its transaction sees, or puts it, provided that the records are well formed and that the transaction
may change all of the rows; else it fails (`Command.sync_brings`). So a second sync of the same
records changes no row (`Store.sync_idempotent`). -/

namespace EntityStore

namespace Command

variable {α β : Type} {txn : TxnId} {schema : Schema} {entity : String} {formed formed' : Prop}
  {rows first last : List (RowKey × Row)}

/-- The command brings the rows if it is well formed and the transaction may change them all, and
succeeds only then. -/
def Brings (c : Command α) (txn : TxnId) (schema : Schema) (formed : Prop)
    (rows : List (RowKey × Row)) : Prop :=
  ∀ p : Progress, p.store.schema = schema → (p.store.storage.transaction? txn).isSome →
    (formed → (∀ entry ∈ rows, p.store.storage.Permits txn entry.1) →
      ∃ a w, exec c p = (.ok a, (p.change txn (p.store.storage.upsertions txn rows)).withWork w)) ∧
    ∀ a, (exec c p).1 = .ok a → formed ∧ ∀ entry ∈ rows, p.store.storage.Permits txn entry.1

namespace Brings

theorem pure (a : α) : Brings (pure a : Command α) txn schema True [] := by
  intro p _ _
  refine ⟨fun _ _ => ⟨a, p.store.work, ?_⟩, fun _ _ => ⟨trivial, nofun⟩⟩
  rw [Storage.upsertions, Progress.change_nil]
  rfl

theorem report (event : Log.Event) (fields : List (String × String)) :
    Brings (report event fields) txn schema True [] := by
  intro p _ _
  refine ⟨fun _ _ => ⟨(), (p.report event fields).store.work, ?_⟩, fun _ _ => ⟨trivial, nofun⟩⟩
  rw [Storage.upsertions, Progress.change_nil]
  rfl

theorem congr {c : Command α} (h : Brings c txn schema formed rows) (hiff : formed' ↔ formed) :
    Brings c txn schema formed' rows := by
  intro p hschema hopen
  rw [hiff]
  exact h p hschema hopen

/-- A command that always fails brings nothing. -/
theorem ofError {c : Command α} (hformed : ¬ formed)
    (h : ∀ p : Progress, p.store.schema = schema → ∃ e, (exec c p).1 = .error e) :
    Brings c txn schema formed rows := by
  intro p hschema _
  refine ⟨fun h => absurd h hformed, fun a ha => ?_⟩
  obtain ⟨e, he⟩ := h p hschema
  cases he.symm.trans ha

theorem bind {c : Command α} {f : α → Command β} (hc : Brings c txn schema formed first)
    (hf : ∀ a, Brings (f a) txn schema formed' last) :
    Brings (c >>= f) txn schema (formed ∧ formed') (first ++ last) := by
  intro p hschema hopen
  obtain ⟨hbring, honly⟩ := hc p hschema hopen
  let q (w : Work) : Progress :=
    (p.change txn (p.store.storage.upsertions txn first)).withWork w
  have hopen' (w : Work) : ((q w).store.storage.transaction? txn).isSome := by
    refine Eq.trans ?_ hopen
    exact Storage.isSome_transaction?_changeAll txn _
  constructor
  · rintro ⟨hformed, hformed'⟩ hp
    have hfirst : ∀ entry ∈ first, p.store.storage.Permits txn entry.1 :=
      fun entry hmem => hp entry (List.mem_append_left _ hmem)
    obtain ⟨a, w, ha⟩ := hbring hformed hfirst
    obtain ⟨b, w', hb⟩ := (hf a (q w) hschema (hopen' w)).1 hformed' fun entry hmem =>
      (Storage.permitsAll_upsertions hfirst).changeAll_iff.mpr
        (hp entry (List.mem_append_right _ hmem))
    refine ⟨b, w', ?_⟩
    rw [exec_bind, ha, continueWith_ok]
    refine hb.trans ?_
    rw [Storage.upsertions_append, ← Progress.change_change]
    rfl
  · intro b hb
    rw [exec_bind] at hb
    obtain ⟨a, ha, -⟩ := continueWith_eq_ok (Prod.ext hb rfl)
    obtain ⟨hformed, hfirst⟩ := honly a ha
    obtain ⟨a', w, he⟩ := hbring hformed hfirst
    rw [he] at hb
    obtain ⟨hformed', hlast⟩ := (hf a' (q w) hschema (hopen' w)).2 b hb
    refine ⟨⟨hformed, hformed'⟩, fun entry hmem => ?_⟩
    rcases List.mem_append.mp hmem with hmem | hmem
    · exact hfirst entry hmem
    · exact (Storage.permitsAll_upsertions hfirst).changeAll_iff.mp (hlast entry hmem)

theorem map {c : Command α} (h : Brings c txn schema formed rows) (f : α → β) :
    Brings (c >>= fun a => Pure.pure (f a)) txn schema formed rows := by
  have hmap := h.bind fun a => pure (f a)
  rw [List.append_nil] at hmap
  exact hmap.congr ⟨fun h => ⟨h, trivial⟩, And.left⟩

section

variable {γ : Type} {g : γ → Prop} {brought : γ → List (RowKey × Row)} {xs : List γ}

theorem forM {f : γ → Command Unit} (h : ∀ x, Brings (f x) txn schema (g x) (brought x)) :
    Brings (xs.forM f) txn schema (∀ x ∈ xs, g x) (xs.flatMap brought) := by
  induction xs with
  | nil => exact (pure ()).congr ⟨fun _ => trivial, fun _ => nofun⟩
  | cons x xs ih =>
    rw [List.flatMap_cons]
    exact ((h x).bind fun _ => ih).congr List.forall_mem_cons

theorem mapM {f : γ → Command α} (h : ∀ x ∈ xs, Brings (f x) txn schema (g x) (brought x)) :
    Brings (xs.mapM f) txn schema (∀ x ∈ xs, g x) (xs.flatMap brought) := by
  induction xs with
  | nil => exact (pure []).congr ⟨fun _ => trivial, fun _ => nofun⟩
  | cons x xs ih =>
    rw [List.mapM_cons, List.flatMap_cons]
    have hrest := ih fun z hz => h z (List.mem_cons_of_mem _ hz)
    exact ((h x List.mem_cons_self).bind fun y => hrest.map (y :: ·)).congr List.forall_mem_cons

end

end Brings

/-! ## Creates -/

/-- The row under the key that its id makes, if it has one. -/
def filing (entity : String) (row : Row) : List (RowKey × Row) :=
  (idOf? row).toList.map fun id => (⟨entity, id⟩, row)

/-- What a create in a store where rows may exist does with its row. -/
theorem creation_eq (s : Storage) (txn : TxnId) (entity : String) {row : Row} {id : String}
    (h : idOf? row = some id) : creation s txn entity true row =
      match s.conflict? txn [⟨entity, id⟩] with
      | none => .ok (⟨entity, id⟩, s.upsertion txn ⟨entity, id⟩ row)
      | some (_, owner) => .error (.rowLocked ⟨entity, id⟩ owner) := by
  unfold creation
  rw [h]
  dsimp only
  cases hn : s.node? ⟨entity, id⟩ with
  | none =>
    have hfree : s.conflict? txn [⟨entity, id⟩] = none := by simp [Storage.conflict?, hn]
    have hunseen : s.visible ⟨entity, id⟩ (some txn) = none := by rw [Storage.visible, hn]; rfl
    rw [hfree, Storage.upsertion_of_none hunseen]
  | some n =>
    have hsee : s.visible ⟨entity, id⟩ (some txn) = n.visible (some txn) := by
      rw [Storage.visible, hn]
      rfl
    dsimp only
    cases hv : n.visible (some txn) with
    | none =>
      rw [Storage.upsertion_of_none (hsee.trans hv)]
      rcases s.conflict? txn [⟨entity, id⟩] with _ | ⟨key, owner⟩ <;> rfl
    | some old =>
      rw [Storage.upsertion_of_visible (hsee.trans hv)]
      rcases s.conflict? txn [⟨entity, id⟩] with _ | ⟨key, owner⟩ <;> rfl

theorem createRow_brings (row : Row) :
    Brings (createRow txn entity true row) txn schema (idOf? row).isSome (filing entity row) := by
  unfold filing
  cases hid : idOf? row with
  | none =>
    refine .ofError nofun fun p _ => ⟨.invalidOperation (.noId entity), ?_⟩
    rw [exec_createRow_of_noId hid]
  | some id =>
    intro p _ hopen
    have hpermits : p.store.storage.Permits txn ⟨entity, id⟩ ↔
        p.store.storage.conflict? txn [⟨entity, id⟩] = none := by
      rw [Storage.conflict?_eq_none_iff, List.forall_mem_singleton]
      exact ⟨Storage.Permits.free, fun h => ⟨hopen, h⟩⟩
    simp only [Option.toList_some, List.map_cons, List.map_nil, List.forall_mem_singleton]
    rw [hpermits, exec_createRow_eq, creation_eq _ _ _ hid]
    constructor
    · intro _ hfree
      rw [hfree]
      exact ⟨(), p.store.work, rfl⟩
    · intro a ha
      cases hc : p.store.storage.conflict? txn [⟨entity, id⟩] with
      | none => exact ⟨rfl, rfl⟩
      | some conflict =>
        rw [hc] at ha
        cases ha

theorem rows_of_rowsToCreate {data : Json} {rows : List Row}
    (h : rowsToCreate entity data = .ok rows) : data.rows = rows := by
  cases data with
  | obj row =>
    cases h
    rfl
  | arr items =>
    rw [eq_map_obj_of_rowsToCreate h, Json.rows, List.filterMap_map]
    exact List.filterMap_some
  | _ => cases h

end Command

/-- The entity is declared, and the value is a row or an array of rows, all of which have an id. -/
structure Json.Creatable (data : Json) (schema : Schema) (entity : String) : Prop where
  declared : ∃ e, schema.entity entity = .ok e
  rows : ∃ rows, Command.rowsToCreate entity data = .ok rows
  identified : ∀ row ∈ data.rows, (Command.idOf? row).isSome

namespace Command

variable {txn : TxnId} {schema : Schema} {entity : String}

theorem createRows_brings (data : Json) : Brings (createRows txn entity true data) txn schema
    ((∃ rows, rowsToCreate entity data = .ok rows) ∧ ∀ row ∈ data.rows, (idOf? row).isSome)
    (data.rows.flatMap (filing entity)) := by
  cases hrows : rowsToCreate entity data with
  | error e =>
    refine .ofError (fun h => ?_) fun p _ => ⟨e, ?_⟩
    · obtain ⟨⟨rows, hok⟩, -⟩ := h
      cases hok
    · rw [createRows, hrows]
      rfl
  | ok rows =>
    rw [createRows_eq hrows, rows_of_rowsToCreate hrows]
    exact ((Brings.forM createRow_brings).map fun _ => rows.length).congr
      (and_iff_right ⟨rows, rfl⟩)

/-- Only a declared entity can be mutated. -/
theorem mutate_undeclared {e : SchemaError} (h : schema.entity entity = .error e) {p : Progress}
    (hschema : p.store.schema = schema) (op : Operation) (allowExists : Bool) :
    ∃ error, (exec (mutate (some txn) entity op allowExists) p).1 = .error error := by
  rcases mutate_cases (some txn) entity p with ⟨error, hrefused⟩ | ⟨_, _, -, -, hentity⟩
  · exact ⟨error, by rw [hrefused]⟩
  · rw [hschema, h] at hentity
    cases hentity

theorem mutate_brings (entity : String) (data : Json) :
    Brings (mutate (some txn) entity (.create data) true) txn schema (data.Creatable schema entity)
      (data.rows.flatMap (filing entity)) := by
  cases hentity : schema.entity entity with
  | error e =>
    refine .ofError (fun h => ?_) fun p hschema => mutate_undeclared hentity hschema _ true
    obtain ⟨_, he⟩ := h.declared
    cases hentity.symm.trans he
  | ok e =>
    intro p hschema hopen
    have hperform : Brings (perform txn entity (.create data) true) txn schema _ _ :=
      createRows_brings data
    obtain ⟨hbring, honly⟩ := hperform p hschema hopen
    rw [← hschema] at hentity
    obtain ⟨w, hmutate⟩ := exec_mutate hopen hentity (.create data) true
    rw [hmutate]
    refine ⟨fun hformed hp => ?_, fun a ha => ?_⟩
    · obtain ⟨a, w', he⟩ := hbring ⟨hformed.rows, hformed.identified⟩ hp
      rw [he]
      exact ⟨a, w, rfl⟩
    · obtain ⟨⟨hrows, hid⟩, hp⟩ := honly a ha
      exact ⟨⟨⟨e, hschema ▸ hentity⟩, hrows, hid⟩, hp⟩

end Command

/-! ## Records -/

namespace SyncRecord

/-- The record only brings rows. -/
def Hydrates : SyncRecord → Prop
  | create .. | snapshot _ => True
  | update .. | remove .. => False

/-- The values that the record creates rows from, each with its entity. -/
def creates : SyncRecord → List (String × Json)
  | create entity data => [(entity, data)]
  | snapshot rows => (Command.filed rows).map fun x => (x.1, .obj x.2)
  | update .. | remove .. => []

/-- Every create of the record is well formed. -/
def Creatable (record : SyncRecord) (schema : Schema) : Prop :=
  ∀ c ∈ record.creates, c.2.Creatable schema c.1

/-- The rows that the record brings, each under its key. -/
def brought (record : SyncRecord) : List (RowKey × Row) :=
  record.creates.flatMap fun c => c.2.rows.flatMap (Command.filing c.1)

variable {record : SyncRecord} {key : RowKey} {row : Row}

theorem unique_snapshot {rows : NameMap (NameMap Row)}
    (h : ∀ table ∈ rows.toList, ∀ entry ∈ table.2.toList, (Fields.names entry.2).Nodup) :
    (snapshot rows).Unique := by
  intro entity table htable id row hrow
  exact h (entity, table) (Std.ExtTreeMap.mem_toList_iff_getElem?_eq_some.mpr htable) (id, row)
    (Std.ExtTreeMap.mem_toList_iff_getElem?_eq_some.mpr hrow)

theorem mem_operations_of_mem_creates {c : String × Json} (h : c ∈ record.creates) :
    (c.1, .create c.2) ∈ record.operations := by
  cases record with
  | create entity data =>
    cases List.mem_singleton.mp h
    exact List.mem_singleton_self _
  | snapshot rows =>
    obtain ⟨x, hx, rfl⟩ := List.mem_map.mp h
    rw [Command.operations_snapshot]
    exact List.mem_flatMap.mpr ⟨x, hx, List.mem_singleton_self _⟩
  | update | remove => cases h

theorem mem_brought : (key, row) ∈ record.brought ↔
    ∃ c ∈ record.creates, c.1 = key.entity ∧ row ∈ c.2.rows ∧ Command.idOf? row = some key.id := by
  have hfiling (entity : String) (row' : Row) : (key, row) ∈ Command.filing entity row' ↔
      entity = key.entity ∧ row' = row ∧ Command.idOf? row' = some key.id := by
    obtain ⟨keyEntity, keyId⟩ := key
    cases hid : Command.idOf? row' with
    | none => simp [Command.filing, hid]
    | some id =>
      simp only [Command.filing, hid, Option.toList_some, List.map_cons, List.map_nil,
        List.mem_singleton, Prod.mk.injEq, RowKey.mk.injEq, Option.some.injEq]
      constructor
      · exact fun h => ⟨h.1.1.symm, h.2.symm, h.1.2.symm⟩
      · exact fun h => ⟨⟨h.1.symm, h.2.2.symm⟩, h.2.1.symm⟩
  simp only [brought, List.mem_flatMap, hfiling]
  constructor
  · rintro ⟨c, hc, row', hrow, he, rfl, hid⟩
    exact ⟨c, hc, he, hrow, hid⟩
  · rintro ⟨c, hc, he, hrow, hid⟩
    exact ⟨c, hc, row, hrow, he, rfl, hid⟩

/-- Rows are brought under keys that they fit. -/
theorem fits_of_mem_brought (hu : record.Unique) (h : (key, row) ∈ record.brought) :
    key.Fits row := by
  obtain ⟨c, hc, he, hrow, hid⟩ := mem_brought.mp h
  have hasked : record.Asks key (.put row) :=
    ⟨c.1, _, mem_operations_of_mem_creates hc, he.symm, row, hrow, hid, .inl rfl⟩
  exact ⟨hasked.unique hu, Command.get?_of_idOf? hid⟩

theorem fits_of_mem_flatMap_brought {records : List SyncRecord}
    (hu : ∀ record ∈ records, record.Unique) :
    ∀ entry ∈ records.flatMap brought, entry.1.Fits entry.2 := by
  intro entry hmem
  obtain ⟨record, hrecord, hmem⟩ := List.mem_flatMap.mp hmem
  exact fits_of_mem_brought (hu record hrecord) hmem

end SyncRecord

namespace Command

variable {txn : TxnId} {schema : Schema}

theorem replay_brings {record : SyncRecord} (h : record.Hydrates) :
    Brings (replay (some txn) record) txn schema (record.Creatable schema) record.brought := by
  cases record with
  | create entity data =>
    rw [SyncRecord.brought, SyncRecord.creates, List.flatMap_singleton]
    exact (mutate_brings entity data).congr List.forall_mem_singleton
  | snapshot rows =>
    have hrow (x : String × Row) : Brings (mutate (some txn) x.1 (.create (.obj x.2)) true) txn
        schema _ _ := mutate_brings x.1 (.obj x.2)
    rw [SyncRecord.brought, SyncRecord.creates, List.flatMap_map]
    exact ((Brings.mapM fun x _ => hrow x).map total).congr List.forall_mem_map
  | update | remove => exact h.elim

/-- A sync of creates and snapshots brings their rows. -/
theorem sync_brings {records : List SyncRecord} (h : ∀ record ∈ records, record.Hydrates) :
    Brings (sync (some txn) records) txn schema (∀ record ∈ records, record.Creatable schema)
      (records.flatMap SyncRecord.brought) := by
  have hrecords : Brings (records.mapM (replay (some txn))) txn schema _ _ :=
    .mapM fun record hmem => replay_brings (h record hmem)
  have hsync := hrecords.bind fun counts => .report .syncComplete
    [("records", natText records.length), ("rows", natText (total counts))]
  rw [List.append_nil] at hsync
  exact hsync.congr ⟨fun h => ⟨h, trivial⟩, And.left⟩

end Command

namespace Storage.Ledger

variable {s s' : Storage} {txn other : TxnId} {t : Transaction} {key : RowKey}

/-- What a transaction owned when it was committed may be changed by the next one. -/
theorem permits_next (H : s.Ledger) (h : s.commit txn = some (t, s')) (hown : s.Owns txn key)
    (other : TxnId) : (s'.begin other).Permits other key := by
  refine ⟨?_, fun n hn => Node.isFreeFor_iff.mpr fun owner ho => ?_⟩
  · rw [transaction?_begin, if_pos rfl]
    rfl
  · have howner : s'.Owns owner key := ⟨n, hn, ho⟩
    obtain ⟨hne, hbefore⟩ := (H.owns_close_iff h fun _ => rfl).mp howner
    exact absurd (hbefore.unique hown) hne

/-- A new transaction sees what the committed one saw. -/
theorem visible_next (H : s.Ledger) (h : s.commit txn = some (t, s'))
    (hnew : s.transaction? other = none) (key : RowKey) :
    (s'.begin other).visible key (some other) = s.visible key (some txn) := by
  have hnone : ¬ s'.Owns other key := by
    intro hown
    obtain ⟨n, hn, ho⟩ := ((H.owns_close_iff h fun _ => rfl).mp hown).2
    obtain ⟨t, ht, -⟩ := H.registered hn ho
    cases hnew.symm.trans ht
  exact (visible_eq_current hnone).trans (H.visible_commit h key)

end Storage.Ledger

namespace Store

variable {s : Store} {txn : TxnId} {records : List SyncRecord}

/-- A hydration that is well formed and that the transaction may do succeeds, and leaves what the
rows that it brings lead to. -/
theorem sync_hydrates (h : ∀ record ∈ records, record.Hydrates)
    (hopen : (s.storage.transaction? txn).isSome)
    (hformed : ∀ record ∈ records, record.Creatable s.schema)
    (hp : ∀ entry ∈ records.flatMap SyncRecord.brought, s.storage.Permits txn entry.1) :
    ∃ work, s.sync (some txn) records = (.ok (), { s with
      storage := s.storage.changeAll txn
        (s.storage.upsertions txn (records.flatMap SyncRecord.brought))
      work }) := by
  obtain ⟨hbring, -⟩ := Command.sync_brings h { store := s } rfl hopen
  obtain ⟨_, w, he⟩ := hbring hformed hp
  exact ⟨w, congrArg (fun r => (r.1, r.2.store)) he⟩

theorem hydrates_of_sync (h : ∀ record ∈ records, record.Hydrates)
    (hopen : (s.storage.transaction? txn).isSome)
    (hok : (s.sync (some txn) records).1 = .ok ()) :
    (∀ record ∈ records, record.Creatable s.schema) ∧
      ∀ entry ∈ records.flatMap SyncRecord.brought, s.storage.Permits txn entry.1 :=
  (Command.sync_brings h { store := s } rfl hopen).2 () hok

/-! ## A second time -/

/-- The transaction may bring the rows of the records, and what it sees has absorbed them. -/
structure Hydrated (s : Store) (txn : TxnId) (records : List SyncRecord) : Prop where
  ledger : s.storage.Ledger
  keyed : s.storage.Keyed
  isOpen : (s.storage.transaction? txn).isSome
  formed : ∀ record ∈ records, record.Creatable s.schema
  permits : ∀ entry ∈ records.flatMap SyncRecord.brought, s.storage.Permits txn entry.1
  absorbed : ∀ key, ∃ old, s.storage.visible key (some txn) =
    (filedUnder key (records.flatMap SyncRecord.brought)).foldl absorb old

/-- A sync that succeeds hydrates, and its transaction owns the rows that it has brought. -/
theorem hydrated_sync (H : s.storage.Ledger) (K : s.storage.Keyed)
    (h : ∀ record ∈ records, record.Hydrates) (hu : ∀ record ∈ records, record.Unique)
    (hopen : (s.storage.transaction? txn).isSome)
    (hok : (s.sync (some txn) records).1 = .ok ()) :
    (s.sync (some txn) records).2.Hydrated txn records ∧
      ∀ entry ∈ records.flatMap SyncRecord.brought,
        (s.sync (some txn) records).2.storage.Owns txn entry.1 := by
  let rows := records.flatMap SyncRecord.brought
  have hfit : ∀ entry ∈ rows, entry.1.Fits entry.2 := SyncRecord.fits_of_mem_flatMap_brought hu
  obtain ⟨hformed, hp⟩ := hydrates_of_sync h hopen hok
  obtain ⟨w, he⟩ := sync_hydrates h hopen hformed hp
  have hall : s.storage.PermitsAll txn (s.storage.upsertions txn rows) :=
    Storage.permitsAll_upsertions hp
  rw [he]
  refine ⟨⟨H.changeAll hall, ?_, ?_, hformed, fun entry hmem => ?_, fun key => ?_⟩, ?_⟩
  · exact K.changeAll H hall (Storage.acceptsAll_upsertions hfit)
  · rw [Storage.isSome_transaction?_changeAll]
    exact hopen
  · exact hall.changeAll_iff.mpr (hp entry hmem)
  · exact ⟨_, Storage.visible_upsertions H K hp hfit key⟩
  · exact fun entry hmem => Storage.owns_upsertions H K hp hfit hmem

/-- Where the rows are absorbed already, bringing them succeeds and changes nothing. -/
theorem Hydrated.sync (D : s.Hydrated txn records) (h : ∀ record ∈ records, record.Hydrates)
    (hu : ∀ record ∈ records, record.Unique) :
    (s.sync (some txn) records).1 = .ok () ∧ ∀ key,
      (s.sync (some txn) records).2.storage.visible key (some txn) =
        s.storage.visible key (some txn) := by
  have hfit := SyncRecord.fits_of_mem_flatMap_brought hu
  obtain ⟨w, he⟩ := sync_hydrates h D.isOpen D.formed D.permits
  rw [he]
  refine ⟨rfl, fun key => ?_⟩
  obtain ⟨old, hold⟩ := D.absorbed key
  rw [Storage.visible_upsertions D.ledger D.keyed D.permits hfit, hold]
  exact foldl_absorb_foldl_absorb (fun row hrow => (hfit _ (mem_filedUnder.mp hrow)).nodup) old

/-- The transaction after a commit sees the absorbed rows that the committed one saw. -/
theorem Hydrated.next (D : s.Hydrated txn records)
    (howned : ∀ entry ∈ records.flatMap SyncRecord.brought, s.storage.Owns txn entry.1)
    {next : TxnId} (hnew : s.storage.transaction? next = none) :
    (s.commit txn).1 = .ok () ∧ ((s.commit txn).2.begin next).Hydrated next records ∧
      ∀ key, ((s.commit txn).2.begin next).storage.visible key (some next) =
        s.storage.visible key (some txn) := by
  obtain ⟨t, storage, hc⟩ := commit_isOpen D.isOpen
  obtain ⟨hok, hcommitted⟩ := commit_of_some hc
  have hstorage : ((s.commit txn).2.begin next).storage = storage.begin next :=
    congrArg (Storage.begin · next) hcommitted
  have hnone : storage.transaction? next = none := by
    rw [Storage.transaction?_close hc, hnew, ite_self]
  have hsee := D.ledger.visible_next hc hnew
  have hschema : ((s.commit txn).2.begin next).schema = s.schema := s.schema_call (.commit txn)
  refine ⟨hok, ⟨?_, ?_, ?_, ?_, fun entry hmem => ?_, fun key => ?_⟩, fun key => ?_⟩
  · exact hstorage ▸ (D.ledger.commit hc).begin hnone
  · have hkeyed : storage.Keyed := D.keyed.commit D.ledger hc
    rw [hstorage]
    exact hkeyed
  · rw [hstorage, Storage.transaction?_begin, if_pos rfl]
    rfl
  · rw [hschema]
    exact D.formed
  · rw [hstorage]
    exact D.ledger.permits_next hc (howned entry hmem) next
  · rw [hstorage, hsee]
    exact D.absorbed key
  · rw [hstorage, hsee]

/-- Creates and snapshots that were synced once can be synced again, in the same transaction or,
after its commit, in a new one. No row that the transaction sees is changed by that. -/
theorem sync_idempotent (schema : Schema) (config : Config) {calls : List Call}
    (hfresh : Call.Fresh calls) (hunique : ∀ call ∈ calls, call.Unique)
    (h : ∀ record ∈ records, record.Hydrates) (hu : ∀ record ∈ records, record.Unique) :
    let s := ({ schema, config } : Store).run calls
    (s.storage.transaction? txn).isSome → (s.sync (some txn) records).1 = .ok () →
    let synced := (s.sync (some txn) records).2
    let again := synced.sync (some txn) records
    (again.1 = .ok () ∧ ∀ entity id,
      (again.2.view (some txn)).row? entity id = (synced.view (some txn)).row? entity id) ∧
    ∀ next ∉ calls.filterMap Call.opened?,
      let committed := (synced.commit txn).2.begin next
      let again := committed.sync (some next) records
      (synced.commit txn).1 = .ok () ∧ again.1 = .ok () ∧ ∀ entity id,
        (committed.view (some next)).row? entity id = (synced.view (some txn)).row? entity id ∧
        (again.2.view (some next)).row? entity id = (synced.view (some txn)).row? entity id := by
  intro s hopen hok synced
  have S := serial_run schema config hfresh hunique
  obtain ⟨D, howned⟩ := hydrated_sync S.ledger S.keyed h hu hopen hok
  constructor
  · obtain ⟨hagain, hsame⟩ := D.sync h hu
    refine ⟨hagain, fun entity id => ?_⟩
    rw [row?_view, row?_view, hsame]
  · intro next hnext committed
    have hnew : synced.storage.transaction? next = none := by
      have hsync := s.step_call (.sync (some txn) records)
      have T := hsync.tracked S.toTracked nofun
      rw [Serial.opened_append rfl] at T
      exact Option.not_isSome_iff_eq_none.mp fun hsome => hnext (T.isOpened next hsome)
    obtain ⟨hcommit, D', hsee⟩ := D.next howned hnew
    obtain ⟨hagain, hsame⟩ := D'.sync h hu
    refine ⟨hcommit, hagain, fun entity id => ?_⟩
    rw [row?_view, row?_view, row?_view, hsame, hsee]
    exact ⟨rfl, rfl⟩

/-- Two patches of a committed row and a snapshot of a new one, brought twice by one transaction and
once more by the next. -/
theorem sync_idempotent_patches :
    let schema : Schema := { entities := Std.ExtTreeMap.ofList [("note", {})] compare }
    let row (id text : String) : Row := [("id", .str id), ("text", .str text)]
    let a : TxnId := ⟨1, "a"⟩
    let b : TxnId := ⟨2, "b"⟩
    let c : TxnId := ⟨3, "c"⟩
    let calls : List Call := [.begin a,
      .mutate (some a) "note" (.create (.obj (row "x" "old"))) false, .commit a, .begin b]
    let s := ({ schema } : Store).run calls
    let notes := Std.ExtTreeMap.ofList [("y", [("text", .str "new")])] compare
    let records : List SyncRecord := [.create "note" (.arr [.obj (row "x" "first"),
      .obj (row "x" "last")]), .snapshot (Std.ExtTreeMap.ofList [("note", notes)] compare)]
    let synced := (s.sync (some b) records).2
    let again := synced.sync (some b) records
    let later := ((synced.commit b).2.begin c).sync (some c) records
    (s.storage.transaction? b).isSome ∧ (s.sync (some b) records).1 = .ok () ∧
      again.1 = .ok () ∧ (again.2.view (some b)).row? "note" "x" = some (row "x" "last") ∧
      later.1 = .ok () ∧ (later.2.view (some c)).row? "note" "x" = some (row "x" "last") := by
  intro schema row a b c calls s notes records synced again later
  have hunique : ∀ call ∈ calls, call.Unique := by
    simp [calls, row, Call.Unique, Operation.Unique, Operation.create, Json.UniqueRows, Json.rows,
      Fields.names]
  have h : ∀ record ∈ records, record.Hydrates := by simp [records, SyncRecord.Hydrates]
  have hu : ∀ record ∈ records, record.Unique := by
    refine List.forall_mem_cons.mpr ⟨?_, List.forall_mem_singleton.mpr ?_⟩
    · simp [row, SyncRecord.Unique, Json.UniqueRows, Json.rows, Json.obj?, Fields.names]
    · exact SyncRecord.unique_snapshot (by decide)
  have hopen : (s.storage.transaction? b).isSome := by decide
  have hok : (s.sync (some b) records).1 = .ok () := by decide
  obtain ⟨⟨hagain, hsame⟩, hnext⟩ := sync_idempotent schema {} (by decide) hunique h hu hopen hok
  obtain ⟨-, hlater, hsame'⟩ := hnext c (by decide)
  have hx : (synced.view (some b)).row? "note" "x" = some (row "x" "last") := by
    rw [row?_view]
    decide
  exact ⟨hopen, hok, hagain, (hsame _ _).trans hx, hlater, (hsame' _ _).2.trans hx⟩

end Store

end EntityStore
