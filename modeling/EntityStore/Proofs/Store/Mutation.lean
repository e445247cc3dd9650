import EntityStore.Proofs.Json.Rows
import EntityStore.Proofs.Store.Progress

/-! Mutations and syncs as row changes. A mutation makes the row changes that its operation asks for
(`Command.mutate_makes`), a sync those that its records ask for (`Command.sync_makes`), whether or
not they fail in the end. -/

namespace EntityStore

/-- The row changes that an operation asks for. Of a row to create it may ask to put the row, or to
merge it into the row that there is. -/
def Operation.Asks (op : Operation) (entity : String) (key : RowKey) (c : RowChange) : Prop :=
  key.entity = entity ∧ match op.action with
  | .create => ∃ row ∈ op.data.rows, Command.idOf? row = some key.id ∧
      (c = .put row ∨ c = .merge row)
  | .remove => c = .delete
  | .update | .custom _ => ∃ patch, op.data = .obj patch ∧ c = .merge patch

/-- The rows or the patch of the operation name each attribute once. -/
def Operation.Unique (op : Operation) : Prop := op.data.UniqueRows

theorem Operation.Asks.unique {op : Operation} {entity : String} {key : RowKey} {c : RowChange}
    (h : op.Asks entity key c) (hu : op.Unique) : c.Unique := by
  obtain ⟨-, h⟩ := h
  cases ha : op.action with
  | create =>
    rw [ha] at h
    obtain ⟨row, hmem, -, rfl | rfl⟩ := h <;> exact hu row hmem
  | remove =>
    rw [ha] at h
    cases h
    trivial
  | update | custom =>
    rw [ha] at h
    obtain ⟨patch, hdata, rfl⟩ := h
    exact hu patch (by rw [hdata]; exact List.mem_singleton_self patch)

theorem Store.select_eq (s : Store) (txn : Option TxnId) (entity : String) (selection : Selection)
    (option : SelectOption) : s.select txn entity selection option =
      let r := exec ((s.view txn).select entity selection option) s.work
      (r.1.mapError .query, { s with work := r.2 }) := rfl

namespace Command

variable {α β : Type} {p : Progress} {txn : TxnId} {entity : String}
  {asked : RowKey → RowChange → Prop}

theorem extends_continueWith {f : α → Command β} {r : Except StoreError α × Progress}
    (h : p.Extends txn asked r.2)
    (hf : ∀ a, r.1 = .ok a → r.2.Extends txn asked (exec (f a) r.2).2) :
    p.Extends txn asked (continueWith f r).2 := by
  obtain ⟨_ | a, q⟩ := r
  · exact h
  · exact h.trans (hf a rfl)

/-! ## Creating rows -/

theorem get?_of_idOf? {row : Row} {id : String} (h : idOf? row = some id) :
    Fields.get? row "id" = some (.str id) := by
  obtain ⟨v, hv, hs⟩ := Option.bind_eq_some_iff.mp h
  cases v <;> cases hs
  exact hv

theorem createRow_extends {row : Row} (hopen : (p.store.storage.transaction? txn).isSome)
    (hasked : ∀ {id}, idOf? row = some id →
      asked ⟨entity, id⟩ (.put row) ∧ asked ⟨entity, id⟩ (.merge row)) (allowExists : Bool) :
    p.Extends txn asked (exec (createRow txn entity allowExists row) p).2 := by
  cases hid : idOf? row with
  | none =>
    rw [exec_createRow_of_noId hid]
    exact .refl p
  | some id =>
    have hget := get?_of_idOf? hid
    have hfits (hu : (Fields.names row).Nodup) : RowKey.Fits ⟨entity, id⟩ row := ⟨hu, hget⟩
    have hput (hc : p.store.storage.conflict? txn [⟨entity, id⟩] = none)
        (hv : p.store.storage.visible ⟨entity, id⟩ (some txn) = none) :
        p.Extends txn asked (p.change txn [(⟨entity, id⟩, .put row)]) :=
      .change <| .single hopen hc (hasked hid).1 fun hu => ⟨hfits hu, hv⟩
    have hmerge {existing : Row} (hc : p.store.storage.conflict? txn [⟨entity, id⟩] = none)
        (hv : p.store.storage.visible ⟨entity, id⟩ (some txn) = some existing) :
        p.Extends txn asked (p.change txn [(⟨entity, id⟩, .merge row)]) :=
      .change <| .single hopen hc (hasked hid).2 fun hu => ⟨(hfits hu).keeps, by rw [hv]; rfl⟩
    rw [exec_createRow hid]
    dsimp only
    cases hn : p.store.storage.node? ⟨entity, id⟩ with
    | none =>
      refine hput ?_ ?_
      · simp [Storage.conflict?, hn]
      · rw [Storage.visible, hn]
        rfl
    | some n =>
      have hsee : p.store.storage.visible ⟨entity, id⟩ (some txn) = n.visible (some txn) := by
        rw [Storage.visible, hn]
        rfl
      dsimp only
      cases hc : p.store.storage.conflict? txn [⟨entity, id⟩] with
      | some conflict =>
        cases n.visible (some txn) <;> cases allowExists <;>
          first | exact .refl p | exact .report p _ _
      | none =>
        cases hv : n.visible (some txn) with
        | some existing =>
          cases allowExists with
          | false => exact .refl p
          | true => exact hmerge hc (hsee.trans hv)
        | none =>
          cases allowExists with
          | false => exact .refl p
          | true => exact hput hc (hsee.trans hv)

theorem createRows_extends {rows : List Row} (hopen : (p.store.storage.transaction? txn).isSome)
    (hasked : ∀ row ∈ rows, ∀ {id}, idOf? row = some id →
      asked ⟨entity, id⟩ (.put row) ∧ asked ⟨entity, id⟩ (.merge row)) (allowExists : Bool) :
    p.Extends txn asked (exec (rows.forM (createRow txn entity allowExists)) p).2 := by
  induction rows generalizing p with
  | nil => exact .refl p
  | cons row rows ih =>
    rw [exec_forM_cons]
    have hrow := createRow_extends hopen (hasked row List.mem_cons_self) allowExists
    refine extends_continueWith hrow fun _ _ => ih ?_ fun row hmem => ?_
    · rw [hrow.isSome_transaction?]
      exact hopen
    · exact hasked row (List.mem_cons_of_mem _ hmem)

theorem mem_rows_of_rowsToCreate {data : Json} {rows : List Row}
    (h : rowsToCreate entity data = .ok rows) {row : Row} (hmem : row ∈ rows) :
    row ∈ data.rows := by
  cases data with
  | obj fields => cases h; exact hmem
  | arr items =>
    obtain ⟨item, hitem, he⟩ := mem_of_mapM_eq_ok h hmem
    refine List.mem_filterMap.mpr ⟨item, hitem, ?_⟩
    cases item with
    | obj fields => cases he; rfl
    | _ => cases he
  | _ => cases h

/-! ## Updating and removing rows -/

/-- The rows whose ids these are differ from each other, and the transaction sees them all. -/
def Seen (s : Storage) (txn : TxnId) (entity : String) (ids : List String) : Prop :=
  ids.Nodup ∧ ∀ id ∈ ids, (s.visible ⟨entity, id⟩ (some txn)).isSome

/-- The search for the rows of a mutation, as a select of ids. -/
theorem matchingIds_eq (txn : TxnId) (entity : String) (filter : Option Json) :
    matchingIds txn entity filter = ExceptT.mk fun p =>
      let r := exec ((p.store.view (some txn)).selectIds entity filter) p.store.work
      ((r.1.mapError .query).map fun rows => rows.filterMap fun row =>
        (Fields.get? row "id").bind Json.str?, p.withWork r.2) := by
  simp only [← View.select_idSelection_eq]
  rfl

theorem exec_matchingIds (txn : TxnId) (entity : String) (filter : Option Json) (p : Progress) :
    ∃ r w, exec (matchingIds txn entity filter) p = (r, p.withWork w) ∧
      ∀ ids, r = .ok ids → p.store.storage.Keyed → Seen p.store.storage txn entity ids := by
  rcases hr : exec ((p.store.view (some txn)).select entity (View.idSelection filter) {})
    p.store.work with ⟨r, w⟩
  refine ⟨(r.mapError .query).map fun rows => rows.filterMap fun row =>
    (Fields.get? row "id").bind Json.str?, w, ?_, fun ids hids K => ?_⟩
  · rw [matchingIds_eq, exec_mk, ← View.select_idSelection_eq, hr]
  · cases r with
    | error e => cases hids
    | ok out =>
      cases hids
      have hrow (id : String) : (p.store.view (some txn)).row? entity id =
          p.store.storage.visible ⟨entity, id⟩ (some txn) :=
        Storage.row?_view _ p.store.schema _ _ _
      obtain ⟨hd, hseen⟩ := View.ids_of_select hr fun {id row} hv => by
        rw [hrow] at hv
        obtain ⟨n, hn, hv⟩ := Option.bind_eq_some_iff.mp hv
        exact ((K _ n hn).fits_visible hv).id
      exact ⟨hd, fun id hid => hrow id ▸ hseen id hid⟩

theorem nodup_keys {ids : List String} (h : ids.Nodup) : (ids.map (RowKey.mk entity)).Nodup :=
  List.pairwise_map.mpr (h.imp fun hne he => hne (RowKey.mk.inj he).2)

/-- Rows that are seen may be patched alike if the patch changes none of their ids. -/
theorem accepts_merge {s : Storage} {ids : List String} {patch : Row}
    (hseen : Seen s txn entity ids) (hkeeps : changesId patch ids = false)
    (hu : (Fields.names patch).Nodup) :
    ∀ key ∈ ids.map (RowKey.mk entity), s.Accepts txn key (.merge patch) := by
  intro key hkey
  obtain ⟨id, hid, rfl⟩ := List.mem_map.mp hkey
  refine ⟨⟨hu, fun {v} hv => ?_⟩, hseen.2 id hid⟩
  have hs : v.str? = some id := by
    refine Decidable.byContradiction fun hne => ?_
    rw [changesId, hv, Option.any_some, List.any_eq_false] at hkeeps
    exact hkeeps id hid (decide_eq_true hne)
  cases v <;> cases hs
  rfl

theorem accepts_delete {s : Storage} {ids : List String} (hseen : Seen s txn entity ids) :
    ∀ key ∈ ids.map (RowKey.mk entity), s.Accepts txn key .delete := by
  intro key hkey
  obtain ⟨id, hid, rfl⟩ := List.mem_map.mp hkey
  exact ⟨trivial, hseen.2 id hid⟩

theorem updateRows_extends {ids : List String} {patch : Row}
    (hopen : (p.store.storage.transaction? txn).isSome)
    (hasked : ∀ id, asked ⟨entity, id⟩ (.merge patch))
    (hseen : p.store.storage.Keyed → Seen p.store.storage txn entity ids) :
    p.Extends txn asked (exec (updateRows txn entity ids patch) p).2 := by
  rw [exec_updateRows]
  split
  · exact .refl p
  · rename_i hkeeps
    refine .claim hopen (fun key hkey => ?_) fun _ K hu => ?_
    · obtain ⟨id, -, rfl⟩ := List.mem_map.mp hkey
      exact hasked id
    · have hkeeps : changesId patch ids = false := eq_false_of_ne_true hkeeps
      exact ⟨nodup_keys (hseen K).1, accepts_merge (hseen K) hkeeps hu⟩

theorem removeRows_extends {ids : List String}
    (hopen : (p.store.storage.transaction? txn).isSome)
    (hasked : ∀ id, asked ⟨entity, id⟩ .delete)
    (hseen : p.store.storage.Keyed → Seen p.store.storage txn entity ids) :
    p.Extends txn asked (exec (removeRows txn entity ids) p).2 := by
  rw [exec_removeRows]
  refine .claim hopen (fun key hkey => ?_) fun _ K _ => ?_
  · obtain ⟨id, -, rfl⟩ := List.mem_map.mp hkey
    exact hasked id
  · exact ⟨nodup_keys (hseen K).1, accepts_delete (hseen K)⟩

theorem extends_matching {filter : Option Json} {f : List String → Command β}
    (hf : ∀ ids w, (p.store.storage.Keyed → Seen p.store.storage txn entity ids) →
      (p.withWork w).Extends txn asked (exec (f ids) (p.withWork w)).2) :
    p.Extends txn asked (exec (matchingIds txn entity filter >>= f) p).2 := by
  obtain ⟨r, w, he, hseen⟩ := exec_matchingIds txn entity filter p
  rw [exec_bind, he]
  exact extends_continueWith (.withWork p w) fun ids hids => hf ids w (hseen ids hids)

/-! ## Operations -/

theorem perform_extends (op : Operation) (hopen : (p.store.storage.transaction? txn).isSome)
    (allowExists : Bool) :
    p.Extends txn (op.Asks entity) (exec (perform txn entity op allowExists) p).2 := by
  unfold perform
  cases ha : op.action with
  | create =>
    dsimp only
    unfold createRows
    rw [exec_bind, exec_ofExcept]
    refine extends_continueWith (.refl p) fun rows hrows => ?_
    rw [exec_bind]
    refine extends_continueWith (createRows_extends hopen (fun row hmem {id} hid => ?_) _)
      fun _ _ => .refl _
    have hgiven := mem_rows_of_rowsToCreate hrows hmem
    refine ⟨⟨rfl, ?_⟩, ⟨rfl, ?_⟩⟩ <;> rw [ha]
    · exact ⟨row, hgiven, hid, .inl rfl⟩
    · exact ⟨row, hgiven, hid, .inr rfl⟩
  | remove =>
    refine extends_matching fun ids w hseen => removeRows_extends hopen (fun id => ⟨rfl, ?_⟩) hseen
    rw [ha]
  | update | custom =>
    dsimp only
    cases hdata : op.data with
    | obj patch =>
      refine extends_matching fun ids w hseen =>
        updateRows_extends hopen (fun id => ⟨rfl, ?_⟩) hseen
      rw [ha]
      exact ⟨patch, hdata, rfl⟩
    | _ => exact .refl p

/-- Whatever comes of a command, it makes row changes that a transaction may make and that are asked
for, and else only works. -/
def Makes (c : Command α) (txn : TxnId) (asked : RowKey → RowChange → Prop) : Prop :=
  ∀ p : Progress, p.Extends txn asked (exec c p).2

namespace Makes

theorem pure (a : α) : Makes (pure a : Command α) txn asked := fun p => .refl p

theorem report (event : Log.Event) (fields : List (String × String)) :
    Makes (report event fields) txn asked := fun p => .report p event fields

theorem bind {c : Command α} {f : α → Command β} (hc : Makes c txn asked)
    (hf : ∀ a, Makes (f a) txn asked) : Makes (c >>= f) txn asked := by
  intro p
  rw [exec_bind]
  exact extends_continueWith (hc p) fun a _ => hf a _

theorem mapM {f : α → Command β} {xs : List α} (h : ∀ x ∈ xs, Makes (f x) txn asked) :
    Makes (xs.mapM f) txn asked := by
  induction xs with
  | nil => exact pure []
  | cons x xs ih =>
    rw [List.mapM_cons]
    refine (h x List.mem_cons_self).bind fun y => ?_
    exact (ih fun z hz => h z (List.mem_cons_of_mem _ hz)).bind fun ys => pure (y :: ys)

theorem mono {asked' : RowKey → RowChange → Prop} {c : Command α} (h : Makes c txn asked)
    (hle : ∀ {key c}, asked key c → asked' key c) : Makes c txn asked' := fun p => (h p).mono hle

end Makes

theorem exec_openTransaction (txn : TxnId) (p : Progress) :
    exec (openTransaction (some txn)) p =
      if (p.store.storage.transaction? txn).isSome then (.ok txn, p)
      else (.error (.unknownTransaction txn), p) := by
  unfold openTransaction
  dsimp only
  rw [exec_bind, exec_get, continueWith_ok]
  split <;> rfl

/-- A mutation makes the row changes that its operation asks for, and none outside of any
transaction. -/
theorem mutate_makes {caller : Option TxnId} (h : caller = none ∨ caller = some txn)
    (entity : String) (op : Operation) (allowExists : Bool) :
    Makes (mutate caller entity op allowExists) txn fun key c =>
      caller = some txn ∧ op.Asks entity key c := by
  intro p
  obtain rfl | rfl := h
  · exact .refl p
  unfold mutate
  rw [exec_bind, exec_openTransaction]
  split
  · rename_i hopen
    rw [continueWith_ok, exec_bind, exec_get, continueWith_ok, exec_bind, exec_ofExcept]
    refine extends_continueWith (.refl p) fun _ _ => ?_
    have hperform : p.Extends txn (op.Asks entity) _ := perform_extends op hopen allowExists
    rw [exec_bind]
    refine extends_continueWith (hperform.mono fun h => ⟨rfl, h⟩) fun affected _ => ?_
    rw [exec_bind, exec_get, continueWith_ok]
    dsimp only
    split
    · exact (Makes.report _ _).bind (fun _ => .pure affected) _
    · exact .refl _
  · exact .refl p

end Command

/-! ## Syncs -/

namespace SyncRecord

/-- The operations that a record stands for, each with its entity. -/
def operations : SyncRecord → List (String × Operation)
  | create entity data => [(entity, .create data)]
  | update entity data filter => [(entity, { action := .update, data, filter })]
  | remove entity filter => [(entity, { action := .remove, filter })]
  | snapshot rows => rows.toList.flatMap fun (entity, table) =>
    table.toList.map fun (id, row) =>
      (entity, .create (.obj (Fields.insertNew row "id" (.str id))))

/-- The row changes that a record asks for. -/
def Asks (record : SyncRecord) (key : RowKey) (c : RowChange) : Prop :=
  ∃ entity op, (entity, op) ∈ record.operations ∧ op.Asks entity key c

/-- The rows and patches of the record name each attribute once. -/
def Unique : SyncRecord → Prop
  | create _ data | update _ data _ => data.UniqueRows
  | remove .. => True
  | snapshot rows => ∀ (entity : String) (table : NameMap Row), rows[entity]? = some table →
    ∀ (id : String) (row : Row), table[id]? = some row → (Fields.names row).Nodup

theorem Asks.unique {record : SyncRecord} {key : RowKey} {c : RowChange} (h : record.Asks key c)
    (hu : record.Unique) : c.Unique := by
  obtain ⟨entity, op, hmem, hop⟩ := h
  refine hop.unique fun row hrow => ?_
  cases record with
  | create entity data | update entity data filter =>
    cases List.mem_singleton.mp hmem
    exact hu row hrow
  | remove entity filter =>
    cases List.mem_singleton.mp hmem
    cases hrow
  | snapshot rows =>
    obtain ⟨⟨entity', table⟩, htable, hmem⟩ := List.mem_flatMap.mp hmem
    obtain ⟨⟨id, row'⟩, hentry, he⟩ := List.mem_map.mp hmem
    cases he
    cases List.mem_singleton.mp hrow
    have htable := Std.ExtTreeMap.mem_toList_iff_getElem?_eq_some.mp htable
    have hentry := Std.ExtTreeMap.mem_toList_iff_getElem?_eq_some.mp hentry
    exact Fields.nodup_insertNew (hu _ _ htable _ _ hentry) "id" (.str id)

end SyncRecord

namespace Command

variable {txn : TxnId}

theorem replay_makes {caller : Option TxnId} (h : caller = none ∨ caller = some txn)
    (record : SyncRecord) : Makes (replay caller record) txn fun key c =>
      caller = some txn ∧ record.Asks key c := by
  cases record with
  | create entity data | update entity data filter | remove entity filter =>
    exact (mutate_makes h entity _ true).mono fun ha =>
      ⟨ha.1, _, _, List.mem_singleton_self _, ha.2⟩
  | snapshot rows =>
    refine (Makes.mapM fun filed hfiled => ?_).bind fun counts => .pure (total counts)
    obtain ⟨entity, row⟩ := filed
    refine (mutate_makes h entity (.create (.obj row)) true).mono fun ha => ?_
    refine ⟨ha.1, entity, .create (.obj row), ?_, ha.2⟩
    obtain ⟨table, htable, hmem⟩ := List.mem_flatMap.mp hfiled
    obtain ⟨entry, hentry, he⟩ := List.mem_map.mp hmem
    refine List.mem_flatMap.mpr ⟨table, htable, List.mem_map.mpr ⟨entry, hentry, ?_⟩⟩
    cases he
    rfl

/-- A sync makes the row changes that its records ask for, and none outside of any transaction. -/
theorem sync_makes {caller : Option TxnId} (h : caller = none ∨ caller = some txn)
    (records : List SyncRecord) : Makes (sync caller records) txn fun key c =>
      caller = some txn ∧ ∃ record ∈ records, record.Asks key c := by
  refine .bind (.mapM fun record hmem => ?_) fun counts => .report _ _
  exact (replay_makes h record).mono fun ha => ⟨ha.1, record, hmem, ha.2⟩

end Command

end EntityStore
