import EntityStore.Proofs.Store.Hydration

/-! Snapshots. The snapshot of what somebody sees, synced into a store without rows, gives after the
commit the same rows under the same keys, and each of them counts as one create
(`Store.snapshot_lossless`). It is so because a row carries the id under which it is stored: the
snapshot files every row once, under the key that it is then created with. -/

namespace EntityStore

/-! ## Rows that are brought once -/

theorem filedUnder_eq_nil {entries : List (RowKey × Row)} {key : RowKey}
    (h : ∀ row, (key, row) ∉ entries) : filedUnder key entries = [] :=
  List.eq_nil_iff_forall_not_mem.mpr fun row hmem => h row (mem_filedUnder.mp hmem)

theorem filedUnder_of_mem {entries : List (RowKey × Row)}
    (h : entries.Pairwise fun a b => a.1 ≠ b.1) {key : RowKey} {row : Row}
    (hmem : (key, row) ∈ entries) : filedUnder key entries = [row] := by
  induction entries with
  | nil => cases hmem
  | cons entry rest ih =>
    obtain ⟨k, r⟩ := entry
    obtain ⟨hne, hrest⟩ := List.pairwise_cons.mp h
    rw [filedUnder_cons]
    rcases List.mem_cons.mp hmem with he | hmem
    · cases he
      rw [if_pos rfl, filedUnder_eq_nil fun row' hrow => hne _ hrow rfl]
    · rw [if_neg (hne _ hmem), ih hrest hmem]

/-- What is filed under a key, if each key is filed under once. -/
theorem filedUnder_eq_toList {entries : List (RowKey × Row)}
    (hd : entries.Pairwise fun a b => a.1 ≠ b.1) {key : RowKey} {found : Option Row}
    (h : ∀ row, (key, row) ∈ entries ↔ found = some row) :
    filedUnder key entries = found.toList := by
  cases found with
  | none => exact filedUnder_eq_nil fun row hmem => nomatch (h row).mp hmem
  | some row => exact filedUnder_of_mem hd ((h row).mpr rfl)

/-! ## Filing the rows of a view -/

namespace NameMap

/-- The row that is filed by entity and id. -/
def row? (rows : NameMap (NameMap Row)) (entity id : String) : Option Row :=
  rows[entity]?.bind fun table => table[id]?

/-- Files a row under its key. -/
def file (rows : NameMap (NameMap Row)) (entry : RowKey × Row) : NameMap (NameMap Row) :=
  rows.insert entry.1.entity ((rows[entry.1.entity]?.getD ∅).insert entry.1.id entry.2)

theorem getElem?_insert {β : Type} (m : NameMap β) (name other : String) (value : β) :
    (m.insert name value)[other]? = if name = other then some value else m[other]? := by
  simp only [Std.ExtTreeMap.getElem?_insert, Std.LawfulEqCmp.compare_eq_iff_eq]

theorem row?_file (rows : NameMap (NameMap Row)) (entry : RowKey × Row) (key : RowKey) :
    row? (file rows entry) key.entity key.id =
      if entry.1 = key then some entry.2 else row? rows key.entity key.id := by
  obtain ⟨⟨entity, id⟩, row⟩ := entry
  obtain ⟨entity', id'⟩ := key
  simp only [row?, file, getElem?_insert, RowKey.mk.injEq]
  by_cases he : entity = entity'
  · subst he
    rw [if_pos rfl, Option.bind_some, getElem?_insert]
    cases rows[entity]? with
    | none => simp
    | some table => simp
  · simp [he]

theorem row?_foldl_file (entries : List (RowKey × Row)) (rows : NameMap (NameMap Row))
    (key : RowKey) : row? (entries.foldl file rows) key.entity key.id =
      (filedUnder key entries).foldl (fun _ row => some row) (row? rows key.entity key.id) := by
  induction entries generalizing rows with
  | nil => rfl
  | cons entry rest ih =>
    rw [List.foldl_cons, ih, row?_file, filedUnder_cons]
    split <;> rfl

end NameMap

namespace View

/-- The rows that the view sees, filed by entity and id. -/
def FiledIn (v : View) (rows : NameMap (NameMap Row)) : Prop :=
  ∀ entity id, rows.row? entity id = v.row? entity id

/-- The snapshot of the rows that the view sees. -/
def snapshot (v : View) : NameMap (NameMap Row) := v.rows.toList.foldl NameMap.file ∅

theorem pairwise_rows (v : View) : v.rows.toList.Pairwise fun a b => a.1 ≠ b.1 :=
  Std.ExtTreeMap.distinct_keys_toList.imp fun hne he => hne (RowKey.order_eq_eq_iff.mpr he)

theorem filedIn_snapshot (v : View) : v.FiledIn v.snapshot := by
  intro entity id
  have hfold := NameMap.row?_foldl_file v.rows.toList ∅ ⟨entity, id⟩
  have hfiled : filedUnder ⟨entity, id⟩ v.rows.toList = (v.row? entity id).toList :=
    filedUnder_eq_toList v.pairwise_rows fun _ => Std.ExtTreeMap.mem_toList_iff_getElem?_eq_some
  refine hfold.trans ?_
  rw [hfiled]
  cases v.row? entity id <;> rfl

end View

/-! ## Counting creates -/

namespace Transaction

theorem record_create (t : Transaction) (key : RowKey) (n : Nat) :
    (t.register key).record .create n =
      { t with create := t.create + n, dirty := (t.register key).dirty } := by
  unfold register
  split <;> rfl

end Transaction

namespace Storage

variable {s : Storage} {txn : TxnId} {t : Transaction} {rows : List (RowKey × Row)}

/-- Rows that are new, each under a key of its own, are created one by one. -/
theorem transaction?_upsertions (hd : rows.Pairwise fun a b => a.1 ≠ b.1)
    (hnew : ∀ entry ∈ rows, s.visible entry.1 (some txn) = none)
    (ht : s.transaction? txn = some t) : ∃ dirty,
      (s.changeAll txn (s.upsertions txn rows)).transaction? txn =
        some { t with create := t.create + rows.length, dirty } := by
  induction rows generalizing s t with
  | nil => exact ⟨t.dirty, ht⟩
  | cons entry rest ih =>
    obtain ⟨key, row⟩ := entry
    obtain ⟨hne, hd⟩ := List.pairwise_cons.mp hd
    have hput : s.upsertion txn key row = .put row :=
      upsertion_of_none (hnew _ List.mem_cons_self)
    have hchanged : (Node.changed txn (s.node? key) (.put row)).isSome := by
      cases s.node? key <;> rfl
    have hone : (s.change txn key (.put row)).transaction? txn =
        some { t with create := t.create + 1, dirty := (t.register key).dirty } := by
      rw [transaction?_change, if_pos ⟨rfl, hchanged⟩, ht, Option.map_some, RowChange.kind,
        Transaction.record_create]
    have hrest : ∀ entry ∈ rest,
        (s.change txn key (.put row)).visible entry.1 (some txn) = none := by
      intro entry hmem
      rw [visible, node?_change, if_neg (hne entry hmem).symm]
      exact hnew entry (List.mem_cons_of_mem _ hmem)
    obtain ⟨dirty, hdirty⟩ := ih hd hrest hone
    refine ⟨dirty, ?_⟩
    rw [upsertions, hput, changeAll_cons, hdirty, List.length_cons, Nat.add_assoc, Nat.add_comm 1]

end Storage

/-! ## What a snapshot brings -/

namespace SyncRecord

variable {v : View} {rows : NameMap (NameMap Row)}

/-- The entries of a snapshot under their keys. -/
def entries (rows : NameMap (NameMap Row)) : List (RowKey × Row) :=
  rows.toList.flatMap fun x => x.2.toList.map fun y => (⟨x.1, y.1⟩, y.2)

theorem mem_entries {key : RowKey} {row : Row} : (key, row) ∈ entries rows ↔
    rows.row? key.entity key.id = some row := by
  simp only [entries, NameMap.row?, List.mem_flatMap, List.mem_map, Option.bind_eq_some_iff]
  constructor
  · rintro ⟨⟨entity, table⟩, htable, ⟨id, row'⟩, hrow, he⟩
    cases he
    exact ⟨table, Std.ExtTreeMap.mem_toList_iff_getElem?_eq_some.mp htable,
      Std.ExtTreeMap.mem_toList_iff_getElem?_eq_some.mp hrow⟩
  · rintro ⟨table, htable, hrow⟩
    exact ⟨(key.entity, table), Std.ExtTreeMap.mem_toList_iff_getElem?_eq_some.mpr htable,
      (key.id, row), Std.ExtTreeMap.mem_toList_iff_getElem?_eq_some.mpr hrow, rfl⟩

theorem pairwise_entries (rows : NameMap (NameMap Row)) :
    (entries rows).Pairwise fun a b => a.1 ≠ b.1 := by
  have hkeys {β : Type} (m : NameMap β) : m.toList.Pairwise fun a b => a.1 ≠ b.1 :=
    Std.ExtTreeMap.distinct_keys_toList.imp fun h he => h (Std.LawfulEqCmp.compare_eq_iff_eq.mpr he)
  refine List.pairwise_flatMap.mpr ⟨fun x _ => List.pairwise_map.mpr ?_, ?_⟩
  · exact (hkeys x.2).imp fun hne he => hne (congrArg RowKey.id he)
  · refine (hkeys rows).imp fun hne x hx y hy he => hne ?_
    obtain ⟨_, -, rfl⟩ := List.mem_map.mp hx
    obtain ⟨_, -, rfl⟩ := List.mem_map.mp hy
    exact congrArg RowKey.entity he

theorem filedUnder_entries (rows : NameMap (NameMap Row)) (key : RowKey) :
    filedUnder key (entries rows) = (rows.row? key.entity key.id).toList :=
  filedUnder_eq_toList (pairwise_entries rows) fun _ => mem_entries

theorem length_entries (h : v.FiledIn rows) : (entries rows).length = v.rows.size := by
  have hnodup {l : List (RowKey × Row)} (hd : l.Pairwise fun a b => a.1 ≠ b.1) : l.Nodup :=
    hd.imp fun hne he => hne (congrArg Prod.fst he)
  have hperm : (entries rows).Perm v.rows.toList := by
    refine (List.perm_ext_iff_of_nodup (hnodup (pairwise_entries rows))
      (hnodup v.pairwise_rows)).mpr ?_
    rintro ⟨key, row⟩
    rw [mem_entries, h, Std.ExtTreeMap.mem_toList_iff_getElem?_eq_some]
    exact Iff.rfl
  rw [hperm.length_eq, Std.ExtTreeMap.length_toList]

/-- Rows that have the ids under which they are filed are created as they are. -/
theorem creates_snapshot
    (hid : ∀ key row, (key, row) ∈ entries rows → Fields.get? row "id" = some (.str key.id)) :
    (snapshot rows).creates = (entries rows).map fun entry => (entry.1.entity, .obj entry.2) := by
  rw [creates, Command.filed, entries, List.map_flatMap, List.map_flatMap, List.flatMap_def,
    List.flatMap_def]
  refine congrArg List.flatten (List.map_congr_left fun x hx => ?_)
  rw [List.map_map, List.map_map]
  refine List.map_congr_left fun y hy => ?_
  have hrow : Fields.get? y.2 "id" = some (.str y.1) := hid ⟨x.1, y.1⟩ y.2 <|
    List.mem_flatMap.mpr ⟨x, hx, List.mem_map.mpr ⟨y, hy, rfl⟩⟩
  have hsame : Fields.insertNew y.2 "id" (.str y.1) = y.2 :=
    if_pos (by rw [Fields.contains, hrow]; rfl)
  exact congrArg (fun row => (x.1, Json.obj row)) hsame

theorem brought_snapshot
    (hid : ∀ key row, (key, row) ∈ entries rows → Fields.get? row "id" = some (.str key.id)) :
    (snapshot rows).brought = entries rows := by
  rw [brought, creates_snapshot hid, List.flatMap_map]
  refine Eq.trans ?_ (List.flatMap_singleton' (entries rows))
  rw [List.flatMap_def, List.flatMap_def]
  refine congrArg List.flatten (List.map_congr_left fun entry hentry => ?_)
  have hid' : Command.idOf? entry.2 = some entry.1.id := by
    rw [Command.idOf?, hid entry.1 entry.2 hentry]
    rfl
  change Command.filing entry.1.entity entry.2 ++ [] = [entry]
  rw [List.append_nil, Command.filing, hid']
  rfl

theorem creatable_snapshot {schema : Schema}
    (hdeclared : ∀ key row, (key, row) ∈ entries rows → ∃ e, schema.entity key.entity = .ok e)
    (hid : ∀ key row, (key, row) ∈ entries rows → Fields.get? row "id" = some (.str key.id)) :
    (snapshot rows).Creatable schema := by
  intro c hc
  rw [creates_snapshot hid] at hc
  obtain ⟨⟨key, row⟩, hmem, rfl⟩ := List.mem_map.mp hc
  refine ⟨hdeclared key row hmem, ⟨[row], rfl⟩, List.forall_mem_singleton.mpr ?_⟩
  rw [Command.idOf?, hid key row hmem]
  rfl

end SyncRecord

namespace Store

theorem stat_commit {s : Store} {txn : TxnId} {t : Transaction} {storage : Storage}
    (h : s.storage.commit txn = some (t, storage)) : (s.commit txn).2.stat = s.stat.absorb t := by
  rw [commit, h]
  rfl

/-- What a snapshot does in a transaction of a store without rows. -/
theorem sync_snapshot_new (schema : Schema) (config : Config) (txn : TxnId)
    {rows : NameMap (NameMap Row)}
    (hdeclared : ∀ key row, (key, row) ∈ SyncRecord.entries rows →
      ∃ e, schema.entity key.entity = .ok e)
    (hfit : ∀ key row, (key, row) ∈ SyncRecord.entries rows → key.Fits row) :
    let target := ({ schema, config } : Store).begin txn
    let synced := target.sync (some txn) [.snapshot rows]
    synced.1 = .ok () ∧ synced.2.stat = {} ∧ synced.2.storage.Ledger ∧
      (∀ key, synced.2.storage.visible key (some txn) =
        rows.row? key.entity key.id) ∧
      ∃ dirty, synced.2.storage.transaction? txn =
        some { id := txn, create := (SyncRecord.entries rows).length, dirty } := by
  intro target synced
  have hnode (key : RowKey) : target.storage.node? key = none := Std.ExtTreeMap.getElem?_empty
  have hunseen (key : RowKey) : target.storage.visible key (some txn) = none := by
    rw [Storage.visible, hnode]
    rfl
  have hopen : target.storage.transaction? txn = some { id := txn } :=
    (Storage.transaction?_begin {} txn txn).trans (if_pos rfl)
  have hisOpen : (target.storage.transaction? txn).isSome := by rw [hopen]; rfl
  have H : target.storage.Ledger := Storage.Ledger.empty.begin Std.ExtTreeMap.getElem?_empty
  have K : target.storage.Keyed := fun key n hn => by cases (hnode key).symm.trans hn
  have hp : ∀ entry ∈ SyncRecord.entries rows, target.storage.Permits txn entry.1 :=
    fun entry _ => ⟨hisOpen, fun n hn => by cases (hnode _).symm.trans hn⟩
  have hid : ∀ key row, (key, row) ∈ SyncRecord.entries rows →
      Fields.get? row "id" = some (.str key.id) := fun key row hmem => (hfit key row hmem).id
  have hbrought : [SyncRecord.snapshot rows].flatMap SyncRecord.brought =
      SyncRecord.entries rows := by
    rw [List.flatMap_singleton, SyncRecord.brought_snapshot hid]
  have hcreatable : (SyncRecord.snapshot rows).Creatable target.schema :=
    SyncRecord.creatable_snapshot hdeclared hid
  have hhydrates : (SyncRecord.snapshot rows).Hydrates := trivial
  obtain ⟨w, he⟩ := sync_hydrates (List.forall_mem_singleton.mpr hhydrates) hisOpen
    (List.forall_mem_singleton.mpr hcreatable) (by rwa [hbrought])
  rw [hbrought] at he
  have he : synced = _ := he
  rw [he]
  refine ⟨rfl, rfl, H.changeAll (Storage.permitsAll_upsertions hp), fun key => ?_, ?_⟩
  · rw [Storage.visible_upsertions H K hp fun entry hmem => hfit entry.1 entry.2 hmem, hunseen,
      SyncRecord.filedUnder_entries]
    cases rows.row? key.entity key.id <;> rfl
  · obtain ⟨dirty, hdirty⟩ := Storage.transaction?_upsertions (SyncRecord.pairwise_entries rows)
      (fun entry _ => hunseen entry.1) hopen
    refine ⟨dirty, hdirty.trans ?_⟩
    rw [Nat.zero_add]

/-- The snapshot of the rows that somebody sees can be synced into a store without rows, and after
the commit everybody sees there exactly these rows. Each of them counts as one create. -/
theorem snapshot_lossless (schema : Schema) (config config' : Config) {calls : List Call}
    (hfresh : Call.Fresh calls) (hunique : ∀ call ∈ calls, call.Unique) (caller : Option TxnId)
    (txn : TxnId) {rows : NameMap (NameMap Row)} :
    let s := ({ schema, config } : Store).run calls
    (s.view caller).FiledIn rows →
    let target := ({ schema, config := config' } : Store).begin txn
    let synced := target.sync (some txn) [.snapshot rows]
    let committed := synced.2.commit txn
    synced.1 = .ok () ∧ committed.1 = .ok () ∧
      (∀ entity id, (committed.2.view none).row? entity id = (s.view caller).row? entity id) ∧
      committed.2.stat = { create := (s.view caller).rows.size, commit := 1 } := by
  intro s h target synced committed
  have S := serial_run schema config hfresh hunique
  have hdeclared : s.Declared := (declared_new schema config).run calls
  have hschema : s.schema = schema := schema_run _ calls
  have hnode {key : RowKey} {row : Row} (hmem : (key, row) ∈ SyncRecord.entries rows) :
      ∃ n, s.storage.node? key = some n ∧ n.visible caller = some row := by
    rw [SyncRecord.mem_entries, h, row?_view] at hmem
    exact Option.bind_eq_some_iff.mp hmem
  have hentity (key : RowKey) (row : Row) (hmem : (key, row) ∈ SyncRecord.entries rows) :
      ∃ e, schema.entity key.entity = .ok e := by
    obtain ⟨n, hn, -⟩ := hnode hmem
    rw [← hschema]
    exact hdeclared key (by rw [hn]; rfl)
  have hfit (key : RowKey) (row : Row) (hmem : (key, row) ∈ SyncRecord.entries rows) :
      key.Fits row := by
    obtain ⟨n, hn, hv⟩ := hnode hmem
    exact (S.keyed key n hn).fits_visible hv
  obtain ⟨hok, hstat, H, hsee, dirty, ht⟩ :=
    sync_snapshot_new schema config' txn hentity hfit
  obtain ⟨t, storage, hc⟩ := commit_isOpen (by rw [ht]; rfl)
  obtain ⟨hcommit, hstorage⟩ := commit_of_some hc
  refine ⟨hok, hcommit, fun entity id => ?_, ?_⟩
  · rw [row?_view, hstorage, H.visible_commit hc, hsee]
    exact h entity id
  · cases ht.symm.trans (Storage.close_eq_some hc).1
    rw [stat_commit hc, hstat, SyncRecord.length_entries h]
    simp [Stat.absorb]

/-- The snapshot of a transaction that has patched a committed row, beside another one that has
created a row. -/
theorem snapshot_lossless_pending :
    let schema : Schema := { entities := Std.ExtTreeMap.ofList [("note", {})] compare }
    let row (id text : String) : Row := [("id", .str id), ("text", .str text)]
    let put (txn : TxnId) (row : Row) : Call := .mutate (some txn) "note" (.create (.obj row)) true
    let a : TxnId := ⟨1, "a"⟩
    let b : TxnId := ⟨2, "b"⟩
    let c : TxnId := ⟨3, "c"⟩
    let calls : List Call := [.begin a, put a (row "x" "old"), .commit a, .begin b, .begin c,
      put b (row "x" "new"), put c (row "y" "new")]
    let s := ({ schema } : Store).run calls
    ∃ rows, (s.view (some b)).FiledIn rows ∧
      let synced := (({ schema } : Store).begin a).sync (some a) [.snapshot rows]
      let committed := synced.2.commit a
      synced.1 = .ok () ∧ committed.1 = .ok () ∧
        (committed.2.view none).row? "note" "x" = some (row "x" "new") ∧
        (committed.2.view none).row? "note" "y" = none ∧
        committed.2.stat = { create := (s.view (some b)).rows.size, commit := 1 } := by
  intro schema row put a b c calls s
  have hunique : ∀ call ∈ calls, call.Unique := by
    simp [calls, put, row, Call.Unique, Operation.Unique, Operation.create, Json.UniqueRows,
      Json.rows, Fields.names]
  have hfiled := (s.view (some b)).filedIn_snapshot
  refine ⟨_, hfiled, ?_⟩
  generalize (s.view (some b)).snapshot = rows at hfiled
  intro synced committed
  obtain ⟨hok, hcommit, hsame, hstat⟩ :=
    snapshot_lossless schema {} {} (by decide) hunique (some b) a hfiled
  refine ⟨hok, hcommit, ?_, ?_, hstat⟩
  · rw [hsame, row?_view]
    decide
  · rw [hsame, row?_view]
    decide

end Store

end EntityStore
