import EntityStore.Proofs.Store.Identity

/-! What updates and removes do. They change the rows that pass their filter, all alike, and no
others; or they change nothing, because a patch names another id or because somebody else owns one
of the rows, of which the first is reported (`Store.mutate_passing`). -/

namespace EntityStore

/-- The change that an update or a remove makes in each of its rows. -/
def Operation.rowChange? (op : Operation) : Option RowChange :=
  match op.action with
  | .create => none
  | .remove => some .delete
  | .update | .custom _ => op.data.obj?.map .merge

/-- The change would give one of the rows another id. -/
def RowChange.Renames (c : RowChange) (ids : List String) : Prop :=
  match c with
  | .merge patch => ∃ value, Fields.get? patch "id" = some value ∧ ∃ id ∈ ids, value ≠ .str id
  | .put _ | .delete => False

theorem getElem?_replay_map {keys : List RowKey} (hd : keys.Nodup) (rows : RowMap Row)
    (c : RowChange) (key : RowKey) : (replay rows (keys.map (·, c)))[key]? =
      if key ∈ keys then c.apply rows[key]? else rows[key]? := by
  induction keys generalizing rows with
  | nil => rfl
  | cons k keys ih =>
    obtain ⟨hk, hd⟩ := List.nodup_cons.mp hd
    refine (ih hd _).trans ?_
    rw [RowMap.getElem?_alter]
    by_cases he : key = k
    · subst he
      rw [if_neg hk, if_pos rfl, if_pos List.mem_cons_self]
    · simp only [he, if_false, List.mem_cons, false_or]

theorem RowKey.mem_map_mk {key : RowKey} {entity : String} {ids : List String} :
    key ∈ ids.map (RowKey.mk entity) ↔ key.entity = entity ∧ key.id ∈ ids := by
  rw [List.mem_map]
  constructor
  · rintro ⟨id, hid, rfl⟩
    exact ⟨rfl, hid⟩
  · rintro ⟨rfl, hid⟩
    exact ⟨key.id, hid, rfl⟩

theorem Json.obj_of_obj? {j : Json} {fields : Row} (h : j.obj? = some fields) :
    j = .obj fields := by
  cases j <;> cases h
  rfl

namespace Storage

variable {s : Storage} {txn : TxnId} {keys : List RowKey} {c : RowChange}

/-- The transaction sees the same change in all of the rows. -/
theorem visible_changeAll_map (H : s.Ledger) (K : s.Keyed)
    (hp : s.PermitsAll txn (keys.map (·, c))) (hd : keys.Nodup)
    (ha : ∀ key ∈ keys, s.Accepts txn key c) (key : RowKey) :
    (s.changeAll txn (keys.map (·, c))).visible key (some txn) =
      if key ∈ keys then c.apply (s.visible key (some txn)) else s.visible key (some txn) := by
  have hrows (key : RowKey) : s.visible key (some txn) = (s.view {} (some txn)).rows[key]? :=
    (row?_view s {} (some txn) key.entity key.id).symm
  have hall := acceptsAll_map H K hp hd ha
  rw [visible_changeAll_eq_replay H K hp hall hrows, getElem?_replay_map hd, hrows]

theorem conflict?_eq_none_of_owns (h : ∀ key ∈ keys, ∀ owner, s.Owns owner key → owner = txn) :
    s.conflict? txn keys = none := by
  refine conflict?_eq_none_iff.mpr fun key hkey n hn => ?_
  exact Node.isFreeFor_iff.mpr fun owner ho => h key hkey owner ⟨n, hn, ho⟩

/-- The conflict that is reported is the first one. -/
theorem conflict?_append {before after : List RowKey} {key : RowKey} {owner : TxnId}
    (hfree : ∀ k ∈ before, ∀ o, s.Owns o k → o = txn) (hown : s.Owns owner key)
    (hne : owner ≠ txn) : s.conflict? txn (before ++ key :: after) = some (key, owner) := by
  obtain ⟨n, hn, ho⟩ := hown
  have hbefore := conflict?_eq_none_of_owns hfree
  unfold conflict? at hbefore ⊢
  rw [List.findSome?_append, hbefore, Option.none_or, List.findSome?_cons, hn, Option.bind_some,
    ho, Option.bind_some, if_neg hne]

end Storage

namespace Progress

variable {p : Progress} {txn : TxnId} {keys : List RowKey}

theorem claim_of_free (h : p.store.storage.conflict? txn keys = none) (c : RowChange) :
    p.claim txn keys c = (.ok keys.length, p.change txn (keys.map (·, c))) := by rw [claim, h]

theorem claim_of_conflict {key : RowKey} {owner : TxnId}
    (h : p.store.storage.conflict? txn keys = some (key, owner)) (c : RowChange) :
    p.claim txn keys c = (.error (.rowLocked key owner), p.reportConflict key owner) := by
  rw [claim, h]

/-- A claim of rows that nobody else owns changes them all, and no other node. -/
theorem claim_unowned {c : RowChange} (H : p.store.storage.Ledger) (K : p.store.storage.Keyed)
    (hopen : (p.store.storage.transaction? txn).isSome) (hd : keys.Nodup)
    (hfree : ∀ key ∈ keys, ∀ owner, p.store.storage.Owns owner key → owner = txn)
    (ha : ∀ key ∈ keys, p.store.storage.Accepts txn key c) :
    let r := p.claim txn keys c
    r.1 = .ok keys.length ∧
      (∀ key, r.2.store.storage.visible key (some txn) =
        if key ∈ keys then c.apply (p.store.storage.visible key (some txn))
        else p.store.storage.visible key (some txn)) ∧
      ∀ key ∉ keys, r.2.store.storage.node? key = p.store.storage.node? key := by
  intro r
  have hnone := Storage.conflict?_eq_none_of_owns hfree
  have hp : p.store.storage.PermitsAll txn (keys.map (·, c)) :=
    Storage.permitsAll_map fun key hkey =>
      ⟨hopen, Storage.conflict?_eq_none_iff.mp hnone key hkey⟩
  have hr : r = _ := claim_of_free hnone c
  rw [hr]
  refine ⟨rfl, Storage.visible_changeAll_map H K hp hd ha, fun key hkey => ?_⟩
  refine Storage.node?_changeAll_of_not_mem fun c' hmem => hkey ?_
  obtain ⟨k, hk, he⟩ := List.mem_map.mp hmem
  cases he
  exact hk

end Progress

namespace Command

variable {p : Progress} {txn : TxnId} {entity : String} {op : Operation} {c : RowChange}

theorem changesId_iff {patch : Row} {ids : List String} :
    changesId patch ids = true ↔ (RowChange.merge patch).Renames ids := by
  have hstr (value : Json) (id : String) : value.str? ≠ some id ↔ value ≠ .str id := by
    cases value <;> simp [Json.str?]
  simp only [changesId, RowChange.Renames, Option.any_eq_true, List.any_eq_true,
    decide_eq_true_eq, hstr]

/-- What a mutation does inside an open transaction on a declared entity, beside its work. -/
theorem exec_mutate {e : Entity} (hopen : (p.store.storage.transaction? txn).isSome)
    (hentity : p.store.schema.entity entity = .ok e) (op : Operation) (allowExists : Bool) :
    ∃ w, exec (mutate (some txn) entity op allowExists) p =
      ((exec (perform txn entity op allowExists) p).1,
        (exec (perform txn entity op allowExists) p).2.withWork w) := by
  unfold mutate
  rw [exec_bind, exec_openTransaction, if_pos hopen, continueWith_ok, exec_bind, exec_get,
    continueWith_ok, exec_bind, exec_ofExcept, hentity]
  dsimp only [Except.mapError]
  rw [continueWith_ok, exec_bind]
  generalize exec (perform txn entity op allowExists) p = r
  obtain ⟨_ | affected, q⟩ := r
  · exact ⟨q.store.work, rfl⟩
  · rw [continueWith_ok, exec_bind, exec_get, continueWith_ok]
    split
    · exact ⟨_, rfl⟩
    · exact ⟨q.store.work, rfl⟩

/-- What an update or a remove does with the rows that it has found. -/
theorem exec_perform {ids : List String} {q : Progress} (hc : op.rowChange? = some c)
    (hfound : exec (matchingIds txn entity op.filter) p = (.ok ids, q)) (allowExists : Bool) :
    (c.Renames ids → exec (perform txn entity op allowExists) p =
      (.error (.invalidOperation (.changedId entity)), q)) ∧
    (¬ c.Renames ids → exec (perform txn entity op allowExists) p =
      q.claim txn (ids.map (RowKey.mk entity)) c) := by
  unfold Operation.rowChange? at hc
  unfold perform
  cases ha : op.action with
  | create =>
    rw [ha] at hc
    cases hc
  | remove =>
    rw [ha] at hc
    cases hc
    refine ⟨False.elim, fun _ => ?_⟩
    dsimp only
    rw [exec_bind, hfound, continueWith_ok, exec_removeRows]
  | update | custom =>
    rw [ha] at hc
    obtain ⟨patch, hdata, rfl⟩ := Option.map_eq_some_iff.mp hc
    dsimp only
    rw [Json.obj_of_obj? hdata]
    dsimp only [Json.obj?]
    rw [exec_bind, hfound, continueWith_ok, exec_updateRows]
    constructor
    · exact fun h => if_pos (changesId_iff.mpr h)
    · exact fun h => if_neg fun h' => h (changesId_iff.mp h')

end Command

/-- The change of an operation is accepted in rows that are seen and that it does not rename. -/
theorem Operation.accepts {op : Operation} {c : RowChange} {s : Storage} {txn : TxnId}
    {entity : String} {ids : List String} (hc : op.rowChange? = some c) (hu : op.Unique)
    (hseen : Command.Seen s txn entity ids) (hkeeps : ¬ c.Renames ids) :
    ∀ key ∈ ids.map (RowKey.mk entity), s.Accepts txn key c := by
  unfold rowChange? at hc
  cases ha : op.action with
  | create =>
    rw [ha] at hc
    cases hc
  | remove =>
    rw [ha] at hc
    cases hc
    exact Command.accepts_delete hseen
  | update | custom =>
    rw [ha] at hc
    obtain ⟨patch, hdata, rfl⟩ := Option.map_eq_some_iff.mp hc
    refine Command.accepts_merge hseen ?_ (hu patch ?_)
    · exact eq_false_of_ne_true fun h => hkeeps (Command.changesId_iff.mp h)
    · rw [Json.obj_of_obj? hdata]
      exact List.mem_singleton_self patch

namespace Store

variable {s : Store} {calls : List Call} {txn : TxnId} {entity : String} {e : Entity}
  {op : Operation} {c : RowChange} {entries : List (String × Row)}

/-- An update or a remove finds the rows that pass its filter, and unless it would rename one of
them it claims them all. -/
theorem mutate_found (K : s.storage.Keyed) (hopen : (s.storage.transaction? txn).isSome)
    (hentity : s.schema.entity entity = .ok e) (hc : op.rowChange? = some c)
    (hpassing : (s.view (some txn)).passing entity op.filter = .ok entries) (allowExists : Bool) :
    let ids := entries.map (·.1)
    let r := s.mutate (some txn) entity op allowExists
    Command.Seen s.storage txn entity ids ∧
      (c.Renames ids → r.1 = .error (.invalidOperation (.changedId entity))) ∧
      ∃ w, ¬ c.Renames ids →
        let claimed := Progress.claim { store := { s with work := w } } txn
          (ids.map (RowKey.mk entity)) c
        r.1 = claimed.1 ∧ r.2.storage = claimed.2.store.storage := by
  intro ids r
  let p : Progress := { store := s }
  obtain ⟨found, w, hfound, hseen⟩ := Command.exec_matchingIds txn entity op.filter p
  have hok : found = .ok ids := by
    have hresult : (exec (Command.matchingIds txn entity op.filter) p).1 = _ :=
      Command.result_matchingIds K hentity txn op.filter
    rw [hfound, hpassing] at hresult
    exact hresult
  subst hok
  -- The search leaves the rows as they are, so they are claimed in the store of the call.
  obtain ⟨hrename, hclaim⟩ := Command.exec_perform hc hfound allowExists
  obtain ⟨w', hmutate⟩ := Command.exec_mutate (p := p) hopen hentity op allowExists
  have hresult : r.1 = (exec (Command.perform txn entity op allowExists) p).1 :=
    congrArg (·.1) hmutate
  have hstorage : r.2.storage =
      (exec (Command.perform txn entity op allowExists) p).2.store.storage :=
    congrArg (·.2.store.storage) hmutate
  refine ⟨hseen ids rfl K, fun h => ?_, w, fun h => ?_⟩
  · rw [hresult, hrename h]
  · rw [hresult, hstorage, hclaim h]
    exact ⟨rfl, rfl⟩

/-- An update or a remove of an open transaction changes the rows that pass its filter and no
others. If the patch names another id than that of one of these rows, it fails; else, if somebody
else owns one of them, it fails with the first such row and its owner; else it answers how many rows
there are, the transaction sees the change in each of them and everything else as before, and all
other nodes are as before. -/
theorem mutate_passing (schema : Schema) (config : Config) (hfresh : Call.Fresh calls)
    (hunique : ∀ call ∈ calls, call.Unique) (hentity : schema.entity entity = .ok e)
    (hu : op.Unique) (hc : op.rowChange? = some c) (allowExists : Bool) :
    let s := ({ schema, config } : Store).run calls
    (s.storage.transaction? txn).isSome →
    (s.view (some txn)).passing entity op.filter = .ok entries →
    let ids := entries.map (·.1)
    let r := s.mutate (some txn) entity op allowExists
    ids.Pairwise (· < ·) ∧
    (c.Renames ids → r.1 = .error (.invalidOperation (.changedId entity))) ∧
    (¬ c.Renames ids → ∀ before id after owner, ids = before ++ id :: after →
      (∀ id' ∈ before, ∀ o, s.storage.Owns o ⟨entity, id'⟩ → o = txn) →
      s.storage.Owns owner ⟨entity, id⟩ → owner ≠ txn →
      r.1 = .error (.rowLocked ⟨entity, id⟩ owner)) ∧
    (¬ c.Renames ids → (∀ id ∈ ids, ∀ o, s.storage.Owns o ⟨entity, id⟩ → o = txn) →
      r.1 = .ok ids.length ∧
      (∀ key, r.2.storage.visible key (some txn) =
        if key.entity = entity ∧ key.id ∈ ids then c.apply (s.storage.visible key (some txn))
        else s.storage.visible key (some txn)) ∧
      ∀ key, ¬ (key.entity = entity ∧ key.id ∈ ids) →
        r.2.storage.node? key = s.storage.node? key) := by
  intro s hopen hpassing ids r
  have S := serial_run schema config hfresh hunique
  have H : s.storage.Ledger := S.ledger
  have K : s.storage.Keyed := S.keyed
  have hschema : s.schema.entity entity = .ok e := by
    rw [schema_run]
    exact hentity
  obtain ⟨hseen, hrename, w, hclaim⟩ := mutate_found K hopen hschema hc hpassing allowExists
  refine ⟨View.pairwise_of_passing hpassing, hrename, fun h => ?_, fun h hfree => ?_⟩
  · intro before id after owner hids hfree hown hne
    have hconflict : s.storage.conflict? txn (ids.map (RowKey.mk entity)) =
        some (⟨entity, id⟩, owner) := by
      rw [hids, List.map_append, List.map_cons]
      exact Storage.conflict?_append (List.forall_mem_map.mpr hfree) hown hne
    exact (hclaim h).1.trans (congrArg (·.1) (Progress.claim_of_conflict hconflict c))
  · obtain ⟨hresult, hstorage⟩ := hclaim h
    let p : Progress := { store := { s with work := w } }
    obtain ⟨hcount, hvisible, hframe⟩ := p.claim_unowned H K hopen (Command.nodup_keys hseen.1)
      (List.forall_mem_map.mpr hfree) (Operation.accepts hc hu hseen h)
    simp only [RowKey.mem_map_mk] at hvisible hframe
    rw [hresult, hstorage, hcount, List.length_map]
    exact ⟨rfl, hvisible, hframe⟩

/-- A transaction patches one of the two rows that it has created. -/
theorem mutate_passing_title :
    let note : Entity :=
      { attributes := Std.ExtTreeMap.ofList [("title", { type := .string })] compare }
    let schema : Schema := { entities := Std.ExtTreeMap.ofList [("note", note)] compare }
    let a : TxnId := ⟨1, "a"⟩
    let row (id : String) : Row := [("id", .str id), ("title", .str "old")]
    let create (id : String) : Call := .mutate (some a) "note" (.create (.obj (row id))) false
    let s := ({ schema } : Store).run [.begin a, create "x", create "y"]
    let op : Operation := .update (.obj [("title", .str "new")]) (.obj [("id", .str "y")])
    let r := s.mutate (some a) "note" op false
    r.1 = .ok 1 ∧
      r.2.storage.visible ⟨"note", "y"⟩ (some a) = some [("id", .str "y"), ("title", .str "new")] ∧
      r.2.storage.node? ⟨"note", "x"⟩ = s.storage.node? ⟨"note", "x"⟩ := by
  intro note schema a row create s op r
  have hfresh : Call.Fresh [.begin a, create "x", create "y"] := by decide
  have hunique : ∀ call ∈ [.begin a, create "x", create "y"], call.Unique := by
    simp [create, row, Call.Unique, Operation.Unique, Operation.create, Json.UniqueRows, Json.rows,
      Fields.names]
  have hu : op.Unique := by
    simp [op, Operation.Unique, Operation.update, Json.UniqueRows, Json.rows, Fields.names]
  have hpassing : (s.view (some a)).passing "note" op.filter = .ok [("y", row "y")] := by
    decide +kernel
  have hkeeps : ¬ (RowChange.merge [("title", .str "new")]).Renames ["y"] := by
    rintro ⟨value, hvalue, -⟩
    cases hvalue
  have howner : (s.storage.node? ⟨"note", "y"⟩).bind (·.owner) = some a := by decide
  have hfree : ∀ id ∈ ["y"], ∀ o, s.storage.Owns o ⟨"note", id⟩ → o = a := by
    rintro id hid o ⟨n, hn, ho⟩
    rw [List.mem_singleton.mp hid] at hn
    rw [hn, Option.bind_some, ho] at howner
    exact Option.some.inj howner
  have hsee : s.storage.visible ⟨"note", "y"⟩ (some a) = some (row "y") := by decide
  obtain ⟨-, -, -, hdone⟩ := mutate_passing schema {} hfresh hunique rfl hu rfl false
    (by decide) hpassing
  obtain ⟨hresult, hvisible, hframe⟩ := hdone hkeeps hfree
  refine ⟨hresult, ?_, ?_⟩
  · rw [hvisible, if_pos (by decide), hsee]
    decide
  · apply hframe
    decide

end Store

end EntityStore
