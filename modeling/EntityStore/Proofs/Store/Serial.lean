import EntityStore.Proofs.Row.Pending
import EntityStore.Proofs.Store.Run

/-! Serial order of writes. However transactions interleave, the committed rows are the replay of
the writes of the committed transactions, one transaction after the other in the order of their
commits. The invariant of the induction is `Serial`; every run keeps it (`Store.serial_run`). -/

namespace EntityStore

namespace Event

/-- The transaction that has caused an event. -/
def txn : Event → TxnId
  | wrote txn _ _ | committed txn | rolledBack txn => txn

/-- The row change of a transaction, if that is the event. -/
def write? (txn : TxnId) : Event → Option (RowKey × RowChange)
  | wrote writer key c => if writer = txn then some (key, c) else none
  | _ => none

def commit? : Event → Option TxnId
  | committed txn => some txn
  | _ => none

/-- The row changes of a transaction, in the order in which it made them. -/
def writesOf (txn : TxnId) (events : List Event) : List (RowKey × RowChange) :=
  events.filterMap (write? txn)

/-- The transactions that have committed, in the order of their commits. -/
def commitOrder (events : List Event) : List TxnId := events.filterMap commit?

/-- The row changes of all committed transactions, one transaction after the other. -/
def serial (events : List Event) : List (RowKey × RowChange) :=
  (commitOrder events).flatMap fun txn => writesOf txn events

variable {events past : List Event} {txn other : TxnId}

theorem mem_commitOrder : txn ∈ commitOrder events ↔ committed txn ∈ events := by
  rw [commitOrder, List.mem_filterMap]
  constructor
  · rintro ⟨e, he, hc⟩
    cases e <;> cases hc
    exact he
  · exact fun h => ⟨_, h, rfl⟩

theorem writesOf_eq_nil (h : ∀ e ∈ events, e.txn ≠ txn) : writesOf txn events = [] := by
  refine List.filterMap_eq_nil_iff.mpr fun e he => ?_
  cases e with
  | wrote writer key c => exact if_neg (h _ he)
  | _ => rfl

theorem writesOf_append (txn : TxnId) (past events : List Event) :
    writesOf txn (past ++ events) = writesOf txn past ++ writesOf txn events :=
  List.filterMap_append

theorem writesOf_ofWrites (txn : TxnId) (changes : List (RowKey × RowChange)) :
    writesOf txn (ofWrites txn changes) = changes := by
  rw [writesOf, ofWrites, List.filterMap_map]
  refine Eq.trans ?_ List.filterMap_some
  congr 1
  exact funext fun entry => if_pos rfl

theorem writesOf_ofWrites_other (hne : other ≠ txn) (changes : List (RowKey × RowChange)) :
    writesOf other (ofWrites txn changes) = [] := by
  refine writesOf_eq_nil fun e he => ?_
  obtain ⟨_, _, -, rfl⟩ := mem_ofWrites.mp he
  exact hne.symm

theorem committed_mem_append {changes : List (RowKey × RowChange)} :
    committed other ∈ past ++ ofWrites txn changes ↔ committed other ∈ past := by
  simp [mem_ofWrites]

theorem rolledBack_mem_append {changes : List (RowKey × RowChange)} :
    rolledBack other ∈ past ++ ofWrites txn changes ↔ rolledBack other ∈ past := by
  simp [mem_ofWrites]

theorem commitOrder_ofWrites (txn : TxnId) (changes : List (RowKey × RowChange)) :
    commitOrder (ofWrites txn changes) = [] := by
  refine List.filterMap_eq_nil_iff.mpr fun e he => ?_
  obtain ⟨_, _, -, rfl⟩ := mem_ofWrites.mp he
  rfl

theorem commitOrder_append (past events : List Event) :
    commitOrder (past ++ events) = commitOrder past ++ commitOrder events :=
  List.filterMap_append

theorem commitOrder_append_commit (past : List Event) (txn : TxnId) :
    commitOrder (past ++ [committed txn]) = commitOrder past ++ [txn] := commitOrder_append ..

/-- Events that are no commits and no writes of committed transactions leave the serial order. -/
theorem serial_append (hcommit : commitOrder events = [])
    (hwrite : ∀ txn ∈ commitOrder past, writesOf txn events = []) :
    serial (past ++ events) = serial past := by
  have horder : commitOrder (past ++ events) = commitOrder past := by
    rw [commitOrder_append, hcommit, List.append_nil]
  rw [serial, serial, horder, List.flatMap_def, List.flatMap_def]
  refine congrArg List.flatten (List.map_congr_left fun txn hmem => ?_)
  rw [writesOf_append, hwrite txn hmem, List.append_nil]

theorem writesOf_append_commit (past : List Event) (txn other : TxnId) :
    writesOf other (past ++ [committed txn]) = writesOf other past := by
  rw [writesOf_append]
  exact List.append_nil _

theorem writesOf_append_rollback (past : List Event) (txn other : TxnId) :
    writesOf other (past ++ [rolledBack txn]) = writesOf other past := by
  rw [writesOf_append]
  exact List.append_nil _

theorem serial_append_commit (past : List Event) (txn : TxnId) :
    serial (past ++ [committed txn]) = serial past ++ writesOf txn past := by
  simp only [serial, commitOrder_append_commit, List.flatMap_append, writesOf_append_commit,
    List.flatMap_singleton]

end Event

open Event

/-- The rows after some events. The committed rows are the replay of the committed transactions in
the order of their commits, and the writes of every open transaction are pending. -/
structure Serial (opened : List TxnId) (s : Storage) (past : List Event) : Prop
    extends Tracked opened s where
  keyed : s.Keyed
  past_opened : ∀ e ∈ past, e.txn ∈ opened
  closed : ∀ {txn}, committed txn ∈ past ∨ rolledBack txn ∈ past → s.transaction? txn = none
  once : (commitOrder past).Nodup
  exclusive : ∀ {txn}, committed txn ∈ past → rolledBack txn ∉ past
  committed : s.committed = replay ∅ (serial past)
  legal : Legal ∅ (serial past)
  pending : ∀ {txn}, (s.transaction? txn).isSome → s.Pending txn (writesOf txn past)

namespace Serial

variable {opened : List TxnId} {s s' : Storage} {past : List Event} {txn : TxnId}
  {t : Transaction}

theorem empty : Serial [] {} [] := by
  have hempty (key : RowKey) : ({} : Storage).node? key = none := Std.ExtTreeMap.getElem?_empty
  have hclosed (txn : TxnId) : ({} : Storage).transaction? txn = none :=
    Std.ExtTreeMap.getElem?_empty
  refine ⟨.empty, fun key n hn => ?_, nofun, nofun, .nil, nofun, ?_, trivial, fun ht => ?_⟩
  · rw [hempty] at hn
    cases hn
  · refine Std.ExtTreeMap.ext_getElem? fun key => ?_
    rw [Storage.getElem?_committed, Storage.visible, hempty]
    exact Std.ExtTreeMap.getElem?_empty.symm
  · rw [hclosed] at ht
    cases ht

theorem not_ended (S : Serial opened s past) (h : (s.transaction? txn).isSome) :
    Event.committed txn ∉ past ∧ rolledBack txn ∉ past := by
  constructor <;> intro hmem
  · rw [S.closed (.inl hmem)] at h
    cases h
  · rw [S.closed (.inr hmem)] at h
    cases h

theorem begin (S : Serial opened s past) (T : Tracked (opened ++ [txn]) (s.begin txn))
    (hnew : txn ∉ opened) : Serial (opened ++ [txn]) (s.begin txn) past := by
  refine ⟨T, S.keyed, fun e he => ?_, fun {o} ho => ?_, S.once, S.exclusive, S.committed, S.legal,
    fun {o} ho => ?_⟩
  · exact List.mem_append_left _ (S.past_opened e he)
  · rw [Storage.transaction?_begin, if_neg]
    · exact S.closed ho
    · rintro rfl
      exact hnew (ho.elim (S.past_opened _) (S.past_opened _))
  · rw [Storage.transaction?_begin] at ho
    split at ho
    · rename_i he
      subst he
      have hnil : writesOf o past = [] := writesOf_eq_nil fun e he heq =>
        hnew (heq ▸ S.past_opened e he)
      rw [hnil]
      refine .nil fun key ⟨n, hn, hown⟩ => ?_
      obtain ⟨t, ht, -⟩ := S.ledger.registered hn hown
      exact hnew (S.isOpened o (by rw [ht]; rfl))
    · have hp := S.pending ho
      exact ⟨hp.view, hp.legal, hp.owned⟩

section

variable {survives : Node → Bool} {close : Node → Node} {e : Event}

theorem past_opened_close (S : Serial opened s past) (h : s.close survives close txn = some (t, s'))
    (he : e.txn = txn) : ∀ e' ∈ past ++ [e], e'.txn ∈ opened := by
  have hopen : (s.transaction? txn).isSome := by rw [(Storage.close_eq_some h).1]; rfl
  intro e' hmem
  rcases List.mem_append.mp hmem with hmem | hmem
  · exact S.past_opened e' hmem
  · rw [List.mem_singleton.mp hmem, he]
    exact S.isOpened txn hopen

theorem closed_close (S : Serial opened s past) (h : s.close survives close txn = some (t, s'))
    (he : e.txn = txn) {o : TxnId}
    (ho : Event.committed o ∈ past ++ [e] ∨ rolledBack o ∈ past ++ [e]) :
    s'.transaction? o = none := by
  rw [Storage.transaction?_close h]
  split
  · rfl
  · rename_i hne
    have hother {e' : Event} (he' : e'.txn = o) : e' ∉ [e] := fun hmem =>
      hne (by rw [← he', List.mem_singleton.mp hmem, he])
    exact S.closed <| ho.imp (fun ho => (List.mem_append.mp ho).resolve_right (hother rfl))
      fun ho => (List.mem_append.mp ho).resolve_right (hother rfl)

end

theorem commit (S : Serial opened s past) (T : Tracked opened s')
    (h : s.commit txn = some (t, s')) : Serial opened s' (past ++ [.committed txn]) := by
  have hopen : (s.transaction? txn).isSome := by rw [(Storage.close_eq_some h).1]; rfl
  have hp := S.pending hopen
  obtain ⟨hnc, hnr⟩ := S.not_ended hopen
  have hserial := serial_append_commit past txn
  refine ⟨T, S.keyed.commit S.ledger h, S.past_opened_close h rfl, S.closed_close h rfl, ?_,
    fun {o} hc hr => ?_, ?_, ?_, fun {o} ho => ?_⟩
  · rw [commitOrder_append_commit]
    refine List.nodup_append.mpr ⟨S.once, by simp, fun o ho o' ho' he => hnc ?_⟩
    rw [← mem_commitOrder, ← List.mem_singleton.mp ho', ← he]
    exact ho
  · have hr : rolledBack o ∈ past := by
      refine (List.mem_append.mp hr).resolve_right fun hr => ?_
      cases List.mem_singleton.mp hr
    rcases List.mem_append.mp hc with hc | hc
    · exact S.exclusive hc hr
    · cases List.mem_singleton.mp hc
      exact hnr hr
  · rw [hp.committed_commit S.ledger h, hserial, replay_append, S.committed]
  · rw [hserial, legal_append, ← S.committed]
    exact ⟨S.legal, hp.legal⟩
  · obtain ⟨hne, ho⟩ := Storage.isOpen_of_close h ho
    rw [writesOf_append_commit]
    exact (S.pending ho).commit_other S.ledger h hne

theorem rollback (S : Serial opened s past) (T : Tracked opened s')
    (h : s.rollback txn = some (t, s')) : Serial opened s' (past ++ [.rolledBack txn]) := by
  have hopen : (s.transaction? txn).isSome := by rw [(Storage.close_eq_some h).1]; rfl
  obtain ⟨hnc, hnr⟩ := S.not_ended hopen
  have hserial : serial (past ++ [rolledBack txn]) = serial past :=
    serial_append rfl fun _ _ => rfl
  have horder : commitOrder (past ++ [rolledBack txn]) = commitOrder past := by
    rw [commitOrder_append]
    exact List.append_nil _
  refine ⟨T, S.keyed.rollback S.ledger h, S.past_opened_close h rfl, S.closed_close h rfl, ?_,
    fun {o} hc hr => ?_, ?_, ?_, fun {o} ho => ?_⟩
  · rw [horder]
    exact S.once
  · have hc : Event.committed o ∈ past := by
      rw [← mem_commitOrder, ← horder]
      exact mem_commitOrder.mpr hc
    rcases List.mem_append.mp hr with hr | hr
    · exact S.exclusive hc hr
    · cases List.mem_singleton.mp hr
      exact hnc hc
  · rw [Storage.Pending.committed_rollback S.ledger h, hserial, S.committed]
  · rw [hserial]
    exact S.legal
  · obtain ⟨hne, ho⟩ := Storage.isOpen_of_close h ho
    rw [writesOf_append_rollback]
    exact (S.pending ho).rollback_other S.ledger h hne

theorem change (S : Serial opened s past) {asked : RowKey → RowChange → Prop}
    {changes : List (RowKey × RowChange)} (T : Tracked opened (s.changeAll txn changes))
    (h : s.Takes txn asked changes) (hu : ∀ {key c}, (key, c) ∈ changes → c.Unique) :
    Serial opened (s.changeAll txn changes) (past ++ ofWrites txn changes) := by
  cases hchanges : changes with
  | nil =>
    have hnil : past ++ ofWrites txn [] = past := List.append_nil past
    rw [hnil]
    exact S
  | cons entry rest =>
    rw [← hchanges]
    have hopen : (s.transaction? txn).isSome := by
      have hp := h.permits
      rw [hchanges] at hp
      exact hp.1.isOpen
    have ha := h.accepts S.ledger S.keyed hu
    have hcommit := commitOrder_ofWrites txn changes
    -- The writer is open, so it is not among the committed transactions.
    have hserial : serial (past ++ ofWrites txn changes) = serial past := by
      refine serial_append hcommit fun o ho => writesOf_ofWrites_other ?_ changes
      rintro rfl
      exact (S.not_ended hopen).1 (mem_commitOrder.mp ho)
    refine ⟨T, S.keyed.changeAll S.ledger h.permits ha, fun e he => ?_, fun {o} ho => ?_, ?_,
      fun {o} hc hr => ?_, ?_, ?_, fun {o} ho => ?_⟩
    · rcases List.mem_append.mp he with he | he
      · exact S.past_opened e he
      · obtain ⟨_, _, -, rfl⟩ := mem_ofWrites.mp he
        exact S.isOpened txn hopen
    · have hnone := S.closed (ho.imp committed_mem_append.mp rolledBack_mem_append.mp)
      rw [← Option.not_isSome_iff_eq_none, Storage.isSome_transaction?_changeAll, hnone]
      nofun
    · rw [commitOrder_append, hcommit, List.append_nil]
      exact S.once
    · exact S.exclusive (committed_mem_append.mp hc) (rolledBack_mem_append.mp hr)
    · rw [Storage.committed_changeAll h.permits, hserial, S.committed]
    · rw [hserial]
      exact S.legal
    · rw [Storage.isSome_transaction?_changeAll] at ho
      have hp := S.pending ho
      rw [writesOf_append]
      by_cases hne : o = txn
      · subst hne
        rw [writesOf_ofWrites]
        exact hp.changeAll S.ledger S.keyed h.permits ha
      · rw [writesOf_ofWrites_other hne, List.append_nil]
        exact hp.changeAll_other hne h.permits

theorem opened_append {call : Call} (h : call.opened? = none) :
    opened ++ call.opened?.toList = opened := by
  rw [h]
  exact List.append_nil opened

theorem step (S : Serial opened s past) {call : Call} {events : List Event}
    (h : Step s call events s') (hu : call.Unique)
    (hnew : ∀ txn, call.opened? = some txn → txn ∉ opened) :
    Serial (opened ++ call.opened?.toList) s' (past ++ events) := by
  have T := h.tracked S.toTracked hnew
  cases h with
  | begin txn =>
    rw [List.append_nil]
    exact S.begin T (hnew txn rfl)
  | commit h =>
    rw [opened_append rfl] at T ⊢
    exact S.commit T h
  | rollback h =>
    rw [opened_append rfl] at T ⊢
    exact S.rollback T h
  | change hcall h =>
    rw [opened_append hcall] at T ⊢
    exact S.change T h fun hmem => (h.asked hmem).unique hu

end Serial

namespace Store

variable {calls : List Call}

theorem serial_run (schema : Schema) (config : Config) (hfresh : Call.Fresh calls)
    (hunique : ∀ call ∈ calls, call.Unique) :
    Serial (calls.filterMap Call.opened?) (({ schema, config } : Store).run calls).storage
      (({ schema, config } : Store).history calls) :=
  run_induction (P := Serial) (fun hmem S h hnew => S.step h (hunique _ hmem) hnew) [] _ []
    .empty hfresh

/-- The committed rows after a run are the replay, on no rows at all, of the writes of the committed
transactions, one transaction after the other in the order of their commits. The replay finds every
row as its changes expect it, no transaction commits twice, one that commits is neither rolled back
nor open, and every write is one that a call of its transaction asks for. -/
theorem committed_run_eq_replay (schema : Schema) (config : Config) (hfresh : Call.Fresh calls)
    (hunique : ∀ call ∈ calls, call.Unique) :
    let start : Store := { schema, config }
    let events := start.history calls
    let final := (start.run calls).storage
    final.committed = replay ∅ (serial events) ∧ Legal ∅ (serial events) ∧
      (commitOrder events).Nodup ∧
      (∀ txn ∈ commitOrder events, rolledBack txn ∉ events ∧ final.transaction? txn = none) ∧
      ∀ txn key c, wrote txn key c ∈ events → ∃ call ∈ calls, call.Asks txn key c := by
  intro start events final
  have S := serial_run schema config hfresh hunique
  refine ⟨S.committed, S.legal, S.once, fun txn htxn => ?_, fun txn key c => asks_of_history⟩
  have hc := mem_commitOrder.mp htxn
  exact ⟨S.exclusive hc, S.closed (.inl hc)⟩

/-- Three transactions that overlap. The first one commits last and removes a row that the second one
has created, patched and synced; the third one rolls back. A create of the second one fails because
the first one owns the row. -/
theorem committed_run_of_overlap :
    let note : Entity :=
      { attributes := Std.ExtTreeMap.ofList [("done", { type := .bool })] compare }
    let schema : Schema := { entities := Std.ExtTreeMap.ofList [("note", note)] compare }
    let row (id : String) : Row := [("id", .str id)]
    let done : Row := [("done", .bool true)]
    let mutate (txn : TxnId) (op : Operation) : Call := .mutate (some txn) "note" op false
    let create (txn : TxnId) (id : String) : Call := mutate txn (.create (.obj (row id)))
    let a : TxnId := ⟨1, "a"⟩
    let b : TxnId := ⟨2, "b"⟩
    let c : TxnId := ⟨3, "c"⟩
    let records : List SyncRecord :=
      [.create "note" (.obj (row "z")), .update "note" (.obj done) (some (.obj (row "z"))),
        .create "note" (.obj (row "y"))]
    let calls : List Call := [.begin a, .begin b, .begin c, create a "x", create b "y",
      create c "w", create b "x", mutate b (.update (.obj done) (.obj (row "y"))),
      .sync (some b) records, .commit b, .rollback c, mutate a (.remove (.obj (row "y"))),
      .commit a]
    let start : Store := { schema }
    let key (id : String) : RowKey := ⟨"note", id⟩
    serial (start.history calls) =
        [(key "y", .put (row "y")), (key "y", .merge done), (key "z", .put (row "z")),
          (key "z", .merge done), (key "y", .merge (row "y")), (key "x", .put (row "x")),
          (key "y", .delete)] ∧
      (start.run calls).storage.committed = replay ∅ (serial (start.history calls)) := by
  intro note schema row done mutate create a b c records calls start key
  have hfresh : Call.Fresh calls := by decide
  have hunique : ∀ call ∈ calls, call.Unique := by
    simp [calls, create, mutate, records, row, done, Call.Unique, Operation.Unique,
      Operation.create, Operation.update, Operation.remove, SyncRecord.Unique, Json.UniqueRows,
      Json.rows, Fields.names]
  refine ⟨?_, (committed_run_eq_replay schema {} hfresh hunique).1⟩
  -- The rows of an update and of a remove are found by a select, which does not compute by itself.
  simp only [calls, create, mutate, records, history, events, call, Store.mutate, Store.sync,
    Command.sync, List.mapM_cons, List.mapM_nil, Command.replay, Command.changesOn,
    Command.mutate, Command.perform, Command.matchingIds_eq]
  decide +kernel

end Store

end EntityStore
