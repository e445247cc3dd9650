import Mathlib.Algebra.GroupWithZero.Nat
import Mathlib.Data.List.Induction
import EntityStore.Proofs.Row.Tally
import EntityStore.Proofs.Store.Erasure
import EntityStore.Proofs.Store.Snapshot

/-! Counters. A mutation makes as many row changes as it answers (`Command.length_changesOn_mutate`),
and the record of its transaction counts each of them. So along a run the record of an open
transaction counts its writes (`Counted`), and the statistics are the sums of the records with which
transactions were committed (`Store.counters_account`). -/

namespace EntityStore

open Event

namespace Command

variable {p q : Progress} {txn : TxnId} {entity : String} {affected : Nat}

/-! ## As many changes as are answered -/

theorem length_changes_claim {keys : List RowKey} {c : RowChange}
    (h : p.claim txn keys c = (.ok affected, q)) :
    q.changes.length = p.changes.length + affected := by
  unfold Progress.claim at h
  split at h <;> cases h
  rw [Progress.change, List.length_append, List.length_map]

theorem length_changes_createRow {allowExists : Bool} {row : Row}
    (h : exec (createRow txn entity allowExists row) p = (.ok (), q)) :
    q.changes.length = p.changes.length + 1 := by
  rw [exec_createRow_eq] at h
  split at h <;> cases h
  exact List.length_append

theorem length_changes_createRows {allowExists : Bool} {rows : List Row}
    (h : exec (rows.forM (createRow txn entity allowExists)) p = (.ok (), q)) :
    q.changes.length = p.changes.length + rows.length := by
  induction rows generalizing p with
  | nil =>
    cases h
    rfl
  | cons row rows ih =>
    rw [exec_forM_cons] at h
    obtain ⟨_, hrow, hrows⟩ := continueWith_eq_ok h
    rw [ih hrows, length_changes_createRow (Prod.ext hrow rfl), List.length_cons]
    omega

/-- The search for rows makes no changes. -/
theorem changes_matchingIds (txn : TxnId) (entity : String) (filter : Option Json) (p : Progress) :
    (exec (matchingIds txn entity filter) p).2.changes = p.changes := by
  obtain ⟨r, w, he, -⟩ := exec_matchingIds txn entity filter p
  rw [he]
  rfl

theorem length_changes_perform {op : Operation} {allowExists : Bool}
    (h : exec (perform txn entity op allowExists) p = (.ok affected, q)) :
    q.changes.length = p.changes.length + affected := by
  unfold perform at h
  cases ha : op.action with
  | create =>
    rw [ha] at h
    dsimp only at h
    unfold createRows at h
    rw [exec_bind, exec_ofExcept] at h
    obtain ⟨rows, -, h⟩ := continueWith_eq_ok h
    rw [exec_bind] at h
    obtain ⟨_, hrows, h⟩ := continueWith_eq_ok h
    cases h
    exact length_changes_createRows (Prod.ext hrows rfl)
  | remove =>
    rw [ha] at h
    dsimp only at h
    rw [exec_bind] at h
    obtain ⟨ids, -, h⟩ := continueWith_eq_ok h
    rw [exec_removeRows] at h
    rw [length_changes_claim h, changes_matchingIds]
  | update | custom =>
    rw [ha] at h
    dsimp only at h
    cases hdata : op.data with
    | obj patch =>
      rw [hdata] at h
      dsimp only [Json.obj?] at h
      rw [exec_bind] at h
      obtain ⟨ids, -, h⟩ := continueWith_eq_ok h
      rw [exec_updateRows] at h
      split at h
      · cases h
      · rw [length_changes_claim h, changes_matchingIds]
    | _ =>
      rw [hdata] at h
      cases h

/-- A mutation that succeeds is one of an open transaction, and it makes as many row changes as it
answers. -/
theorem length_changesOn_mutate {s : Store} {caller : Option TxnId} {op : Operation}
    {allowExists : Bool} (h : (s.mutate caller entity op allowExists).1 = .ok affected) :
    (∃ txn t, caller = some txn ∧ s.storage.transaction? txn = some t) ∧
      ((mutate caller entity op allowExists).changesOn s).length = affected := by
  have hresult : (exec (mutate caller entity op allowExists) { store := s }).1 = .ok affected := h
  rcases mutate_cases caller entity { store := s } with ⟨error, hrefused⟩ | hopen
  · rw [hrefused] at hresult
    cases hresult
  · obtain ⟨txn, e, rfl, hopen, hentity⟩ := hopen
    obtain ⟨t, ht⟩ := Option.isSome_iff_exists.mp hopen
    obtain ⟨w, hexec⟩ := exec_mutate hopen hentity op allowExists
    rw [hexec] at hresult
    refine ⟨⟨txn, t, rfl, ht⟩, ?_⟩
    rw [changesOn, hexec]
    exact (length_changes_perform (Prod.ext hresult rfl)).trans (Nat.zero_add affected)

end Command

/-! ## What the records of open transactions count -/

/-- The record of every open transaction counts its writes. -/
def Counted (s : Storage) (past : List Event) : Prop :=
  ∀ txn t, s.transaction? txn = some t → ∀ kind, t.count kind = tally kind (writesOf txn past)

namespace Step

variable {s s' : Storage} {call : Call} {events : List Event} {txn : TxnId}

/-- Only open transactions write. -/
theorem writesOf_eq_nil (h : Step s call events s') (hclosed : s.transaction? txn = none) :
    writesOf txn events = [] := by
  cases h with
  | begin => rfl
  | commit | rollback => rfl
  | @change _ writer changes _ h =>
    cases changes with
    | nil => rfl
    | cons entry rest =>
      refine writesOf_ofWrites_other ?_ _
      rintro rfl
      have hopen := h.permits.1.isOpen
      rw [hclosed] at hopen
      cases hopen

end Step

namespace Counted

variable {opened : List TxnId} {s s' : Storage} {past : List Event}

theorem empty : Counted {} [] := by
  intro txn t ht
  have hnone : ({} : Storage).transaction? txn = none := Std.ExtTreeMap.getElem?_empty
  cases hnone.symm.trans ht

theorem close {survives : Node → Bool} {close : Node → Node} {txn : TxnId} {t : Transaction}
    {e : Event} (C : Counted s past) (h : s.close survives close txn = some (t, s'))
    (he : ∀ other, writesOf other [e] = []) : Counted s' (past ++ [e]) := by
  intro other t' ht' kind
  rw [Storage.transaction?_close h] at ht'
  split at ht'
  · cases ht'
  · rw [writesOf_append, he, List.append_nil]
    exact C other t' ht' kind

theorem step (C : Counted s past) (S : Serial opened s past) {call : Call} {events : List Event}
    (h : Step s call events s') (hu : call.Unique)
    (hnew : ∀ txn, call.opened? = some txn → txn ∉ opened) : Counted s' (past ++ events) := by
  cases h with
  | begin txn =>
    intro other t ht kind
    rw [List.append_nil]
    rw [Storage.transaction?_begin] at ht
    split at ht
    · -- Nothing has been written by a transaction before it is opened.
      rename_i hother
      subst hother
      cases ht
      have hnil : writesOf other past = [] := Event.writesOf_eq_nil fun e he heq =>
        hnew other rfl (heq ▸ S.past_opened e he)
      rw [hnil]
      cases kind <;> rfl
    · exact C other t ht kind
  | commit h | rollback h => exact C.close h fun _ => rfl
  | @change _ txn changes _ h =>
    intro other t' ht' kind
    rw [writesOf_append]
    by_cases hother : other = txn
    · subst hother
      have hopen : (s.transaction? other).isSome := by
        rw [← Storage.isSome_transaction?_changeAll, ht']
        rfl
      obtain ⟨t, ht⟩ := Option.isSome_iff_exists.mp hopen
      have ha := h.accepts S.ledger S.keyed fun hmem => (h.asked hmem).unique hu
      obtain ⟨t₁, ht₁, hcount⟩ := Storage.count_changeAll S.ledger S.keyed h.permits ha ht
      cases ht₁.symm.trans ht'
      rw [hcount, C other t ht, writesOf_ofWrites, tally_append]
    · rw [Storage.transaction?_changeAll_other hother] at ht'
      rw [writesOf_ofWrites_other hother, List.append_nil]
      exact C other t' ht' kind

end Counted

/-! ## Statistics -/

namespace Stat

/-- What the statistics count of one kind. -/
def count (stat : Stat) : MutationKind → Nat
  | .create => stat.create
  | .update => stat.update
  | .remove => stat.remove

theorem count_absorb (stat : Stat) (t : Transaction) (kind : MutationKind) :
    (stat.absorb t).count kind = stat.count kind + t.count kind := by cases kind <;> rfl

end Stat

namespace Store

variable {s : Store} {calls : List Call}

/-- The transaction that a call commits, with its record. -/
def committed? (s : Store) : Call → Option (TxnId × Transaction)
  | .commit txn => (s.storage.commit txn).map fun closed => (txn, closed.1)
  | _ => none

/-- The transactions that a run commits, each with its record at that moment. -/
def committedRecords (s : Store) : List Call → List (TxnId × Transaction)
  | [] => []
  | c :: calls => (s.committed? c).toList ++ (s.call c).committedRecords calls

theorem committedRecords_append (s : Store) (first last : List Call) :
    s.committedRecords (first ++ last) =
      s.committedRecords first ++ (s.run first).committedRecords last := by
  induction first generalizing s with
  | nil => rfl
  | cons c first ih =>
    rw [List.cons_append, committedRecords, ih, ← List.append_assoc]
    rfl

theorem history_append (s : Store) (first last : List Call) :
    s.history (first ++ last) = s.history first ++ (s.run first).history last := by
  induction first generalizing s with
  | nil => rfl
  | cons c first ih =>
    rw [List.cons_append, history, ih, ← List.append_assoc]
    rfl

/-- A transaction that is committed is open, and its record is the one that it has then. -/
theorem of_committed? {c : Call} {txn : TxnId} {t : Transaction}
    (h : s.committed? c = some (txn, t)) :
    s.storage.transaction? txn = some t ∧ (∃ storage, s.storage.commit txn = some (t, storage)) ∧
      c = .commit txn := by
  cases c with
  | commit other =>
    obtain ⟨⟨t', storage⟩, hcommit, he⟩ := Option.map_eq_some_iff.mp h
    cases he
    exact ⟨(Storage.close_eq_some hcommit).1, ⟨storage, hcommit⟩, rfl⟩
  | _ => cases h

theorem events_of_committed? {c : Call} {txn : TxnId} {t : Transaction}
    (h : s.committed? c = some (txn, t)) : s.events c = [.committed txn] := by
  obtain ⟨-, ⟨storage, hcommit⟩, rfl⟩ := of_committed? h
  rw [events, (commit_of_some hcommit).1]

theorem commitOrder_events (s : Store) (c : Call) :
    commitOrder (s.events c) = (s.committed? c).toList.map (·.1) := by
  cases hc : s.committed? c with
  | some r =>
    obtain ⟨txn, t⟩ := r
    rw [events_of_committed? hc]
    rfl
  | none =>
    cases c with
    | begin txn | select caller entity selection option => rfl
    | commit txn =>
      rw [events, commit_of_none (Option.map_eq_none_iff.mp hc)]
      rfl
    | rollback txn =>
      unfold events
      dsimp only
      split <;> rfl
    | mutate caller entity op allowExists | sync caller records =>
      cases caller with
      | none => rfl
      | some txn => exact commitOrder_ofWrites txn _

theorem commitOrder_history (s : Store) (calls : List Call) :
    commitOrder (s.history calls) = (s.committedRecords calls).map (·.1) := by
  induction calls generalizing s with
  | nil => rfl
  | cons c calls ih =>
    rw [history, commitOrder_append, ih, commitOrder_events, committedRecords, List.map_append]

/-- A call adds the record that it commits to the statistics, and nothing else. -/
theorem stat_call (s : Store) (c : Call) :
    (s.call c).stat = (s.committed? c).toList.foldl (fun stat r => stat.absorb r.2) s.stat := by
  cases c with
  | begin txn | select caller entity selection option => rfl
  | commit txn =>
    cases h : s.storage.commit txn with
    | none =>
      rw [call, commit_of_none h, committed?, h]
      rfl
    | some closed =>
      rw [call, stat_commit h, committed?, h]
      rfl
  | rollback txn =>
    rw [call, rollback]
    cases s.storage.rollback txn <;> rfl
  | mutate caller entity op allowExists =>
    obtain ⟨_, _, h⟩ := runOn_of_makes (fun _ h => Command.mutate_makes h entity op allowExists) s
    exact (congrArg Store.stat h :)
  | sync caller records =>
    obtain ⟨_, _, h⟩ := runOn_of_makes (fun _ h => Command.sync_makes h records) s
    exact (congrArg Store.stat h :)

theorem stat_run (s : Store) (calls : List Call) : (s.run calls).stat =
    (s.committedRecords calls).foldl (fun stat r => stat.absorb r.2) s.stat := by
  induction calls generalizing s with
  | nil => rfl
  | cons c calls ih =>
    rw [committedRecords, List.foldl_append, ← stat_call]
    exact ih (s.call c)

end Store

namespace Stat

variable {records : List (TxnId × Transaction)} {stat : Stat}

theorem count_foldl (stat : Stat) (records : List (TxnId × Transaction)) (kind : MutationKind) :
    (records.foldl (fun stat r => stat.absorb r.2) stat).count kind =
      stat.count kind + (records.map fun r => r.2.count kind).sum := by
  induction records generalizing stat with
  | nil => rfl
  | cons r records ih =>
    rw [List.foldl_cons, ih, count_absorb, List.map_cons, List.sum_cons, Nat.add_assoc]

theorem commit_foldl (stat : Stat) (records : List (TxnId × Transaction)) :
    (records.foldl (fun stat r => stat.absorb r.2) stat).commit =
      stat.commit + records.length := by
  induction records generalizing stat with
  | nil => rfl
  | cons r records ih =>
    rw [List.foldl_cons, ih, List.length_cons, absorb]
    dsimp only
    omega

end Stat

namespace Store

variable {s : Store} {calls : List Call}

theorem counted_run (schema : Schema) (config : Config) (hfresh : Call.Fresh calls)
    (hunique : ∀ call ∈ calls, call.Unique) :
    Counted (({ schema, config } : Store).run calls).storage
      (({ schema, config } : Store).history calls) := by
  have hrun := run_induction (P := fun opened s past => Serial opened s past ∧ Counted s past)
    (fun hmem h hstep hnew => ⟨h.1.step hstep (hunique _ hmem) hnew,
      h.2.step h.1 hstep (hunique _ hmem) hnew⟩)
    [] { schema, config } [] ⟨.empty, .empty⟩ hfresh
  exact hrun.2

/-- A committed transaction writes no more, so its record counts all of its writes. -/
theorem count_committedRecords (schema : Schema) (config : Config) (hfresh : Call.Fresh calls)
    (hunique : ∀ call ∈ calls, call.Unique) {txn : TxnId} {t : Transaction}
    (hmem : (txn, t) ∈ ({ schema, config } : Store).committedRecords calls) (kind : MutationKind) :
    t.count kind = tally kind (writesOf txn (({ schema, config } : Store).history calls)) := by
  induction calls using List.reverseRecOn with
  | nil => cases hmem
  | append_singleton calls c ih =>
    have hfresh' : Call.Fresh calls := by
      unfold Call.Fresh at hfresh ⊢
      rw [List.filterMap_append] at hfresh
      exact (List.nodup_append.mp hfresh).1
    have hunique' : ∀ call ∈ calls, call.Unique :=
      fun call hcall => hunique call (List.mem_append_left _ hcall)
    have S := serial_run schema config hfresh' hunique'
    have C := counted_run schema config hfresh' hunique'
    rw [committedRecords_append] at hmem
    rw [history_append, writesOf_append, history, history, List.append_nil]
    generalize ({ schema, config } : Store).run calls = s at S C hmem ⊢
    rcases List.mem_append.mp hmem with hmem | hmem
    · have hcommit : txn ∈ commitOrder (({ schema, config } : Store).history calls) := by
        rw [commitOrder_history]
        exact List.mem_map.mpr ⟨_, hmem, rfl⟩
      have hclosed := S.closed (.inl (mem_commitOrder.mp hcommit))
      rw [(s.step_call c).writesOf_eq_nil hclosed, List.append_nil]
      exact ih hfresh' hunique' hmem
    · have hcommitted : s.committed? c = some (txn, t) := by
        rw [committedRecords, committedRecords, List.append_nil] at hmem
        exact Option.mem_toList.mp hmem
      have hnone : writesOf txn (s.events c) = [] := by
        rw [events_of_committed? hcommitted]
        rfl
      rw [hnone, List.append_nil]
      exact C txn t (of_committed? hcommitted).1 kind

/-- What a mutation that succeeds does to the counters. -/
theorem count_mutate {opened : List TxnId} {past : List Event} (S : Serial opened s.storage past)
    {caller : Option TxnId} {entity : String} {op : Operation} {allowExists : Bool}
    {affected : Nat} (hu : op.Unique)
    (hok : (s.mutate caller entity op allowExists).1 = .ok affected) :
    let after := (s.mutate caller entity op allowExists).2.storage
    let changes := (Command.mutate caller entity op allowExists).changesOn s
    ∃ txn t t', caller = some txn ∧ s.storage.transaction? txn = some t ∧
      after.transaction? txn = some t' ∧ t'.total = t.total + affected ∧
      (∀ kind, t'.count kind = t.count kind + tally kind changes) ∧
      after = s.storage.changeAll txn changes ∧
      (∀ before key c rest, changes = before ++ (key, c) :: rest → op.Asks entity key c ∧
        (c.kind = .create ↔ (s.storage.changeAll txn before).visible key (some txn) = none)) ∧
      ∀ other ≠ txn, after.transaction? other = s.storage.transaction? other := by
  intro after changes
  obtain ⟨⟨txn, t, rfl, ht⟩, hlength⟩ := Command.length_changesOn_mutate hok
  obtain ⟨made, w, htakes, he⟩ :=
    Command.mutate_makes (.inr rfl) entity op allowExists { store := s }
  have hchanges : changes = made := congrArg (·.changes) he
  have hafter : after = s.storage.changeAll txn made := congrArg (·.store.storage) he
  have ha := htakes.accepts S.ledger S.keyed fun hmem => (htakes.asked hmem).2.unique hu
  obtain ⟨t', ht', hcount⟩ := Storage.count_changeAll S.ledger S.keyed htakes.permits ha ht
  refine ⟨txn, t, t', rfl, ht, ?_, ?_, ?_, ?_, fun before key c rest hsplit => ?_,
    fun other hne => ?_⟩
  · rw [hafter, ht']
  · have hsum := sum_tally made
    have hmade : made.length = affected := hchanges ▸ hlength
    rw [Transaction.total_eq, Transaction.total_eq, hcount, hcount, hcount]
    omega
  · rw [hchanges]
    exact hcount
  · rw [hafter, hchanges]
  · have hmade : made = before ++ (key, c) :: rest := hchanges.symm.trans hsplit
    refine ⟨(htakes.asked ?_).2, ?_⟩
    · rw [hmade]
      exact List.mem_append_right _ List.mem_cons_self
    · rw [hmade] at ha
      exact RowChange.kind_eq_create_iff (Storage.along_append.mp ha).2.1.meets
  · rw [hafter, Storage.transaction?_changeAll_other hne]

/-- Counters after every run. A mutation that succeeds raises what its transaction counts by exactly
the number that it answers, each of its row changes counting as a create just when the transaction
did not see the row at that moment, and no other record changes. The record of an open transaction
counts its writes. The statistics are the sums of the records with which transactions have been
committed, in the order of the commits, and these count all writes of the committed transactions. -/
theorem counters_account (schema : Schema) (config : Config) (hfresh : Call.Fresh calls)
    (hunique : ∀ call ∈ calls, call.Unique) :
    let start : Store := { schema, config }
    let s := start.run calls
    let events := start.history calls
    let records := start.committedRecords calls
    (∀ caller entity op allowExists affected, op.Unique →
      (s.mutate caller entity op allowExists).1 = .ok affected →
      let after := (s.mutate caller entity op allowExists).2.storage
      let changes := (Command.mutate caller entity op allowExists).changesOn s
      ∃ txn t t', caller = some txn ∧ s.storage.transaction? txn = some t ∧
        after.transaction? txn = some t' ∧ t'.total = t.total + affected ∧
        (∀ kind, t'.count kind = t.count kind + tally kind changes) ∧
        after = s.storage.changeAll txn changes ∧
        (∀ before key c rest, changes = before ++ (key, c) :: rest → op.Asks entity key c ∧
          (c.kind = .create ↔ (s.storage.changeAll txn before).visible key (some txn) = none)) ∧
        ∀ other ≠ txn, after.transaction? other = s.storage.transaction? other) ∧
    (∀ txn t, s.storage.transaction? txn = some t →
      ∀ kind, t.count kind = tally kind (writesOf txn events)) ∧
    s.stat.commit = records.length ∧ records.map (·.1) = commitOrder events ∧
    (∀ kind, s.stat.count kind = (records.map fun r => r.2.count kind).sum) ∧
    ∀ txn t, (txn, t) ∈ records → ∀ kind, t.count kind = tally kind (writesOf txn events) := by
  intro start s events records
  have S := serial_run schema config hfresh hunique
  have hstat : s.stat = records.foldl (fun stat r => stat.absorb r.2) {} := stat_run start calls
  refine ⟨fun caller entity op allowExists affected hu hok => count_mutate S hu hok,
    counted_run schema config hfresh hunique, ?_, (commitOrder_history start calls).symm,
    fun kind => ?_, fun txn t hmem => count_committedRecords schema config hfresh hunique hmem⟩
  · rw [hstat, Stat.commit_foldl]
    exact Nat.zero_add _
  · rw [hstat, Stat.count_foldl]
    cases kind <;> exact Nat.zero_add _

/-- One transaction is committed after a create, and another one is rolled back. A third one that
creates the rows of both counts an update for the committed row and a create for the other one. -/
theorem counters_account_again :
    let schema : Schema := { entities := Std.ExtTreeMap.ofList [("note", {})] compare }
    let a : TxnId := ⟨1, "a"⟩
    let b : TxnId := ⟨2, "b"⟩
    let c : TxnId := ⟨3, "c"⟩
    let row (id : String) : Row := [("id", .str id)]
    let create (txn : TxnId) (id : String) : Call :=
      .mutate (some txn) "note" (.create (.obj (row id))) false
    let calls : List Call := [.begin a, .begin b, .begin c, create a "x", .commit a,
      create b "z", .rollback b, create c "y"]
    let s := ({ schema } : Store).run calls
    let again := s.mutate (some c) "note" (.create (.arr [.obj (row "x"), .obj (row "z")])) true
    again.1 = .ok 2 ∧
      (s.storage.transaction? c).map (fun t => (t.create, t.update, t.remove)) = some (1, 0, 0) ∧
      (again.2.storage.transaction? c).map (fun t => (t.create, t.update, t.total)) =
        some (2, 1, 3) ∧
      again.2.storage.transaction? a = s.storage.transaction? a ∧
      s.stat.commit = 1 ∧ s.stat.count .create = 1 := by
  intro schema a b c row create calls s again
  let op : Operation := .create (.arr [.obj (row "x"), .obj (row "z")])
  have hfresh : Call.Fresh calls := by decide
  have hunique : ∀ call ∈ calls, call.Unique := by
    simp [calls, create, row, Call.Unique, Operation.Unique, Operation.create, Json.UniqueRows,
      Json.rows, Fields.names]
  have hu : op.Unique := by
    simp [op, row, Operation.Unique, Operation.create, Json.UniqueRows, Json.rows, Json.obj?,
      Fields.names]
  have hok : again.1 = .ok 2 := by decide +kernel
  have hchanges : (Command.mutate (some c) "note" op true).changesOn s =
      [(⟨"note", "x"⟩, .merge (row "x")), (⟨"note", "z"⟩, .put (row "z"))] := by decide +kernel
  have hbefore : (s.storage.transaction? c).map (fun t => (t.create, t.update, t.remove)) =
      some (1, 0, 0) := by decide +kernel
  have hrecords : ({ schema } : Store).committedRecords calls =
      [(a, { id := a, create := 1, dirty := [⟨"note", "x"⟩] })] := by decide +kernel
  obtain ⟨hmutate, -, hcommit, -, hstat, -⟩ := counters_account schema {} hfresh hunique
  obtain ⟨_, t, t', he, ht, ht', htotal, hcount, -, -, hother⟩ :=
    hmutate (some c) "note" op true 2 hu hok
  cases he
  have hcreate := hcount .create
  have hupdate := hcount .update
  rw [hchanges] at hcreate hupdate
  obtain ⟨hcreate₀, hupdate₀, hremove₀⟩ : t.create = 1 ∧ t.update = 0 ∧ t.remove = 0 := by
    rw [ht] at hbefore
    simpa using hbefore
  have hcreate' : t'.create = 2 := hcreate.trans (congrArg (· + 1) hcreate₀)
  have hupdate' : t'.update = 1 := hupdate.trans (congrArg (· + 1) hupdate₀)
  have htotal' : t'.total = 3 := by
    rw [htotal, Transaction.total, hcreate₀, hupdate₀, hremove₀]
  refine ⟨hok, hbefore, ?_, ?_, ?_, ?_⟩
  · rw [ht', Option.map_some, hcreate', hupdate', htotal']
  · rw [hother a (by decide)]
  · rw [hcommit, hrecords]
    rfl
  · rw [hstat, hrecords]
    rfl

end Store

end EntityStore
