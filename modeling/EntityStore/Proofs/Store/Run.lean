import EntityStore.Proofs.Store.Mutation

/-! Runs of a store. Every call makes one of four steps on the rows (`Store.step_call`), so whatever
each of the steps keeps holds along a run (`Store.run_induction`). In particular every run from a
new store keeps the ledger (`Store.Reachable.ledger`). -/

namespace EntityStore

/-- A call on a store. -/
inductive Call where
  | begin (txn : TxnId)
  | commit (txn : TxnId)
  | rollback (txn : TxnId)
  | select (caller : Option TxnId) (entity : String) (selection : Selection) (option : SelectOption)
  | mutate (caller : Option TxnId) (entity : String) (op : Operation) (allowExists : Bool)
  | sync (caller : Option TxnId) (records : List SyncRecord)

/-- What happens to the rows in a run. -/
inductive Event where
  | wrote (txn : TxnId) (key : RowKey) (change : RowChange)
  | committed (txn : TxnId)
  | rolledBack (txn : TxnId)

namespace Event

/-- The events of row changes that a transaction has made. -/
def ofWrites (txn : TxnId) (changes : List (RowKey × RowChange)) : List Event :=
  changes.map fun entry => wrote txn entry.1 entry.2

/-- The events of row changes that a caller has made. -/
def ofChanges : Option TxnId → List (RowKey × RowChange) → List Event
  | some txn, changes => ofWrites txn changes
  | none, _ => []

theorem mem_ofWrites {txn : TxnId} {changes : List (RowKey × RowChange)} {e : Event} :
    e ∈ ofWrites txn changes ↔ ∃ key c, (key, c) ∈ changes ∧ e = wrote txn key c := by
  rw [ofWrites, List.mem_map]
  constructor
  · rintro ⟨⟨key, c⟩, hmem, rfl⟩
    exact ⟨key, c, hmem, rfl⟩
  · rintro ⟨key, c, hmem, rfl⟩
    exact ⟨(key, c), hmem, rfl⟩

end Event

namespace Call

/-- The transaction that a call opens. -/
def opened? : Call → Option TxnId
  | begin txn => some txn
  | _ => none

/-- No transaction is opened twice. -/
def Fresh (calls : List Call) : Prop := (calls.filterMap opened?).Nodup

instance (calls : List Call) : Decidable (Fresh calls) :=
  inferInstanceAs (Decidable (calls.filterMap opened?).Nodup)

/-- The row changes that a call of a transaction asks for. -/
def Asks (call : Call) (txn : TxnId) (key : RowKey) (c : RowChange) : Prop :=
  match call with
  | mutate caller entity op _ => caller = some txn ∧ op.Asks entity key c
  | sync caller records => caller = some txn ∧ ∃ record ∈ records, record.Asks key c
  | _ => False

/-- The rows and patches that a call gives name each attribute once, as objects that are read from a
text always do (`Json.uniqueRows_of_parse?`). -/
def Unique : Call → Prop
  | mutate _ _ op _ => op.Unique
  | sync _ records => ∀ record ∈ records, record.Unique
  | _ => True

theorem Asks.unique {call : Call} {txn : TxnId} {key : RowKey} {c : RowChange}
    (h : call.Asks txn key c) (hu : call.Unique) : c.Unique := by
  cases call with
  | mutate caller entity op allowExists => exact h.2.unique hu
  | sync caller records =>
    obtain ⟨-, record, hmem, ha⟩ := h
    exact ha.unique (hu record hmem)
  | _ => exact h.elim

end Call

/-- The row changes that a command makes on a store. -/
def Command.changesOn {α : Type} (c : Command α) (s : Store) : List (RowKey × RowChange) :=
  (exec c { store := s }).2.changes

namespace Store

/-- The store after a call, which may have failed. -/
def call (s : Store) : Call → Store
  | .begin txn => s.begin txn
  | .commit txn => (s.commit txn).2
  | .rollback txn => (s.rollback txn).2
  | .select caller entity selection option => (s.select caller entity selection option).2
  | .mutate caller entity op allowExists => (s.mutate caller entity op allowExists).2
  | .sync caller records => (s.sync caller records).2

/-- What happens to the rows in a call. -/
def events (s : Store) : Call → List Event
  | .commit txn => match (s.commit txn).1 with
    | .ok _ => [.committed txn]
    | .error _ => []
  | .rollback txn => match (s.rollback txn).1 with
    | .ok _ => [.rolledBack txn]
    | .error _ => []
  | .mutate caller entity op allowExists =>
    Event.ofChanges caller ((Command.mutate caller entity op allowExists).changesOn s)
  | .sync caller records => Event.ofChanges caller ((Command.sync caller records).changesOn s)
  | .begin _ | .select .. => []

/-- The store after a run. -/
def run (s : Store) (calls : List Call) : Store := calls.foldl call s

/-- What happens to the rows in a run. -/
def history (s : Store) : List Call → List Event
  | [] => []
  | c :: calls => s.events c ++ (s.call c).history calls

/-- The store comes from a new one by calls that open no transaction twice. -/
def Reachable (s : Store) : Prop :=
  ∃ schema config calls, Call.Fresh calls ∧ s = ({ schema, config } : Store).run calls

end Store

/-! ## Steps -/

/-- What a call makes of the rows and the open transactions: it opens or closes a transaction, or it
makes row changes that it asks for. -/
inductive Step (s : Storage) : Call → List Event → Storage → Prop where
  | begin (txn : TxnId) : Step s (.begin txn) [] (s.begin txn)
  | commit {txn : TxnId} {t : Transaction} {s' : Storage} (h : s.commit txn = some (t, s')) :
    Step s (.commit txn) [.committed txn] s'
  | rollback {txn : TxnId} {t : Transaction} {s' : Storage} (h : s.rollback txn = some (t, s')) :
    Step s (.rollback txn) [.rolledBack txn] s'
  | change {call : Call} {txn : TxnId} {changes : List (RowKey × RowChange)}
    (hcall : call.opened? = none) (h : s.Takes txn (call.Asks txn) changes) :
    Step s call (Event.ofWrites txn changes) (s.changeAll txn changes)

namespace Step

variable {s s' : Storage} {call : Call} {events : List Event}

theorem idle (call : Call) (hcall : call.opened? = none) : Step s call [] s := by
  have htakes : s.Takes ⟨0, ""⟩ (call.Asks ⟨0, ""⟩) [] := .nil
  exact .change hcall htakes

/-- Every row change is asked for. -/
theorem asks (h : Step s call events s') {txn : TxnId} {key : RowKey} {c : RowChange}
    (hmem : .wrote txn key c ∈ events) : call.Asks txn key c := by
  cases h with
  | begin => cases hmem
  | commit | rollback => cases List.mem_singleton.mp hmem
  | change _ h =>
    obtain ⟨key, c, hmem, he⟩ := Event.mem_ofWrites.mp hmem
    cases he
    exact h.asked hmem

/-- A command that makes what its caller asks for. -/
theorem ofMakes {α : Type} {c : Command α} {caller : Option TxnId} (call : Call)
    (hcall : call.opened? = none)
    (h : ∀ txn, caller = none ∨ caller = some txn → Command.Makes c txn (call.Asks txn))
    (hasked : ∀ {txn key c}, call.Asks txn key c → caller = some txn) (s : Store) :
    Step s.storage call (Event.ofChanges caller (c.changesOn s))
      (exec c { store := s }).2.store.storage := by
  cases caller with
  | some txn =>
    obtain ⟨changes, w, htakes, he⟩ := h txn (.inr rfl) { store := s }
    unfold Command.changesOn
    rw [he]
    exact .change hcall htakes
  | none =>
    -- Without a caller nothing is asked for, so the changes are empty.
    obtain ⟨changes, w, htakes, he⟩ := h ⟨0, ""⟩ (.inl rfl) { store := s }
    unfold Command.changesOn
    rw [he]
    cases changes with
    | nil => exact idle call hcall
    | cons entry rest =>
      have hmem : (entry.1, entry.2) ∈ entry :: rest := List.mem_cons_self
      cases hasked (htakes.asked hmem)

end Step

namespace Store

variable {s : Store} {txn : TxnId} {t : Transaction} {storage : Storage}

theorem commit_of_none (h : s.storage.commit txn = none) :
    s.commit txn = (.error (.unknownTransaction txn), s) := by rw [commit, h]

theorem commit_of_some (h : s.storage.commit txn = some (t, storage)) :
    (s.commit txn).1 = .ok () ∧ (s.commit txn).2.storage = storage := by
  rw [commit, h]
  exact ⟨rfl, rfl⟩

theorem rollback_of_none (h : s.storage.rollback txn = none) :
    s.rollback txn = (.error (.unknownTransaction txn), s) := by rw [rollback, h]

theorem rollback_of_some (h : s.storage.rollback txn = some (t, storage)) :
    (s.rollback txn).1 = .ok () ∧ (s.rollback txn).2.storage = storage := by
  rw [rollback, h]
  exact ⟨rfl, rfl⟩

theorem step_call (s : Store) (c : Call) :
    Step s.storage c (s.events c) (s.call c).storage := by
  cases c with
  | begin txn => exact .begin txn
  | commit txn =>
    cases h : s.storage.commit txn with
    | none =>
      simp only [events, call, commit_of_none h]
      exact .idle _ rfl
    | some closed =>
      obtain ⟨hok, hstorage⟩ := commit_of_some h
      simp only [events, call, hok, hstorage]
      exact .commit h
  | rollback txn =>
    cases h : s.storage.rollback txn with
    | none =>
      simp only [events, call, rollback_of_none h]
      exact .idle _ rfl
    | some closed =>
      obtain ⟨hok, hstorage⟩ := rollback_of_some h
      simp only [events, call, hok, hstorage]
      exact .rollback h
  | select caller entity selection option => exact .idle _ rfl
  | mutate caller entity op allowExists =>
    refine .ofMakes (.mutate caller entity op allowExists) rfl (fun txn h => ?_) And.left s
    exact Command.mutate_makes h entity op allowExists
  | sync caller records =>
    refine .ofMakes (.sync caller records) rfl (fun txn h => ?_) And.left s
    exact Command.sync_makes h records

/-- A command changes the rows and works, and leaves everything else in the store. -/
theorem runOn_of_makes {α : Type} {c : Command α} {caller : Option TxnId}
    {asked : TxnId → RowKey → RowChange → Prop}
    (h : ∀ txn, caller = none ∨ caller = some txn → Command.Makes c txn (asked txn)) (s : Store) :
    ∃ storage work, (c.runOn s).2 = { s with storage, work } := by
  obtain ⟨txn, hcaller⟩ : ∃ txn, caller = none ∨ caller = some txn := by
    cases caller with
    | none => exact ⟨⟨0, ""⟩, .inl rfl⟩
    | some txn => exact ⟨txn, .inr rfl⟩
  obtain ⟨changes, w, -, he⟩ := h txn hcaller { store := s }
  exact ⟨_, _, congrArg (·.store) he⟩

/-- No call changes the schema. -/
theorem schema_call (s : Store) (c : Call) : (s.call c).schema = s.schema := by
  cases c with
  | begin txn | select caller entity selection option => rfl
  | commit txn =>
    rw [call, commit]
    cases s.storage.commit txn <;> rfl
  | rollback txn =>
    rw [call, rollback]
    cases s.storage.rollback txn <;> rfl
  | mutate caller entity op allowExists =>
    obtain ⟨_, _, h⟩ := runOn_of_makes (fun _ h => Command.mutate_makes h entity op allowExists) s
    exact (congrArg Store.schema h :)
  | sync caller records =>
    obtain ⟨_, _, h⟩ := runOn_of_makes (fun _ h => Command.sync_makes h records) s
    exact (congrArg Store.schema h :)

theorem schema_run (s : Store) (calls : List Call) : (s.run calls).schema = s.schema := by
  induction calls generalizing s with
  | nil => rfl
  | cons c calls ih => exact (ih (s.call c)).trans (s.schema_call c)

/-- Every row change of a run is asked for by one of its calls. -/
theorem asks_of_history {calls : List Call} {key : RowKey} {c : RowChange}
    (h : .wrote txn key c ∈ s.history calls) : ∃ call ∈ calls, call.Asks txn key c := by
  induction calls generalizing s with
  | nil => cases h
  | cons call calls ih =>
    rcases List.mem_append.mp h with h | h
    · exact ⟨call, List.mem_cons_self, (s.step_call call).asks h⟩
    · obtain ⟨call', hmem, ha⟩ := ih h
      exact ⟨call', List.mem_cons_of_mem _ hmem, ha⟩

/-! ## Runs -/

/-- What every step keeps holds after a run. The transactions opened so far and the events so far go
along with the rows. -/
theorem run_induction {P : List TxnId → Storage → List Event → Prop} {calls : List Call}
    (hstep : ∀ {opened s past call events s'}, call ∈ calls → P opened s past →
      Step s call events s' → (∀ txn, call.opened? = some txn → txn ∉ opened) →
      P (opened ++ call.opened?.toList) s' (past ++ events))
    (opened : List TxnId) (s : Store) (past : List Event) (h : P opened s.storage past)
    (hfresh : (opened ++ calls.filterMap Call.opened?).Nodup) :
    P (opened ++ calls.filterMap Call.opened?) (s.run calls).storage
      (past ++ s.history calls) := by
  induction calls generalizing opened s past with
  | nil => simpa [run, history] using h
  | cons c calls ih =>
    have hopened : opened ++ (c :: calls).filterMap Call.opened? =
        (opened ++ c.opened?.toList) ++ calls.filterMap Call.opened? := by
      cases hc : c.opened? <;> simp [hc]
    rw [hopened] at hfresh ⊢
    have hnew : ∀ txn, c.opened? = some txn → txn ∉ opened := by
      intro txn hc hmem
      have hd := (List.nodup_append.mp hfresh).1
      rw [hc] at hd
      exact (List.nodup_append.mp hd).2.2 txn hmem txn (by simp) rfl
    have hone := hstep List.mem_cons_self h (s.step_call c) hnew
    have hrest := ih (fun hmem => hstep (List.mem_cons_of_mem _ hmem)) _ _ _ hone hfresh
    rw [history, ← List.append_assoc]
    exact hrest

end Store

/-! ## The ledger along a run -/

/-- The ledger holds, and only transactions that were opened are open. -/
structure Tracked (opened : List TxnId) (s : Storage) : Prop where
  ledger : s.Ledger
  isOpened : ∀ txn, (s.transaction? txn).isSome → txn ∈ opened

namespace Step

variable {s s' : Storage} {call : Call} {events : List Event} {opened : List TxnId}

theorem tracked (h : Step s call events s') (T : Tracked opened s)
    (hnew : ∀ txn, call.opened? = some txn → txn ∉ opened) :
    Tracked (opened ++ call.opened?.toList) s' := by
  cases h with
  | begin txn =>
    have hclosed : s.transaction? txn = none :=
      Option.not_isSome_iff_eq_none.mp fun hopen => hnew txn rfl (T.isOpened txn hopen)
    refine ⟨T.ledger.begin hclosed, fun o ho => ?_⟩
    rw [Storage.transaction?_begin] at ho
    split at ho
    · exact List.mem_append_right _ (List.mem_singleton.mpr ‹_›)
    · exact List.mem_append_left _ (T.isOpened o ho)
  | commit h =>
    refine ⟨T.ledger.commit h, fun o ho => List.mem_append_left _ ?_⟩
    exact T.isOpened o (Storage.isOpen_of_close h ho).2
  | rollback h =>
    refine ⟨T.ledger.rollback h, fun o ho => List.mem_append_left _ ?_⟩
    exact T.isOpened o (Storage.isOpen_of_close h ho).2
  | change _ h =>
    refine ⟨T.ledger.changeAll h.permits, fun o ho => List.mem_append_left _ ?_⟩
    rw [Storage.isSome_transaction?_changeAll] at ho
    exact T.isOpened o ho

end Step

namespace Tracked

theorem empty : Tracked [] {} := by
  refine ⟨.empty, fun txn ht => ?_⟩
  have hnone : ({} : Storage).transaction? txn = none := Std.ExtTreeMap.getElem?_empty
  rw [hnone] at ht
  cases ht

end Tracked

namespace Store

theorem Reachable.ledger {s : Store} (h : s.Reachable) : s.storage.Ledger := by
  obtain ⟨schema, config, calls, hfresh, rfl⟩ := h
  have hrun := run_induction (P := fun opened s _ => Tracked opened s)
    (fun _ T hstep hnew => hstep.tracked T hnew) [] { schema, config } [] .empty hfresh
  exact hrun.ledger

/-- In every reachable store nodes and records agree, and no row is in the records of two open
transactions. -/
theorem ledger_disjoint_of_reachable {s : Store} (h : s.Reachable) :
    s.storage.Ledger ∧ ∀ txn other t t' key, s.storage.transaction? txn = some t →
      s.storage.transaction? other = some t' → txn ≠ other → key ∈ t.dirty → key ∉ t'.dirty :=
  ⟨h.ledger, fun _ _ _ _ _ ht ht' hne hkey => h.ledger.disjoint ht ht' hne hkey⟩

/-- Two open transactions that have each created a row. -/
theorem ledger_disjoint_of_two_creates :
    let schema : Schema := { entities := Std.ExtTreeMap.ofList [("note", {})] compare }
    let create (id : String) : Operation := .create (.obj [("id", .str id)])
    let a : TxnId := ⟨1, "a"⟩
    let b : TxnId := ⟨2, "b"⟩
    let s := ({ schema } : Store).run [.begin a, .begin b,
      .mutate (some a) "note" (create "x") false, .mutate (some b) "note" (create "y") false]
    s.Reachable ∧ (s.storage.transaction? a).map (·.dirty) = some [⟨"note", "x"⟩] ∧
      (s.storage.node? ⟨"note", "x"⟩).bind (·.owner) = some a ∧ s.storage.Ledger := by
  intro schema create a b s
  have h : s.Reachable := ⟨schema, {}, _, by decide, rfl⟩
  exact ⟨h, by decide, by decide, (ledger_disjoint_of_reachable h).1⟩

end Store

end EntityStore
