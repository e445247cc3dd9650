import EntityStore.Proofs.Store.Reply

/-! Rollback erases a transaction. A run in which a transaction is rolled back, and in which nobody
else was stopped by its rows, can be made without the transaction: everybody else gets the same
answers, and in the end the rows are the same (`Store.rollback_erases`). The invariant of the
induction is `Shadow`: the run with the transaction has its pending changes on top. -/

namespace EntityStore

/-- The calls that are not of the transaction. -/
def Call.erase (txn : TxnId) (calls : List Call) : List Call := calls.filter fun c => !c.isOf txn

/-! ## When a transaction is closed -/

/-- The event closes the transaction. -/
def Event.Ends (e : Event) (txn : TxnId) : Prop := e = committed txn ∨ e = rolledBack txn

namespace Step

variable {s s' : Storage} {call : Call} {events : List Event} {txn : TxnId}

theorem closed (h : Step s call events s') (hno : call.opened? ≠ some txn)
    (hclosed : s.transaction? txn = none) : s'.transaction? txn = none := by
  cases h with
  | begin other =>
    rw [Storage.transaction?_begin, if_neg]
    · exact hclosed
    · rintro rfl
      exact hno rfl
  | commit h | rollback h =>
    rw [Storage.transaction?_close h]
    split
    · rfl
    · exact hclosed
  | change _ h =>
    rw [← Option.not_isSome_iff_eq_none, Storage.isSome_transaction?_changeAll, hclosed]
    nofun

/-- Only an open transaction is closed. -/
theorem of_ends (h : Step s call events s') {e : Event} (he : e ∈ events) (hends : e.Ends txn) :
    (s.transaction? txn).isSome ∧ s'.transaction? txn = none := by
  cases h with
  | begin => cases he
  | commit h | rollback h =>
    cases List.mem_singleton.mp he
    rcases hends with hends | hends <;> cases hends
    rw [(Storage.close_eq_some h).1, Storage.transaction?_close h]
    exact ⟨rfl, if_pos rfl⟩
  | change =>
    obtain ⟨_, _, -, rfl⟩ := Event.mem_ofWrites.mp he
    rcases hends with hends | hends <;> cases hends

end Step

namespace Store

variable {s s' : Store} {txn : TxnId} {c : Call} {calls : List Call} {opened : List TxnId}

theorem run_closed (hno : ∀ c ∈ calls, c.opened? ≠ some txn)
    (hclosed : s.storage.transaction? txn = none) :
    (s.run calls).storage.transaction? txn = none ∧ ∀ e ∈ s.history calls, ¬ e.Ends txn := by
  induction calls generalizing s with
  | nil => exact ⟨hclosed, nofun⟩
  | cons c calls ih =>
    have hstep := s.step_call c
    have hnext := hstep.closed (hno c List.mem_cons_self) hclosed
    obtain ⟨hend, hevents⟩ := ih (fun c hc => hno c (List.mem_cons_of_mem _ hc)) hnext
    refine ⟨hend, fun e he hends => ?_⟩
    rcases List.mem_append.mp he with he | he
    · have hopen := (hstep.of_ends he hends).1
      rw [hclosed] at hopen
      cases hopen
    · exact hevents e he hends

theorem opened_cons (opened : List TxnId) (c : Call) (calls : List Call) :
    opened ++ (c :: calls).filterMap Call.opened? =
      (opened ++ c.opened?.toList) ++ calls.filterMap Call.opened? := by
  cases hc : c.opened? <;> simp [hc]

theorem not_mem_opened {opened : List TxnId}
    (hfresh : (opened ++ (c :: calls).filterMap Call.opened?).Nodup) :
    ∀ o, c.opened? = some o → o ∉ opened := by
  intro o hc hmem
  have hd := (List.nodup_append.mp hfresh).2.2 o hmem
  exact hd o (List.mem_filterMap.mpr ⟨c, List.mem_cons_self, hc⟩) rfl

theorem commit_of_not_ends (h : ∀ e ∈ s.events (.commit txn), ¬ e.Ends txn) :
    s.storage.commit txn = none := by
  cases hc : s.storage.commit txn with
  | none => rfl
  | some closed =>
    refine absurd (.inl rfl) (h (.committed txn) ?_)
    rw [events, (commit_of_some hc).1]
    exact List.mem_singleton_self _

theorem rollback_of_not_ends (h : ∀ e ∈ s.events (.rollback txn), ¬ e.Ends txn) :
    s.storage.rollback txn = none := by
  cases hc : s.storage.rollback txn with
  | none => rfl
  | some closed =>
    refine absurd (.inr rfl) (h (.rolledBack txn) ?_)
    rw [events, (rollback_of_some hc).1]
    exact List.mem_singleton_self _

/-- A transaction that is open in the end was not closed before, because nobody opens it again. -/
theorem not_ends_of_isOpen (T : Tracked opened s.storage)
    (hfresh : (opened ++ calls.filterMap Call.opened?).Nodup)
    (hopen : ((s.run calls).storage.transaction? txn).isSome) :
    ∀ e ∈ s.history calls, ¬ e.Ends txn := by
  induction calls generalizing opened s with
  | nil => nofun
  | cons c calls ih =>
    intro e he hends
    have hstep := s.step_call c
    have T' := hstep.tracked T (not_mem_opened hfresh)
    rw [opened_cons] at hfresh
    rcases List.mem_append.mp he with he | he
    · obtain ⟨hwas, hclosed⟩ := hstep.of_ends he hends
      have hmem := List.mem_append_left c.opened?.toList (T.isOpened txn hwas)
      have hno : ∀ c' ∈ calls, c'.opened? ≠ some txn := fun c' hc' ho =>
        (List.nodup_append.mp hfresh).2.2 txn hmem txn (List.mem_filterMap.mpr ⟨c', hc', ho⟩) rfl
      have hend := (run_closed hno hclosed).1
      rw [run, List.foldl_cons] at hopen
      rw [run] at hend
      rw [hend] at hopen
      cases hopen
    · exact ih T' hfresh hopen e he hends

end Store

/-! ## Runs with and without the transaction -/

/-- The second store has work of the transaction on top, and in the first one the transaction was
not opened. -/
structure Shadow (opened : List TxnId) (txn : TxnId) (s s' : Store) : Prop where
  overlaid : s.Overlaid txn s'
  tracked : Tracked opened s.storage
  tracked' : Tracked opened s'.storage
  closed : s.storage.transaction? txn = none

namespace Tracked

theorem mono {opened opened' : List TxnId} {s : Storage} (T : Tracked opened s)
    (hle : ∀ txn ∈ opened, txn ∈ opened') : Tracked opened' s :=
  ⟨T.ledger, fun txn hopen => hle txn (T.isOpened txn hopen)⟩

end Tracked

namespace Shadow

variable {opened : List TxnId} {txn : TxnId} {s s' : Store} {c : Call} {calls : List Call}

theorem refl (T : Tracked opened s.storage) (hclosed : s.storage.transaction? txn = none) :
    Shadow opened txn s s := ⟨.refl s txn, T, T, hclosed⟩

theorem call_own (h : Shadow opened txn s s') (hc : c.isOf txn = true)
    (hnew : ∀ o, c.opened? = some o → o ∉ opened) :
    Shadow (opened ++ c.opened?.toList) txn s (s'.call c) := by
  refine ⟨h.overlaid.call_own hc, ?_, (s'.step_call c).tracked h.tracked' hnew, h.closed⟩
  exact h.tracked.mono fun _ => List.mem_append_left _

/-- A call of somebody else answers the same. If it is to close the transaction, there is nothing to
close in either store. -/
theorem call_other (h : Shadow opened txn s s') (hc : c.isOf txn = false)
    (hnew : ∀ o, c.opened? = some o → o ∉ opened) (hends : ∀ e ∈ s'.events c, ¬ e.Ends txn)
    (hunlocked : stoppedBy? (s'.reply c) ≠ some txn) :
    s'.reply c = s.reply c ∧ Shadow (opened ++ c.opened?.toList) txn (s.call c) (s'.call c) := by
  have hother : c.opened? ≠ some txn := by
    cases c with
    | begin other => exact fun he => of_decide_eq_false hc (Option.some.inj he)
    | _ => nofun
  have hagree : s'.reply c = s.reply c ∧ (s.call c).Overlaid txn (s'.call c) := by
    by_cases hcommit : c = .commit txn
    · subst hcommit
      have hnone : s.storage.commit txn = none := by
        rw [Storage.commit, Storage.close, h.closed]
        rfl
      rw [Store.reply, Store.reply, Store.call, Store.call, Store.commit_of_none hnone,
        Store.commit_of_none (Store.commit_of_not_ends hends)]
      exact ⟨rfl, h.overlaid⟩
    by_cases hrollback : c = .rollback txn
    · subst hrollback
      have hnone : s.storage.rollback txn = none := by
        rw [Storage.rollback, Storage.close, h.closed]
        rfl
      rw [Store.reply, Store.reply, Store.call, Store.call, Store.rollback_of_none hnone,
        Store.rollback_of_none (Store.rollback_of_not_ends hends)]
      exact ⟨rfl, h.overlaid⟩
    have H := h.tracked.ledger
    exact h.overlaid.call_other H h.tracked'.ledger hc hcommit hrollback hunlocked
  refine ⟨hagree.1, hagree.2, (s.step_call c).tracked h.tracked hnew, ?_, ?_⟩
  · exact (s'.step_call c).tracked h.tracked' hnew
  · exact (s.step_call c).closed hother h.closed

/-- A run in which the transaction is not closed. Without its calls the others are answered the
same, if none of them was stopped by a row of the transaction. -/
theorem run (h : Shadow opened txn s s')
    (hfresh : (opened ++ calls.filterMap Call.opened?).Nodup)
    (hends : ∀ e ∈ s'.history calls, ¬ e.Ends txn)
    (hunlocked : ∀ entry ∈ s'.transcript calls, entry.1.isOf txn = false →
      stoppedBy? entry.2 ≠ some txn) :
    s.transcript (Call.erase txn calls) =
        (s'.transcript calls).filter (fun entry => !entry.1.isOf txn) ∧
      Shadow (opened ++ calls.filterMap Call.opened?) txn (s.run (Call.erase txn calls))
        (s'.run calls) := by
  -- After each call of the longer run its store lies over the one that the others' calls leave.
  induction calls generalizing opened s s' with
  | nil =>
    have hnil : opened ++ [].filterMap Call.opened? = opened := List.append_nil opened
    rw [hnil]
    exact ⟨rfl, h⟩
  | cons c calls ih =>
    have hnew := Store.not_mem_opened hfresh
    rw [Store.opened_cons] at hfresh ⊢
    have hendsHead : ∀ e ∈ s'.events c, ¬ e.Ends txn :=
      fun e he => hends e (List.mem_append_left _ he)
    have hendsTail : ∀ e ∈ (s'.call c).history calls, ¬ e.Ends txn :=
      fun e he => hends e (List.mem_append_right _ he)
    have hunlockedTail := fun entry hentry => hunlocked entry (List.mem_cons_of_mem _ hentry)
    cases hc : c.isOf txn with
    | true =>
      obtain ⟨htranscript, hshadow⟩ := ih (h.call_own hc hnew) hfresh hendsTail hunlockedTail
      have herase : Call.erase txn (c :: calls) = Call.erase txn calls :=
        List.filter_cons_of_neg (by simp [hc])
      rw [herase, Store.transcript, List.filter_cons_of_neg (by simp [hc])]
      exact ⟨htranscript, hshadow⟩
    | false =>
      have hunlockedHead := hunlocked _ List.mem_cons_self hc
      obtain ⟨hreply, hnext⟩ := h.call_other hc hnew hendsHead hunlockedHead
      obtain ⟨htranscript, hshadow⟩ := ih hnext hfresh hendsTail hunlockedTail
      have herase : Call.erase txn (c :: calls) = c :: Call.erase txn calls :=
        List.filter_cons_of_pos (by simp [hc])
      rw [herase, Store.transcript, Store.transcript, List.filter_cons_of_pos (by simp [hc]),
        htranscript, hreply]
      exact ⟨rfl, hshadow⟩

/-- After the rollback the stores have the same rows. -/
theorem rollback (h : Shadow opened txn s s')
    (hopen : (s'.storage.transaction? txn).isSome) :
    Shadow opened txn s (s'.call (.rollback txn)) ∧
      (s'.call (.rollback txn)).storage.transaction? txn = none ∧
      (s'.call (.rollback txn)).storage = s.storage := by
  obtain ⟨t, ht⟩ := Option.isSome_iff_exists.mp hopen
  have hc : ∃ r, s'.storage.rollback txn = some (t, r) := by
    rw [Storage.rollback, Storage.close, ht]
    exact ⟨_, rfl⟩
  obtain ⟨r, hc⟩ := hc
  have hstorage : (s'.call (.rollback txn)).storage = r := (Store.rollback_of_some hc).2
  have hclosed : r.transaction? txn = none := by
    rw [Storage.transaction?_close hc, if_pos rfl]
  have hr := h.overlaid.storage.rollback h.tracked.ledger h.tracked'.ledger h.closed hc
  have T := (s'.step_call (.rollback txn)).tracked h.tracked' nofun
  have hopened : opened ++ (Call.rollback txn).opened?.toList = opened := List.append_nil opened
  rw [hopened] at T
  have hoverlaid : s.Overlaid txn (s'.call (.rollback txn)) := by
    refine ⟨?_, ?_, ?_, hstorage ▸ hr⟩ <;> rw [Store.call, Store.rollback, hc]
    · exact h.overlaid.schema
    · exact h.overlaid.config
    · exact h.overlaid.stat
  refine ⟨⟨hoverlaid, h.tracked, T, h.closed⟩, hstorage ▸ hclosed, ?_⟩
  rw [hstorage] at T ⊢
  exact hr.eq_of_closed T.ledger h.closed hclosed

end Shadow

namespace Store

variable {txn : TxnId} {before after calls : List Call}

theorem tracked_run (schema : Schema) (config : Config) (hfresh : Call.Fresh calls) :
    Tracked (calls.filterMap Call.opened?) (({ schema, config } : Store).run calls).storage :=
  run_induction (P := fun opened s _ => Tracked opened s)
    (fun _ T hstep hnew => hstep.tracked T hnew) [] { schema, config } [] .empty hfresh

/-- Where only the transaction acted since it was opened, its rollback restores the rows. -/
theorem rollback_restores (schema : Schema) (config : Config) {first own : List Call}
    (hfresh : Call.Fresh (first ++ .begin txn :: own)) (hown : ∀ c ∈ own, c.isOf txn = true)
    (hopen : ((({ schema, config } : Store).run (first ++ .begin txn :: own)).storage.transaction?
      txn).isSome) :
    ((({ schema, config } : Store).run (first ++ .begin txn :: own)).call (.rollback txn)).storage =
      (({ schema, config } : Store).run first).storage := by
  unfold Call.Fresh at hfresh
  rw [List.filterMap_append] at hfresh
  rw [run_append] at hopen ⊢
  have T := tracked_run schema config (List.nodup_append.mp hfresh).1
  have hclosed : (({ schema, config } : Store).run first).storage.transaction? txn = none := by
    refine Option.not_isSome_iff_eq_none.mp fun hwas => ?_
    exact not_mem_opened hfresh txn rfl (T.isOpened txn hwas)
  have hall : ∀ c ∈ Call.begin txn :: own, c.isOf txn = true := by
    intro c hc
    rcases List.mem_cons.mp hc with rfl | hc
    · exact decide_eq_true rfl
    · exact hown c hc
  have hends := not_ends_of_isOpen T hfresh hopen
  obtain ⟨-, hshadow⟩ := (Shadow.refl T hclosed).run hfresh hends fun entry hentry hnot => by
    rw [hall _ (call_mem_of_transcript hentry)] at hnot
    cases hnot
  have herase : Call.erase txn (.begin txn :: own) = [] :=
    List.filter_eq_nil_iff.mpr fun c hc => by simp [hall c hc]
  rw [herase] at hshadow
  exact (hshadow.rollback hopen).2.2

/-- A transaction that is rolled back leaves no trace. If no call of anybody else was stopped by one
of its rows, the run without its calls answers all others the same and ends with the same rows, the
same open transactions and the same statistics. If only the transaction acted since it was opened,
the rows are those from before. -/
theorem rollback_erases (schema : Schema) (config : Config)
    (hfresh : Call.Fresh (before ++ .rollback txn :: after))
    (hopen : ((({ schema, config } : Store).run before).storage.transaction? txn).isSome) :
    let start : Store := { schema, config }
    let rolled := start.run (before ++ [.rollback txn])
    let erased := Call.erase txn before ++ Call.erase txn after
    ((∀ entry ∈ start.transcript (before ++ .rollback txn :: after), entry.1.isOf txn = false →
        stoppedBy? entry.2 ≠ some txn) →
      start.transcript erased =
          (start.transcript before).filter (fun entry => !entry.1.isOf txn) ++
            (rolled.transcript after).filter (fun entry => !entry.1.isOf txn) ∧
        (start.run erased).storage = (rolled.run after).storage ∧
        (start.run erased).stat = (rolled.run after).stat) ∧
    ∀ first own, before = first ++ .begin txn :: own → (∀ c ∈ own, c.isOf txn = true) →
      rolled.storage = (start.run first).storage := by
  intro start rolled erased
  have hrolled : rolled = (start.run before).call (.rollback txn) := run_append ..
  have hopened : (before ++ .rollback txn :: after).filterMap Call.opened? =
      before.filterMap Call.opened? ++ after.filterMap Call.opened? := List.filterMap_append
  unfold Call.Fresh at hfresh
  rw [hopened] at hfresh
  have hbefore := (List.nodup_append.mp hfresh).1
  constructor
  · intro hunlocked
    rw [transcript_append] at hunlocked
    have hstart : Shadow [] txn start start := .refl .empty Std.ExtTreeMap.getElem?_empty
    obtain ⟨htranscript, hshadow⟩ := hstart.run hbefore (not_ends_of_isOpen .empty hbefore hopen)
      fun entry hentry => hunlocked entry (List.mem_append_left _ hentry)
    obtain ⟨hshadow, hclosed, -⟩ := hshadow.rollback hopen
    rw [← hrolled] at hshadow hclosed
    -- The transaction was opened in the first part, so it is not opened in the last one.
    have hno : ∀ c ∈ after, c.opened? ≠ some txn := fun c hc ho =>
      (List.nodup_append.mp hfresh).2.2 txn
        ((tracked_run schema config hbefore).isOpened txn hopen) txn
        (List.mem_filterMap.mpr ⟨c, hc, ho⟩) rfl
    obtain ⟨hend, hends⟩ := run_closed hno hclosed
    obtain ⟨htranscript', hshadow⟩ := hshadow.run hfresh hends fun entry hentry =>
      hunlocked entry (List.mem_append_right _ (List.mem_cons_of_mem _ (hrolled ▸ hentry)))
    rw [transcript_append, run_append, htranscript, htranscript']
    have hstorage := hshadow.overlaid.storage.eq_of_closed hshadow.tracked'.ledger hshadow.closed
    exact ⟨rfl, (hstorage hend).symm, hshadow.overlaid.stat.symm⟩
  · rintro first own rfl hown
    rw [hrolled]
    exact rollback_restores schema config hbefore hown hopen

/-- A transaction creates a row and is rolled back while another one works beside it. -/
theorem rollback_erases_create :
    let schema : Schema := { entities := Std.ExtTreeMap.ofList [("note", {})] compare }
    let create (txn : TxnId) (id : String) : Call :=
      .mutate (some txn) "note" (.create (.obj [("id", .str id)])) false
    let a : TxnId := ⟨1, "a"⟩
    let b : TxnId := ⟨2, "b"⟩
    let start : Store := { schema }
    let before := [.begin a, .begin b, create a "x", create b "y"]
    let after := [create b "x", .commit b, .rollback a]
    start.transcript (Call.erase a before ++ Call.erase a after) =
        (start.transcript before).filter (fun entry => !entry.1.isOf a) ++
          ((start.run (before ++ [.rollback a])).transcript after).filter
            (fun entry => !entry.1.isOf a) ∧
      (start.run (before ++ .rollback a :: after)).storage.visible ⟨"note", "x"⟩ none =
        some [("id", .str "x")] := by
  intro schema create a b start before after
  have hfresh : Call.Fresh (before ++ .rollback a :: after) := by decide
  have hopen : ((start.run before).storage.transaction? a).isSome := by decide
  obtain ⟨herased, -⟩ := rollback_erases schema {} hfresh hopen
  obtain ⟨htranscript, -⟩ := herased (by decide)
  exact ⟨htranscript, by decide⟩

end Store

end EntityStore
