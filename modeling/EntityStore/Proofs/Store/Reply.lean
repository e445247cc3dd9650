import EntityStore.Proofs.Store.Overlay
import EntityStore.Proofs.Store.Run

/-! What calls answer. Beside the work of a transaction that stays open, a call of anybody else
answers as it would without this work, unless it is stopped by a row that the transaction owns
(`Store.Overlaid.call_other`). -/

namespace EntityStore

/-- What a call that succeeds answers. -/
inductive Answer where
  | done
  | count (rows : Nat)
  | rows (rows : List Row)
deriving DecidableEq

/-- The transaction whose row has stopped a call. -/
def stoppedBy? : Except StoreError Answer → Option TxnId
  | .error (.rowLocked _ owner) => some owner
  | _ => none

namespace Call

/-- The call opens the transaction, or it reads or writes rows inside it. -/
def isOf (txn : TxnId) : Call → Bool
  | begin other => other = txn
  | select caller .. | mutate caller .. | sync caller .. => caller = some txn
  | commit _ | rollback _ => false

/-- The transaction inside which a call writes rows. -/
def writer? : Call → Option TxnId
  | mutate caller .. | sync caller .. => caller
  | _ => none

end Call

namespace Store

/-- What a call answers. -/
def reply (s : Store) : Call → Except StoreError Answer
  | .begin _ => .ok .done
  | .commit txn => (s.commit txn).1.map fun _ => .done
  | .rollback txn => (s.rollback txn).1.map fun _ => .done
  | .select caller entity selection option =>
    (s.select caller entity selection option).1.map .rows
  | .mutate caller entity op allowExists => (s.mutate caller entity op allowExists).1.map .count
  | .sync caller records => (s.sync caller records).1.map fun _ => .done

/-- The calls of a run with their answers. -/
def transcript (s : Store) : List Call → List (Call × Except StoreError Answer)
  | [] => []
  | c :: calls => (c, s.reply c) :: (s.call c).transcript calls

theorem run_append (s : Store) (first last : List Call) :
    s.run (first ++ last) = (s.run first).run last := List.foldl_append

theorem transcript_append (s : Store) (first last : List Call) :
    s.transcript (first ++ last) = s.transcript first ++ (s.run first).transcript last := by
  induction first generalizing s with
  | nil => rfl
  | cons c first ih => exact congrArg _ (ih (s.call c))

theorem call_mem_of_transcript {s : Store} {calls : List Call}
    {entry : Call × Except StoreError Answer} (h : entry ∈ s.transcript calls) :
    entry.1 ∈ calls := by
  induction calls generalizing s with
  | nil => cases h
  | cons c calls ih =>
    rcases List.mem_cons.mp h with rfl | h
    · exact List.mem_cons_self
    · exact List.mem_cons_of_mem _ (ih h)

namespace Overlaid

variable {s s' : Store} {txn : TxnId} {c : Call}

theorem of_agrees {α : Type} {c : Command α} (h : s.Overlaid txn s') (hc : c.Agrees txn)
    {f : α → Answer} (hunlocked : stoppedBy? ((c.runOn s').1.map f) ≠ some txn) :
    (c.runOn s').1.map f = (c.runOn s).1.map f ∧ (c.runOn s).2.Overlaid txn (c.runOn s').2 := by
  have hstart : ({ store := s } : Progress).Overlaid txn { store := s' } := ⟨h, rfl⟩
  rcases hc.agrees hstart with ⟨key, hlocked, -⟩ | ⟨hresult, hprogress⟩
  · refine absurd ?_ hunlocked
    have hrun : (c.runOn s').1 = .error (.rowLocked key txn) := hlocked
    rw [hrun]
    rfl
  · exact ⟨congrArg (Except.map f) hresult, hprogress.store⟩

/-- A call of the transaction itself adds to what is on top. -/
theorem call_own (h : s.Overlaid txn s') (hc : c.isOf txn = true) :
    s.Overlaid txn (s'.call c) := by
  cases c with
  | begin other =>
    cases of_decide_eq_true hc
    exact ⟨h.schema, h.config, h.stat, h.storage.begin⟩
  | select => exact h.withWork _ _
  | mutate caller entity op allowExists =>
    exact h.of_makes (Command.mutate_makes (.inr (of_decide_eq_true hc)) entity op allowExists)
  | sync caller records =>
    exact h.of_makes (Command.sync_makes (.inr (of_decide_eq_true hc)) records)
  | commit | rollback => cases hc

theorem commit_other (h : s.Overlaid txn s') (H : s.storage.Ledger) (H' : s'.storage.Ledger)
    {other : TxnId} (hne : other ≠ txn) : (s'.commit other).1 = (s.commit other).1 ∧
      (s.commit other).2.Overlaid txn (s'.commit other).2 := by
  rcases h.storage.close_cases hne Node.survivesCommit Node.commit with
    ⟨hc, hc'⟩ | ⟨t, r, r', hc, hc'⟩
  · rw [commit_of_none hc, commit_of_none hc']
    exact ⟨rfl, h⟩
  · have hstorage := h.storage.close_other H H' hne hc hc'
    unfold Store.commit Storage.commit
    rw [hc, hc']
    exact ⟨rfl, h.schema, h.config, congrArg (Stat.absorb · t) h.stat, hstorage⟩

theorem rollback_other (h : s.Overlaid txn s') (H : s.storage.Ledger) (H' : s'.storage.Ledger)
    {other : TxnId} (hne : other ≠ txn) : (s'.rollback other).1 = (s.rollback other).1 ∧
      (s.rollback other).2.Overlaid txn (s'.rollback other).2 := by
  rcases h.storage.close_cases hne Node.survivesRollback Node.rollback with
    ⟨hc, hc'⟩ | ⟨t, r, r', hc, hc'⟩
  · rw [rollback_of_none hc, rollback_of_none hc']
    exact ⟨rfl, h⟩
  · have hstorage := h.storage.close_other H H' hne hc hc'
    unfold Store.rollback Storage.rollback
    rw [hc, hc']
    exact ⟨rfl, h.schema, h.config, h.stat, hstorage⟩

/-- A call of anybody else, which neither closes the transaction nor is stopped by it. -/
theorem call_other (h : s.Overlaid txn s') (H : s.storage.Ledger) (H' : s'.storage.Ledger)
    (hc : c.isOf txn = false) (hcommit : c ≠ .commit txn) (hrollback : c ≠ .rollback txn)
    (hunlocked : stoppedBy? (s'.reply c) ≠ some txn) :
    s'.reply c = s.reply c ∧ (s.call c).Overlaid txn (s'.call c) := by
  cases c with
  | begin other => exact ⟨rfl, h.schema, h.config, h.stat, h.storage.begin_other⟩
  | commit other =>
    obtain ⟨hresult, hstore⟩ := h.commit_other H H' fun he => hcommit (congrArg _ he)
    exact ⟨congrArg (Except.map fun _ => Answer.done) hresult, hstore⟩
  | rollback other =>
    obtain ⟨hresult, hstore⟩ := h.rollback_other H H' fun he => hrollback (congrArg _ he)
    exact ⟨congrArg (Except.map fun _ => Answer.done) hresult, hstore⟩
  | select caller entity selection option =>
    have hresult := h.select (of_decide_eq_false hc) entity selection option
    exact ⟨congrArg (Except.map Answer.rows) hresult, h.withWork _ _⟩
  | mutate caller entity op allowExists =>
    have hagrees := Command.mutate_agrees (of_decide_eq_false hc) entity op allowExists
    exact h.of_agrees hagrees hunlocked
  | sync caller records =>
    exact h.of_agrees (Command.sync_agrees (of_decide_eq_false hc) records) hunlocked

end Overlaid

end Store

end EntityStore
