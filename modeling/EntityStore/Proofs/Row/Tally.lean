import EntityStore.Proofs.Row.Replay

/-! What transactions count. A row change counts as one create, update or remove of its transaction,
provided that it has an effect. Accepted changes all have one, so the record of the transaction
counts each of them (`Storage.count_changeAll`), and no other record changes. -/

namespace EntityStore

/-- How many of the changes count as one kind. -/
def tally (kind : MutationKind) (changes : List (RowKey × RowChange)) : Nat :=
  changes.countP fun entry => entry.2.kind = kind

theorem tally_append (kind : MutationKind) (first last : List (RowKey × RowChange)) :
    tally kind (first ++ last) = tally kind first + tally kind last := List.countP_append

theorem tally_cons (kind : MutationKind) (key : RowKey) (c : RowChange)
    (changes : List (RowKey × RowChange)) :
    tally kind ((key, c) :: changes) = (if c.kind = kind then 1 else 0) + tally kind changes := by
  rw [tally, List.countP_cons, Nat.add_comm]
  simp only [decide_eq_true_eq]
  rfl

/-- Every change is of one kind. -/
theorem sum_tally (changes : List (RowKey × RowChange)) :
    tally .create changes + tally .update changes + tally .remove changes = changes.length := by
  induction changes with
  | nil => rfl
  | cons entry rest ih =>
    obtain ⟨key, c⟩ := entry
    rw [tally_cons, tally_cons, tally_cons, List.length_cons]
    cases c <;> simp only [RowChange.kind, reduceCtorEq, if_true, if_false] <;> omega

/-- A change counts as a create just when it puts a row. -/
theorem RowChange.kind_eq_create_iff {c : RowChange} {old : Option Row} (h : c.Meets old) :
    c.kind = .create ↔ old = none := by
  cases c with
  | put row => exact ⟨fun _ => h, fun _ => rfl⟩
  | merge patch | delete =>
    refine ⟨nofun, ?_⟩
    rintro rfl
    cases h

namespace Transaction

/-- What the transaction counts of one kind. -/
def count (t : Transaction) : MutationKind → Nat
  | .create => t.create
  | .update => t.update
  | .remove => t.remove

/-- What the transaction counts of all kinds. -/
def total (t : Transaction) : Nat := t.create + t.update + t.remove

theorem total_eq (t : Transaction) : t.total = t.count .create + t.count .update + t.count .remove :=
  rfl

theorem count_touched (t : Transaction) (key : RowKey) (changed kind : MutationKind) :
    ((t.register key).record changed 1).count kind =
      t.count kind + if changed = kind then 1 else 0 := by
  unfold register
  split <;> cases changed <;> cases kind <;> rfl

end Transaction

namespace Storage

variable {s : Storage} {txn other : TxnId} {t : Transaction}
  {changes : List (RowKey × RowChange)}

/-- An accepted change of an open transaction is counted. -/
theorem count_change {key : RowKey} {c : RowChange} (H : s.Ledger) (K : s.Keyed)
    (hp : s.Permits txn key) (ha : s.Accepts txn key c) (ht : s.transaction? txn = some t) :
    ∃ t', (s.change txn key c).transaction? txn = some t' ∧
      ∀ kind, t'.count kind = t.count kind + if c.kind = kind then 1 else 0 := by
  obtain ⟨m, hm, -⟩ := changed_of_accepts H K hp ha
  refine ⟨_, ?_, fun kind => t.count_touched key c.kind kind⟩
  rw [transaction?_change_of_some hm ht, if_pos rfl]

/-- Accepted changes of an open transaction are all counted. -/
theorem count_changeAll (H : s.Ledger) (K : s.Keyed) (hp : s.PermitsAll txn changes)
    (ha : s.AcceptsAll txn changes) (ht : s.transaction? txn = some t) :
    ∃ t', (s.changeAll txn changes).transaction? txn = some t' ∧
      ∀ kind, t'.count kind = t.count kind + tally kind changes := by
  induction changes generalizing s t with
  | nil => exact ⟨t, ht, fun _ => rfl⟩
  | cons entry rest ih =>
    obtain ⟨key, c⟩ := entry
    obtain ⟨t₁, ht₁, hone⟩ := count_change H K hp.1 ha.1 ht
    obtain ⟨t₂, ht₂, hrest⟩ := ih (H.change hp.1) (K.change H hp.1 ha.1) hp.2 ha.2 ht₁
    refine ⟨t₂, ht₂, fun kind => ?_⟩
    rw [hrest, hone, tally_cons, Nat.add_assoc]

/-- Row changes are entered in no other record. -/
theorem transaction?_changeAll_other (hne : other ≠ txn) (changes : List (RowKey × RowChange)) :
    (s.changeAll txn changes).transaction? other = s.transaction? other := by
  induction changes generalizing s with
  | nil => rfl
  | cons entry rest ih =>
    rw [changeAll_cons, ih, transaction?_change, if_neg]
    exact fun h => hne h.1

end Storage

end EntityStore
