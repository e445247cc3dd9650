import EntityStore.Proofs.Row.Ledger

/-! What closing a transaction shows. A commit shows everybody the rows that the transaction saw
(`Ledger.visible_commit`), a rollback shows nobody anything (`Ledger.visible_rollback`), and neither
touches the rows that others own. -/

namespace EntityStore

namespace Storage

variable {s s' : Storage} {txn : TxnId} {key : RowKey} {t : Transaction}

/-- The row has a pending change of the transaction. -/
def Owns (s : Storage) (txn : TxnId) (key : RowKey) : Prop :=
  ∃ n, s.node? key = some n ∧ n.owner = some txn

theorem visible_eq_current (h : ¬ s.Owns txn key) :
    s.visible key (some txn) = s.visible key none := by
  unfold visible
  cases hn : s.node? key with
  | none => rfl
  | some n =>
    rw [Option.bind_some, Option.bind_some, Node.visible_none]
    exact Node.visible_of_owner_ne fun ho => h ⟨n, hn, ho⟩

end Storage

namespace Node

variable {n : Node} {txn : TxnId}

/-- The merge, replacement or deletion that a commit carries out is the one that the owner saw. -/
theorem current_closed_commit (h : n.owner = some txn) :
    (Storage.closed survivesCommit commit n).bind (·.current) = n.visible (some txn) := by
  unfold Storage.closed survivesCommit commit visible
  rw [if_pos (⟨rfl, h⟩ : (some txn).isSome = true ∧ n.owner = some txn)]
  cases hp : n.pending with
  | none => cases hc : n.current <;> simp
  | some change => cases change <;> rfl

theorem visible_closed_rollback (txn : Option TxnId) :
    (Storage.closed survivesRollback rollback n).bind (·.visible txn) = n.current := by
  have hv : n.rollback.visible txn = n.current := by
    cases txn with
    | none => exact visible_none
    | some txn => exact visible_of_owner_ne nofun
  unfold Storage.closed survivesRollback
  cases hc : n.current with
  | none => rfl
  | some row => exact hv.trans hc

end Node

namespace Storage.Ledger

variable {s s' : Storage} {txn : TxnId} {key : RowKey} {t : Transaction}

theorem mem_dirty_iff_owns (H : s.Ledger) (ht : s.transaction? txn = some t) :
    key ∈ t.dirty ↔ s.Owns txn key := by
  constructor
  · exact H.owned ht
  · rintro ⟨n, hn, ho⟩
    exact (H.mem_dirty_iff ht hn).mpr ho

theorem owned_of_mem {n : Node} (H : s.Ledger) (ht : s.transaction? txn = some t)
    (hk : key ∈ t.dirty) (hn : s.node? key = some n) : n.owner = some txn :=
  (H.mem_dirty_iff ht hn).mp hk

/-- The rows that a closed transaction did not own stay as they are. -/
theorem node?_close_of_not_owns (H : s.Ledger) {survives : Node → Bool} {close : Node → Node}
    (h : s.close survives close txn = some (t, s')) (hk : ¬ s.Owns txn key) :
    s'.node? key = s.node? key := by
  rw [H.node?_close h, if_neg]
  exact fun hmem => hk ((H.mem_dirty_iff_owns (close_eq_some h).1).mp hmem)

theorem owns_close_iff (H : s.Ledger) {survives : Node → Bool} {close : Node → Node}
    (h : s.close survives close txn = some (t, s')) (hclean : ∀ n, (close n).owner = none)
    {other : TxnId} : s'.Owns other key ↔ other ≠ txn ∧ s.Owns other key := by
  have ht := (close_eq_some h).1
  by_cases hk : key ∈ t.dirty
  · constructor
    · rintro ⟨m, hm, ho⟩
      rw [H.node?_close h, if_pos hk] at hm
      obtain ⟨n, -, hn⟩ := Option.bind_eq_some_iff.mp hm
      unfold closed at hn
      split at hn
      · cases hn
        rw [hclean] at ho
        cases ho
      · cases hn
    · rintro ⟨hne, n, hn, ho⟩
      rw [H.owned_of_mem ht hk hn] at ho
      exact (hne (Option.some.inj ho).symm).elim
  · rw [Owns, H.node?_close h, if_neg hk]
    constructor
    · rintro ⟨n, hn, ho⟩
      refine ⟨?_, n, hn, ho⟩
      rintro rfl
      exact hk ((H.mem_dirty_iff ht hn).mpr ho)
    · exact And.right

/-! ## Commit -/

/-- After a commit everybody sees what the transaction saw. -/
theorem visible_commit (H : s.Ledger) (h : s.commit txn = some (t, s')) (key : RowKey) :
    s'.visible key none = s.visible key (some txn) := by
  have ht := (close_eq_some h).1
  by_cases hk : s.Owns txn key
  · obtain ⟨n, hn, ho⟩ := hk
    have hmem := (H.mem_dirty_iff ht hn).mpr ho
    rw [visible, visible, H.node?_close h, if_pos hmem, hn, Option.bind_some, Option.bind_some]
    simp only [Node.visible_none]
    exact Node.current_closed_commit ho
  · rw [visible_eq_current hk, visible, visible, H.node?_close_of_not_owns h hk]

/-- The pending changes of others stay theirs; elsewhere they see what was committed. -/
theorem visible_commit_other (H : s.Ledger) (h : s.commit txn = some (t, s')) {other : TxnId}
    (hne : other ≠ txn) (key : RowKey) :
    (s.Owns other key → s'.visible key (some other) = s.visible key (some other)) ∧
      (¬ s.Owns other key → s'.visible key (some other) = s'.visible key none) := by
  have hiff : s'.Owns other key ↔ other ≠ txn ∧ s.Owns other key :=
    H.owns_close_iff h fun _ => rfl
  constructor
  · rintro ⟨n, hn, ho⟩
    have hnot : ¬ s.Owns txn key := by
      rintro ⟨m, hm, hown⟩
      rw [hn] at hm
      cases hm
      rw [ho] at hown
      exact hne (Option.some.inj hown)
    have hkept := H.node?_close_of_not_owns h hnot
    rw [visible, visible, hkept]
  · intro hnot
    exact visible_eq_current fun hown => hnot (hiff.mp hown).2

theorem not_owns_commit (H : s.Ledger) (h : s.commit txn = some (t, s')) :
    ¬ s'.Owns txn key := by
  intro hown
  exact ((H.owns_close_iff h fun _ => rfl).mp hown).1 rfl

/-! ## Rollback -/

theorem visible_rollback (H : s.Ledger) (h : s.rollback txn = some (t, s')) {other : Option TxnId}
    (hne : other ≠ some txn) (key : RowKey) : s'.visible key other = s.visible key other := by
  have ht := (close_eq_some h).1
  by_cases hk : s.Owns txn key
  · obtain ⟨n, hn, ho⟩ := hk
    have hmem := (H.mem_dirty_iff ht hn).mpr ho
    have hother : n.visible other = n.current :=
      Node.visible_of_owner_ne fun h => hne (h.symm.trans ho)
    rw [visible, visible, H.node?_close h, if_pos hmem, hn, Option.bind_some, Option.bind_some,
      hother]
    exact Node.visible_closed_rollback other
  · rw [visible, visible, H.node?_close_of_not_owns h hk]

end Storage.Ledger

end EntityStore
