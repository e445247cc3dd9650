import EntityStore.Proofs.Row.Publication

/-! Storages with and without the work of one transaction. `s.Overlaid txn s'` says that `s'` is `s`
with pending changes of `txn` on top. What `txn` does keeps it so, what others do to rows that `txn`
does not own keeps it so, and after the rollback of `txn` nothing is left on top
(`Overlaid.rollback`, `Overlaid.eq_of_closed`). -/

namespace EntityStore

/-- The second node is the first one, or it is owned by the transaction and keeps the committed row
of the first one, which nobody else owns. -/
inductive Node.Overlaid (txn : TxnId) (n : Option Node) : Option Node → Prop where
  | same : Overlaid txn n n
  | owned {m : Node} (owner : m.owner = some txn) (current : m.current = n.bind (·.current))
    (free : ∀ k, n = some k → k.isFreeFor txn = true) : Overlaid txn n (some m)

/-- The second storage is the first one with pending changes of the transaction on top. -/
structure Storage.Overlaid (s : Storage) (txn : TxnId) (s' : Storage) : Prop where
  nodes : ∀ key, Node.Overlaid txn (s.node? key) (s'.node? key)
  transactions : ∀ other, other ≠ txn → s'.transaction? other = s.transaction? other

namespace Node.Overlaid

variable {txn other : TxnId} {n n' : Option Node} {c : RowChange}

theorem eq (h : Overlaid txn n n') (hown : ∀ m, n' = some m → m.owner ≠ some txn) : n' = n := by
  cases h with
  | same => rfl
  | owned owner => exact absurd owner (hown _ rfl)

/-- Nobody but the transaction sees its pending change. -/
theorem visible (h : Overlaid txn n n') {reader : Option TxnId} (hne : reader ≠ some txn) :
    n'.bind (·.visible reader) = n.bind (·.visible reader) := by
  cases h with
  | same => rfl
  | @owned m owner current free =>
    have hm : m.visible reader = m.current :=
      visible_of_owner_ne fun ho => hne (ho.symm.trans owner)
    rw [Option.bind_some, hm, current]
    cases n with
    | none => rfl
    | some k => exact (visible_of_free (free k rfl) hne).symm

/-- A further change of the transaction. -/
theorem changed (h : Overlaid txn n n') (hfree : ∀ m, n' = some m → m.isFreeFor txn = true) :
    Overlaid txn n (changed txn n' c) := by
  cases hm : Node.changed txn n' c with
  | none =>
    cases changed_eq_none hm
    exact h
  | some m =>
    obtain ⟨howner, -, hcurrent⟩ := changed_eq_some hfree hm
    cases h with
    | same => exact .owned howner hcurrent hfree
    | owned _ current free => exact .owned howner (hcurrent.trans current) free

end Node.Overlaid

namespace Storage

variable {s s' : Storage} {txn other : TxnId} {key : RowKey} {c : RowChange}
  {changes : List (RowKey × RowChange)}

/-- A storage is given by its nodes and its open transactions. -/
theorem ext_lookup (hnodes : ∀ key, s.node? key = s'.node? key)
    (htransactions : ∀ txn, s.transaction? txn = s'.transaction? txn) : s = s' := by
  obtain ⟨nodes, transactions⟩ := s
  obtain ⟨nodes', transactions'⟩ := s'
  have hn : nodes = nodes' := Std.ExtTreeMap.ext_getElem? fun key => hnodes key
  have ht : transactions = transactions' := Std.ExtTreeMap.ext_getElem? fun txn => htransactions txn
  rw [hn, ht]

theorem owns_of_owns_change (hne : other ≠ txn) {k : RowKey}
    (h : (s.change other key c).Owns txn k) : s.Owns txn k := by
  obtain ⟨m, hm, hown⟩ := h
  rw [node?_change] at hm
  split at hm
  · rename_i hk
    subst hk
    cases hn : s.node? k with
    | none =>
      rw [hn] at hm
      cases c <;> cases hm
      cases hown
      exact absurd rfl hne
    | some n =>
      refine ⟨n, hn, Decidable.byContradiction fun hno => ?_⟩
      have hadopt : (n.adopt other).owner ≠ some txn := by
        unfold Node.adopt
        split
        · exact fun he => hne (Option.some.inj he)
        · exact hno
      rw [hn] at hm
      cases c <;> cases hm <;> exact hadopt hown
  · exact ⟨m, hm, hown⟩

theorem owns_of_owns_changeAll (hne : other ≠ txn) (h : (s.changeAll other changes).Owns txn key) :
    s.Owns txn key := by
  induction changes generalizing s with
  | nil => exact h
  | cons entry rest ih => exact owns_of_owns_change hne (ih h)

namespace Overlaid

theorem refl (s : Storage) (txn : TxnId) : s.Overlaid txn s := ⟨fun _ => .same, fun _ _ => rfl⟩

theorem node?_eq (h : s.Overlaid txn s') (hown : ¬ s'.Owns txn key) :
    s'.node? key = s.node? key :=
  (h.nodes key).eq fun m hm ho => hown ⟨m, hm, ho⟩

theorem visible (h : s.Overlaid txn s') {reader : Option TxnId} (hne : reader ≠ some txn)
    (key : RowKey) : s'.visible key reader = s.visible key reader :=
  (h.nodes key).visible hne

theorem isSome_transaction? (h : s.Overlaid txn s') (hne : other ≠ txn) :
    (s'.transaction? other).isSome = (s.transaction? other).isSome := by
  rw [h.transactions other hne]

/-! ## Work of the transaction -/

theorem change (h : s.Overlaid txn s') (hp : s'.Permits txn key) :
    s.Overlaid txn (s'.change txn key c) := by
  refine ⟨fun k => ?_, fun other hne => ?_⟩
  · rw [node?_change]
    split
    · rename_i hk
      subst hk
      exact (h.nodes k).changed hp.free
    · exact h.nodes k
  · rw [transaction?_change, if_neg fun hand => hne hand.1]
    exact h.transactions other hne

theorem changeAll (h : s.Overlaid txn s') (hp : s'.PermitsAll txn changes) :
    s.Overlaid txn (s'.changeAll txn changes) := by
  induction changes generalizing s' with
  | nil => exact h
  | cons entry rest ih => exact ih (h.change hp.1) hp.2

theorem begin (h : s.Overlaid txn s') : s.Overlaid txn (s'.begin txn) := by
  refine ⟨h.nodes, fun other hne => ?_⟩
  rw [transaction?_begin, if_neg hne]
  exact h.transactions other hne

/-! ## Work of others -/

theorem change_other (h : s.Overlaid txn s') (hne : other ≠ txn) (hown : ¬ s'.Owns txn key) :
    (s.change other key c).Overlaid txn (s'.change other key c) := by
  have hnode := h.node?_eq hown
  refine ⟨fun k => ?_, fun o ho => ?_⟩
  · rw [node?_change, node?_change, hnode]
    split
    · exact .same
    · exact h.nodes k
  · rw [transaction?_change, transaction?_change, hnode, h.transactions o ho,
      h.transactions other hne]

theorem changeAll_other (h : s.Overlaid txn s') (hne : other ≠ txn)
    (hown : ∀ entry ∈ changes, ¬ s'.Owns txn entry.1) :
    (s.changeAll other changes).Overlaid txn (s'.changeAll other changes) := by
  induction changes generalizing s s' with
  | nil => exact h
  | cons entry rest ih =>
    refine ih (h.change_other hne (hown entry List.mem_cons_self)) fun e he ho => ?_
    exact hown e (List.mem_cons_of_mem _ he) (owns_of_owns_change hne ho)

theorem begin_other (h : s.Overlaid txn s') : (s.begin other).Overlaid txn (s'.begin other) := by
  refine ⟨h.nodes, fun o ho => ?_⟩
  rw [transaction?_begin, transaction?_begin, h.transactions o ho]

theorem close_cases (h : s.Overlaid txn s') (hne : other ≠ txn) (survives : Node → Bool)
    (close : Node → Node) :
    (s.close survives close other = none ∧ s'.close survives close other = none) ∨
      ∃ t r r', s.close survives close other = some (t, r) ∧
        s'.close survives close other = some (t, r') := by
  unfold Storage.close
  rw [h.transactions other hne]
  cases s.transaction? other with
  | none => exact .inl ⟨rfl, rfl⟩
  | some t => exact .inr ⟨t, _, _, rfl, rfl⟩

/-- Another transaction closes the same rows in both storages: it owns them. -/
theorem close_other (h : s.Overlaid txn s') (H : s.Ledger) (H' : s'.Ledger) (hne : other ≠ txn)
    {survives : Node → Bool} {close : Node → Node} {t : Transaction} {r r' : Storage}
    (hc : s.close survives close other = some (t, r))
    (hc' : s'.close survives close other = some (t, r')) : r.Overlaid txn r' := by
  refine ⟨fun key => ?_, fun o ho => ?_⟩
  · rw [H.node?_close hc, H'.node?_close hc']
    split
    · rename_i hk
      obtain ⟨n, hn, hown⟩ := H'.owned (close_eq_some hc').1 hk
      rw [h.node?_eq]
      · exact .same
      · rintro ⟨m, hm, ho⟩
        cases hn.symm.trans hm
        exact hne (Option.some.inj (hown.symm.trans ho))
    · exact h.nodes key
  · rw [transaction?_close hc, transaction?_close hc', h.transactions o ho]

/-! ## The end of the transaction -/

/-- Where the transaction is not open there is nothing on top. -/
theorem eq_of_closed (h : s.Overlaid txn s') (H' : s'.Ledger) (hclosed : s.transaction? txn = none)
    (hclosed' : s'.transaction? txn = none) : s' = s := by
  refine ext_lookup (fun key => ?_) fun other => ?_
  · refine h.node?_eq fun ⟨m, hm, ho⟩ => ?_
    obtain ⟨t, ht, -⟩ := H'.registered hm ho
    cases hclosed'.symm.trans ht
  · by_cases ho : other = txn
    · subst ho
      exact hclosed'.trans hclosed.symm
    · exact h.transactions other ho

/-- A node that nobody owns is its committed row. -/
theorem eq_committed (H : s.Ledger) (hclosed : s.transaction? txn = none) {n : Node}
    (hn : s.node? key = some n) (hfree : n.isFreeFor txn = true) :
    ∃ row, n = ⟨some row, none, none⟩ := by
  have howner : n.owner = none := Option.eq_none_iff_forall_ne_some.mpr fun o ho => by
    cases Node.isFreeFor_iff.mp hfree o ho
    obtain ⟨t, ht, -⟩ := H.registered hn ho
    cases hclosed.symm.trans ht
  have hpending : n.pending = none := Option.not_isSome_iff_eq_none.mp fun hp => by
    have hsome := (H.owned_iff_pending hn).mpr hp
    rw [howner] at hsome
    cases hsome
  obtain ⟨row, hrow⟩ := Option.isSome_iff_exists.mp (H.committed hn hpending)
  exact ⟨row, by rw [← hrow, ← hpending, ← howner]⟩

/-- The rollback of the transaction leaves what there is without its work. -/
theorem rollback (h : s.Overlaid txn s') (H : s.Ledger) (H' : s'.Ledger)
    (hclosed : s.transaction? txn = none) {t : Transaction} {r : Storage}
    (hc : s'.rollback txn = some (t, r)) : s.Overlaid txn r := by
  refine ⟨fun key => ?_, fun other hne => ?_⟩
  · rw [H'.node?_close hc]
    split
    · rename_i hk
      obtain ⟨m, hm, hown⟩ := H'.owned (close_eq_some hc).1 hk
      have hnode := h.nodes key
      rw [hm] at hnode ⊢
      cases hs : s.node? key with
      | none =>
        rw [hs] at hnode
        cases hnode with
        | owned _ current _ =>
          have hgone : closed Node.survivesRollback Node.rollback m = none := by
            rw [closed, Node.survivesRollback, current]
            rfl
          rw [Option.bind_some, hgone]
          exact .same
      | some n =>
        rw [hs] at hnode
        cases hnode with
        | same =>
          obtain ⟨t', ht', -⟩ := H.registered hs hown
          cases hclosed.symm.trans ht'
        | owned _ current free =>
          obtain ⟨row, rfl⟩ := eq_committed H hclosed hs (free n rfl)
          have hback : closed Node.survivesRollback Node.rollback m =
              some ⟨some row, none, none⟩ := by
            rw [closed, Node.survivesRollback, Node.rollback, current]
            rfl
          rw [Option.bind_some, hback]
          exact .same
    · exact h.nodes key
  · rw [transaction?_close hc, if_neg hne]
    exact h.transactions other hne

end Overlaid

end Storage

end EntityStore
