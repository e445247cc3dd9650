import EntityStore.Proofs.Row.Change

/-! The ledger of a storage: nodes, pending changes and transaction records agree
(`Storage.Ledger`). Permitted row changes, the opening of a new transaction and the closing of an
open one keep the ledger. -/

namespace EntityStore

/-- Nodes and records agree about who has changed what. -/
structure Storage.Ledger (s : Storage) : Prop where
  /-- A node is owned just when it has a pending change. -/
  owned_iff_pending : ∀ {key n}, s.node? key = some n → (n.owner.isSome ↔ n.pending.isSome)
  /-- A row without a pending change is committed. -/
  committed : ∀ {key n}, s.node? key = some n → n.pending = none → n.current.isSome
  /-- The owner of a node is open and has registered it. -/
  registered : ∀ {key n txn}, s.node? key = some n → n.owner = some txn →
    ∃ t, s.transaction? txn = some t ∧ key ∈ t.dirty
  /-- What an open transaction has registered is a node that it owns. -/
  owned : ∀ {txn t key}, s.transaction? txn = some t → key ∈ t.dirty →
    ∃ n, s.node? key = some n ∧ n.owner = some txn
  nodup : ∀ {txn t}, s.transaction? txn = some t → t.dirty.Nodup

namespace Transaction

theorem dirty_record (t : Transaction) (kind : MutationKind) (rows : Nat) :
    (t.record kind rows).dirty = t.dirty := by cases kind <;> rfl

variable {t : Transaction} {key other : RowKey} {kind : MutationKind} {rows : Nat}

theorem mem_dirty_touched :
    other ∈ ((t.register key).record kind rows).dirty ↔ other = key ∨ other ∈ t.dirty := by
  rw [dirty_record, register]
  split
  · rename_i h
    exact ⟨.inr, fun ho => ho.elim (fun ho => ho ▸ h) fun ho => ho⟩
  · rw [List.mem_append, List.mem_singleton, or_comm]

theorem nodup_touched (h : t.dirty.Nodup) :
    ((t.register key).record kind rows).dirty.Nodup := by
  rw [dirty_record, register]
  split
  · exact h
  · rename_i hk
    refine List.nodup_append.mpr ⟨h, by simp, fun a ha b hb hab => ?_⟩
    rw [List.mem_singleton] at hb
    exact hk (hb ▸ hab ▸ ha)

end Transaction

namespace Storage

variable {s s' : Storage} {txn : TxnId} {key : RowKey} {c : RowChange} {t : Transaction}

theorem transaction?_begin (s : Storage) (txn other : TxnId) :
    (s.begin txn).transaction? other =
      if other = txn then some { id := txn } else s.transaction? other := by
  simp only [transaction?, begin, Std.ExtTreeMap.getElem?_insert, TxnId.order_eq_eq_iff]
  exact ite_congr (propext eq_comm) (fun _ => rfl) fun _ => rfl

/-! ## Closing a transaction -/

/-- What becomes of a node that is closed. -/
def closed (survives : Node → Bool) (close : Node → Node) (n : Node) : Option Node :=
  if survives n then some (close n) else none

theorem getElem?_closeNode (survives : Node → Bool) (close : Node → Node) (nodes : RowMap Node)
    (key other : RowKey) : (closeNode survives close nodes key)[other]? =
      if other = key then nodes[key]?.bind (closed survives close) else nodes[other]? := by
  unfold closeNode closed
  cases hn : nodes[key]? with
  | none =>
    by_cases ho : other = key
    · subst ho
      simp [hn]
    · simp [ho]
  | some n =>
    by_cases ho : other = key
    · subst ho
      by_cases hs : survives n <;> simp [hs]
    · have hne : RowKey.order key other ≠ .eq := fun h => ho (RowKey.order_eq_eq_iff.mp h).symm
      by_cases hs : survives n
      · simp [ho, hs, Std.ExtTreeMap.getElem?_insert, hne]
      · simp [ho, hs, Std.ExtTreeMap.getElem?_erase, hne]

/-- Closing keys that are all different closes each of their nodes once. -/
theorem getElem?_foldl_closeNode (survives : Node → Bool) (close : Node → Node)
    {keys : List RowKey} (hd : keys.Nodup) (nodes : RowMap Node) (other : RowKey) :
    (keys.foldl (closeNode survives close) nodes)[other]? =
      if other ∈ keys then nodes[other]?.bind (closed survives close) else nodes[other]? := by
  induction keys generalizing nodes with
  | nil => simp
  | cons key keys ih =>
    obtain ⟨hk, hd⟩ := List.nodup_cons.mp hd
    rw [List.foldl_cons, ih hd, getElem?_closeNode]
    by_cases ho : other = key
    · subst ho
      rw [if_neg hk, if_pos rfl, if_pos List.mem_cons_self]
    · simp only [ho, if_false, List.mem_cons, false_or]

theorem close_eq_some {survives : Node → Bool} {close : Node → Node}
    (h : s.close survives close txn = some (t, s')) : s.transaction? txn = some t ∧
      s' = ⟨t.dirty.foldl (closeNode survives close) s.nodes, s.transactions.erase txn⟩ := by
  obtain ⟨t', ht, he⟩ := Option.map_eq_some_iff.mp h
  cases he
  exact ⟨ht, rfl⟩

theorem transaction?_close {survives : Node → Bool} {close : Node → Node}
    (h : s.close survives close txn = some (t, s')) (other : TxnId) :
    s'.transaction? other = if other = txn then none else s.transaction? other := by
  obtain ⟨-, rfl⟩ := close_eq_some h
  simp only [transaction?, Std.ExtTreeMap.getElem?_erase, TxnId.order_eq_eq_iff]
  exact ite_congr (propext eq_comm) (fun _ => rfl) fun _ => rfl

theorem isOpen_of_close {survives : Node → Bool} {close : Node → Node}
    (h : s.close survives close txn = some (t, s')) {other : TxnId}
    (ho : (s'.transaction? other).isSome) : other ≠ txn ∧ (s.transaction? other).isSome := by
  rw [transaction?_close h] at ho
  split at ho
  · cases ho
  · exact ⟨‹_›, ho⟩

namespace Ledger

theorem node?_close (H : s.Ledger) {survives : Node → Bool} {close : Node → Node}
    (h : s.close survives close txn = some (t, s')) (key : RowKey) :
    s'.node? key = if key ∈ t.dirty then (s.node? key).bind (closed survives close)
      else s.node? key := by
  obtain ⟨ht, rfl⟩ := close_eq_some h
  exact getElem?_foldl_closeNode survives close (H.nodup ht) s.nodes key

/-- The registered nodes are those that the transaction owns. -/
theorem mem_dirty_iff (H : s.Ledger) (ht : s.transaction? txn = some t) {n : Node}
    (hn : s.node? key = some n) : key ∈ t.dirty ↔ n.owner = some txn := by
  constructor
  · intro hk
    obtain ⟨m, hm, ho⟩ := H.owned ht hk
    rw [hn] at hm
    cases hm
    exact ho
  · intro ho
    obtain ⟨t', ht', hk⟩ := H.registered hn ho
    rw [ht] at ht'
    cases ht'
    exact hk

/-- No row is registered by two transactions. -/
theorem disjoint (H : s.Ledger) {other : TxnId} {t' : Transaction}
    (ht : s.transaction? txn = some t) (ht' : s.transaction? other = some t')
    (hne : txn ≠ other) (hk : key ∈ t.dirty) : key ∉ t'.dirty := by
  intro hk'
  obtain ⟨n, hn, ho⟩ := H.owned ht hk
  rw [H.mem_dirty_iff ht' hn, ho] at hk'
  exact hne (Option.some.inj hk')

end Ledger

/-! ## What keeps the ledger -/

section

variable {m : Node}

theorem node?_change_of_some (hm : Node.changed txn (s.node? key) c = some m) (k : RowKey) :
    (s.change txn key c).node? k = if k = key then some m else s.node? k := by
  rw [node?_change, hm]

theorem transaction?_change_of_some (hm : Node.changed txn (s.node? key) c = some m)
    (ht : s.transaction? txn = some t) (other : TxnId) :
    (s.change txn key c).transaction? other =
      if other = txn then some ((t.register key).record c.kind 1) else s.transaction? other := by
  rw [transaction?_change, hm, ht]
  simp

namespace Ledger

/-- After a change the owner of each node is open and has registered it. -/
theorem registered_change (H : s.Ledger) (hm : Node.changed txn (s.node? key) c = some m)
    (ht : s.transaction? txn = some t) (hown : m.owner = some txn) {k : RowKey} {n : Node}
    {other : TxnId} (hn : (s.change txn key c).node? k = some n) (ho : n.owner = some other) :
    ∃ t', (s.change txn key c).transaction? other = some t' ∧ k ∈ t'.dirty := by
  rw [node?_change_of_some hm] at hn
  rw [transaction?_change_of_some hm ht]
  split at hn
  · rename_i hk
    cases hn
    cases hown.symm.trans ho
    rw [if_pos rfl]
    exact ⟨_, rfl, Transaction.mem_dirty_touched.mpr (.inl hk)⟩
  · obtain ⟨t', ht', hk⟩ := H.registered hn ho
    split
    · rename_i he
      subst he
      cases ht.symm.trans ht'
      exact ⟨_, rfl, Transaction.mem_dirty_touched.mpr (.inr hk)⟩
    · exact ⟨t', ht', hk⟩

/-- After a change every registered row has a node of its transaction. Nobody else had registered
the changed row, because it was free. -/
theorem owned_change (H : s.Ledger) (hp : s.Permits txn key)
    (hm : Node.changed txn (s.node? key) c = some m) (ht : s.transaction? txn = some t)
    (hown : m.owner = some txn) {k : RowKey} {t' : Transaction} {other : TxnId}
    (ht' : (s.change txn key c).transaction? other = some t') (hk : k ∈ t'.dirty) :
    ∃ n, (s.change txn key c).node? k = some n ∧ n.owner = some other := by
  rw [transaction?_change_of_some hm ht] at ht'
  rw [node?_change_of_some hm]
  split at ht'
  · rename_i he
    subst he
    cases ht'
    split
    · exact ⟨m, rfl, hown⟩
    · rename_i hne
      exact H.owned ht ((Transaction.mem_dirty_touched.mp hk).resolve_left hne)
  · rename_i hne
    obtain ⟨n, hn, ho⟩ := H.owned ht' hk
    rw [if_neg]
    · exact ⟨n, hn, ho⟩
    · rintro rfl
      exact hne (Node.isFreeFor_iff.mp (hp.free n hn) other ho)

end Ledger

end

namespace Ledger

theorem empty : ({} : Storage).Ledger := by
  constructor <;> intros <;> simp_all [node?, transaction?]

theorem change (H : s.Ledger) (hp : s.Permits txn key) : (s.change txn key c).Ledger := by
  cases hm : Node.changed txn (s.node? key) c with
  | none =>
    rw [change_eq_self hm]
    exact H
  | some m =>
    obtain ⟨t, ht⟩ := Option.isSome_iff_exists.mp hp.isOpen
    obtain ⟨hown, hpend, -⟩ := Node.changed_eq_some hp.free hm
    refine ⟨fun {k n} hn => ?_, fun {k n} hn hc => ?_, H.registered_change hm ht hown,
      H.owned_change hp hm ht hown, fun {o t'} ht' => ?_⟩
    · rw [node?_change_of_some hm] at hn
      split at hn
      · cases hn
        simp [hown, hpend]
      · exact H.owned_iff_pending hn
    · rw [node?_change_of_some hm] at hn
      split at hn
      · cases hn
        rw [hc] at hpend
        cases hpend
      · exact H.committed hn hc
    · rw [transaction?_change_of_some hm ht] at ht'
      split at ht'
      · cases ht'
        exact Transaction.nodup_touched (H.nodup ht)
      · exact H.nodup ht'

theorem changeAll (H : s.Ledger) {changes : List (RowKey × RowChange)}
    (hp : s.PermitsAll txn changes) : (s.changeAll txn changes).Ledger := by
  induction changes generalizing s with
  | nil => exact H
  | cons entry rest ih => exact ih (H.change hp.1) hp.2

theorem begin (H : s.Ledger) (hnew : s.transaction? txn = none) : (s.begin txn).Ledger := by
  refine ⟨H.owned_iff_pending, H.committed, fun {k n o} hn ho => ?_, fun {o t k} ht hk => ?_,
    fun {o t} ht => ?_⟩
  · obtain ⟨t, ht, hk⟩ := H.registered hn ho
    rw [transaction?_begin, if_neg]
    · exact ⟨t, ht, hk⟩
    · rintro rfl
      rw [hnew] at ht
      cases ht
  · rw [transaction?_begin] at ht
    split at ht
    · cases ht
      cases hk
    · exact H.owned ht hk
  · rw [transaction?_begin] at ht
    split at ht
    · cases ht
      exact List.nodup_nil
    · exact H.nodup ht

/-- Closing keeps the ledger if closed nodes are clean and the survivors have a row. -/
theorem close (H : s.Ledger) {survives : Node → Bool} {close : Node → Node}
    (h : s.close survives close txn = some (t, s'))
    (hclean : ∀ n, (close n).owner = none ∧ (close n).pending = none)
    (hrow : ∀ n, survives n = true → (close n).current.isSome) : s'.Ledger := by
  have ht := (close_eq_some h).1
  have hclosed {k : RowKey} {m : Node} (hm : s'.node? k = some m) (hk : k ∈ t.dirty) :
      m.owner = none ∧ m.pending = none ∧ m.current.isSome := by
    rw [H.node?_close h, if_pos hk] at hm
    obtain ⟨n, -, hn⟩ := Option.bind_eq_some_iff.mp hm
    unfold closed at hn
    split at hn
    · rename_i hs
      cases hn
      exact ⟨(hclean n).1, (hclean n).2, hrow n hs⟩
    · cases hn
  have hkept {k : RowKey} (hk : k ∉ t.dirty) : s'.node? k = s.node? k := by
    rw [H.node?_close h, if_neg hk]
  refine ⟨fun {k n} hn => ?_, fun {k n} hn hc => ?_, fun {k n o} hn ho => ?_,
    fun {o t' k} ht' hk => ?_, fun {o t'} ht' => ?_⟩
  · by_cases hk : k ∈ t.dirty
    · obtain ⟨ho, hp, -⟩ := hclosed hn hk
      simp [ho, hp]
    · exact H.owned_iff_pending (hkept hk ▸ hn)
  · by_cases hk : k ∈ t.dirty
    · exact (hclosed hn hk).2.2
    · exact H.committed (hkept hk ▸ hn) hc
  · by_cases hk : k ∈ t.dirty
    · rw [(hclosed hn hk).1] at ho
      cases ho
    · rw [hkept hk] at hn
      obtain ⟨t', ht', hk'⟩ := H.registered hn ho
      rw [transaction?_close h, if_neg]
      · exact ⟨t', ht', hk'⟩
      · rintro rfl
        exact hk ((H.mem_dirty_iff ht hn).mpr ho)
  · rw [transaction?_close h] at ht'
    split at ht'
    · cases ht'
    · rename_i hne
      rw [hkept (H.disjoint ht' ht hne hk)]
      exact H.owned ht' hk
  · rw [transaction?_close h] at ht'
    split at ht'
    · cases ht'
    · exact H.nodup ht'

theorem commit (H : s.Ledger) (h : s.commit txn = some (t, s')) : s'.Ledger := by
  refine H.close h (fun _ => ⟨rfl, rfl⟩) fun n hs => ?_
  unfold Node.survivesCommit at hs
  unfold Node.commit
  cases hp : n.pending with
  | none =>
    rw [hp] at hs
    exact hs
  | some change =>
    rw [hp] at hs
    cases change with
    | write patch | replace row => rfl
    | remove => cases hs

theorem rollback (H : s.Ledger) (h : s.rollback txn = some (t, s')) : s'.Ledger :=
  H.close h (fun _ => ⟨rfl, rfl⟩) fun _ hs => hs

end Ledger

end Storage

end EntityStore
