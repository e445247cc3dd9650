import EntityStore.Proofs.Row.Keyed

/-! Replay of row changes on plain rows. What a transaction sees after accepted changes is what
their replay makes of the rows that it saw before (`Storage.visible_changeAll_eq_replay`), and the
replay is legal there (`Storage.legal_of_acceptsAll`). -/

namespace EntityStore

/-- Makes row changes on rows, one after the other. -/
def replay (rows : RowMap Row) (changes : List (RowKey × RowChange)) : RowMap Row :=
  changes.foldl (fun rows entry => rows.alter entry.1 entry.2.apply) rows

section

variable {rows rows' : RowMap Row} {key : RowKey} {changes : List (RowKey × RowChange)}

theorem replay_append (rows : RowMap Row) (first last : List (RowKey × RowChange)) :
    replay rows (first ++ last) = replay (replay rows first) last := List.foldl_append

theorem RowMap.getElem?_alter (rows : RowMap Row) (key other : RowKey)
    (f : Option Row → Option Row) :
    (rows.alter key f)[other]? = if other = key then f rows[key]? else rows[other]? := by
  rw [Std.ExtTreeMap.getElem?_alter]
  simp only [RowKey.order_eq_eq_iff]
  exact ite_congr (propext eq_comm) (fun _ => rfl) fun _ => rfl

/-- What becomes of a row depends on that row alone. -/
theorem getElem?_replay_congr (h : rows[key]? = rows'[key]?) :
    (replay rows changes)[key]? = (replay rows' changes)[key]? := by
  induction changes generalizing rows rows' with
  | nil => exact h
  | cons entry rest ih =>
    refine ih ?_
    rw [RowMap.getElem?_alter, RowMap.getElem?_alter]
    split
    · rename_i hk
      rw [← hk, h]
    · exact h

theorem getElem?_replay_of_not_mem (h : ∀ c, (key, c) ∉ changes) :
    (replay rows changes)[key]? = rows[key]? := by
  induction changes generalizing rows with
  | nil => rfl
  | cons entry rest ih =>
    obtain ⟨k, c⟩ := entry
    have hne : key ≠ k := by
      rintro rfl
      exact h c List.mem_cons_self
    refine (ih fun c hc => h c (List.mem_cons_of_mem _ hc)).trans ?_
    rw [RowMap.getElem?_alter, if_neg hne]

/-- Every change goes with the row that it finds. -/
def Legal : RowMap Row → List (RowKey × RowChange) → Prop
  | _, [] => True
  | rows, (key, c) :: changes => c.Meets rows[key]? ∧ Legal (rows.alter key c.apply) changes

theorem legal_append {first last : List (RowKey × RowChange)} :
    Legal rows (first ++ last) ↔ Legal rows first ∧ Legal (replay rows first) last := by
  induction first generalizing rows with
  | nil => simp [Legal, replay]
  | cons entry rest ih =>
    simp only [List.cons_append, Legal, ih, and_assoc]
    rfl

/-- Whether changes are legal depends on the changed rows alone. -/
theorem Legal.congr (h : Legal rows changes)
    (hrows : ∀ {key c}, (key, c) ∈ changes → rows[key]? = rows'[key]?) : Legal rows' changes := by
  induction changes generalizing rows rows' with
  | nil => trivial
  | cons entry rest ih =>
    obtain ⟨k, c⟩ := entry
    have hk := hrows List.mem_cons_self
    refine ⟨hk ▸ h.1, ih h.2 fun {k' c'} hmem => ?_⟩
    rw [RowMap.getElem?_alter, RowMap.getElem?_alter, hk,
      hrows (List.mem_cons_of_mem _ hmem)]

end

namespace Storage

variable {s s' : Storage} {txn other : TxnId} {key : RowKey} {c : RowChange} {t : Transaction}
  {changes : List (RowKey × RowChange)}

/-- The committed rows. -/
def committed (s : Storage) : RowMap Row := s.nodes.filterMap fun _ n => n.current

theorem getElem?_committed (s : Storage) (key : RowKey) :
    s.committed[key]? = s.visible key none := by
  rw [committed, Std.ExtTreeMap.getElem?_filterMap', visible, node?]
  exact congrArg _ (funext fun n => Node.visible_none.symm)

/-! ## What a transaction sees of its own changes -/

theorem node?_change_of_accepts (H : s.Ledger) (K : s.Keyed) (hp : s.Permits txn key)
    (ha : s.Accepts txn key c) (k : RowKey) :
    (k = key ∧ ∃ m, (s.change txn key c).node? k = some m ∧ m.owner = some txn ∧ m.Keyed key ∧
      m.outcome = c.apply (s.visible key (some txn))) ∨
    (k ≠ key ∧ (s.change txn key c).node? k = s.node? k) := by
  rw [node?_change]
  by_cases hk : k = key
  · rw [if_pos hk]
    exact .inl ⟨hk, changed_of_accepts H K hp ha⟩
  · rw [if_neg hk]
    exact .inr ⟨hk, rfl⟩

theorem visible_change_self (H : s.Ledger) (K : s.Keyed) (hp : s.Permits txn key)
    (ha : s.Accepts txn key c) (k : RowKey) : (s.change txn key c).visible k (some txn) =
      if k = key then c.apply (s.visible key (some txn)) else s.visible k (some txn) := by
  rcases node?_change_of_accepts H K hp ha k with ⟨rfl, m, hm, hown, -, hout⟩ | ⟨hk, hnode⟩
  · rw [if_pos rfl, visible, hm, Option.bind_some, Node.visible_of_owner hown, hout]
  · rw [if_neg hk, visible, hnode, visible]

theorem Keyed.change (K : s.Keyed) (H : s.Ledger) (hp : s.Permits txn key)
    (ha : s.Accepts txn key c) : (s.change txn key c).Keyed := by
  intro k n hn
  rcases node?_change_of_accepts H K hp ha k with ⟨rfl, m, hm, -, hkeyed, -⟩ | ⟨-, hnode⟩
  · rw [hm] at hn
    cases hn
    exact hkeyed
  · exact K k n (hnode ▸ hn)

theorem owns_change (H : s.Ledger) (K : s.Keyed) (hp : s.Permits txn key)
    (ha : s.Accepts txn key c) {k : RowKey} :
    (s.change txn key c).Owns txn k ↔ k = key ∨ s.Owns txn k := by
  rcases node?_change_of_accepts H K hp ha k with ⟨rfl, m, hm, hown, -, -⟩ | ⟨hk, hnode⟩
  · exact ⟨fun _ => .inl rfl, fun _ => ⟨m, hm, hown⟩⟩
  · rw [Owns, hnode]
    exact ⟨.inr, fun h => h.resolve_left hk⟩

/-- The changes are accepted from the transaction. -/
abbrev AcceptsAll (s : Storage) (txn : TxnId) (changes : List (RowKey × RowChange)) : Prop :=
  Along (fun s key c => s.Accepts txn key c) txn s changes

theorem Keyed.changeAll (K : s.Keyed) (H : s.Ledger) (hp : s.PermitsAll txn changes)
    (ha : s.AcceptsAll txn changes) : (s.changeAll txn changes).Keyed := by
  induction changes generalizing s with
  | nil => exact K
  | cons entry rest ih =>
    exact ih (K.change H hp.1 ha.1) (H.change hp.1) hp.2 ha.2

/-- A transaction sees what its changes make of the rows that it saw. -/
theorem visible_changeAll_eq_replay (H : s.Ledger) (K : s.Keyed) (hp : s.PermitsAll txn changes)
    (ha : s.AcceptsAll txn changes) {rows : RowMap Row}
    (hrows : ∀ key, s.visible key (some txn) = rows[key]?) (key : RowKey) :
    (s.changeAll txn changes).visible key (some txn) = (replay rows changes)[key]? := by
  induction changes generalizing s rows with
  | nil => exact hrows key
  | cons entry rest ih =>
    refine ih (H.change hp.1) (K.change H hp.1 ha.1) hp.2 ha.2 fun k => ?_
    rw [visible_change_self H K hp.1 ha.1, RowMap.getElem?_alter, hrows, hrows]

/-- Changes that are accepted from a transaction are legal on the rows that it saw. -/
theorem legal_of_acceptsAll (H : s.Ledger) (K : s.Keyed) (hp : s.PermitsAll txn changes)
    (ha : s.AcceptsAll txn changes) {rows : RowMap Row}
    (hrows : ∀ key, s.visible key (some txn) = rows[key]?) : Legal rows changes := by
  induction changes generalizing s rows with
  | nil => trivial
  | cons entry rest ih =>
    have hmeets := ha.1.meets
    rw [hrows] at hmeets
    refine ⟨hmeets, ih (H.change hp.1) (K.change H hp.1 ha.1) hp.2 ha.2 fun k => ?_⟩
    rw [visible_change_self H K hp.1 ha.1, RowMap.getElem?_alter, hrows, hrows]

theorem owns_changeAll (H : s.Ledger) (K : s.Keyed) (hp : s.PermitsAll txn changes)
    (ha : s.AcceptsAll txn changes) :
    (s.changeAll txn changes).Owns txn key ↔ (∃ c, (key, c) ∈ changes) ∨ s.Owns txn key := by
  induction changes generalizing s with
  | nil => simp
  | cons entry rest ih =>
    obtain ⟨k, c⟩ := entry
    rw [changeAll_cons, ih (H.change hp.1) (K.change H hp.1 ha.1) hp.2 ha.2,
      owns_change H K hp.1 ha.1]
    simp only [List.mem_cons, Prod.mk.injEq, exists_or, exists_and_left, exists_eq, and_true]
    rw [← or_assoc, or_comm (a := key = k)]

/-! ## What closing leaves -/

theorem Keyed.close (K : s.Keyed) (H : s.Ledger) {survives : Node → Bool} {close : Node → Node}
    (h : s.close survives close txn = some (t, s'))
    (hclosed : ∀ {key n m}, n.Keyed key → closed survives close n = some m → m.Keyed key) :
    s'.Keyed := by
  intro key m hm
  rw [H.node?_close h] at hm
  split at hm
  · obtain ⟨n, hn, hm⟩ := Option.bind_eq_some_iff.mp hm
    exact hclosed (K key n hn) hm
  · exact K key m hm

theorem Keyed.commit (K : s.Keyed) (H : s.Ledger) (h : s.commit txn = some (t, s')) :
    s'.Keyed := by
  refine K.close H h fun {key n m} hn hm => ?_
  obtain ⟨hs, hm⟩ := Option.ite_none_right_eq_some.mp hm
  cases hm
  refine Node.keyed_of_clean rfl fun {row} hrow => ?_
  unfold Node.commit at hrow
  cases hp : n.pending with
  | none =>
    rw [hp] at hrow
    exact hn.current hrow
  | some change =>
    rw [hp] at hrow
    cases change with
    | remove => exact hn.current hrow
    | write patch => cases hrow; exact hn.fits_patched hp
    | replace row => cases hrow; exact hn.replaced hp

theorem Keyed.rollback (K : s.Keyed) (H : s.Ledger) (h : s.rollback txn = some (t, s')) :
    s'.Keyed := by
  refine K.close H h fun {key n m} hn hm => ?_
  obtain ⟨hs, hm⟩ := Option.ite_none_right_eq_some.mp hm
  cases hm
  exact Node.keyed_of_clean rfl hn.current

end Storage

end EntityStore
