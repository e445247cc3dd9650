import EntityStore.Proofs.Row.Replay

/-! The writes of an open transaction. What the transaction sees is the replay of its writes on the
committed rows (`Storage.Pending`). This stays true when others change, commit or drop their rows,
because nobody else touches a row that the transaction owns, and its commit makes the replay the
committed rows (`Storage.Pending.committed_commit`). -/

namespace EntityStore.Storage

/-- The writes are what the transaction has made since it was opened. -/
structure Pending (s : Storage) (txn : TxnId) (writes : List (RowKey × RowChange)) : Prop where
  view : ∀ key, s.visible key (some txn) = (replay s.committed writes)[key]?
  legal : Legal s.committed writes
  owned : ∀ {key c}, (key, c) ∈ writes → s.Owns txn key

variable {s s' : Storage} {txn other : TxnId} {key : RowKey} {t : Transaction}
  {changes writes : List (RowKey × RowChange)}

theorem committed_eq (h : ∀ key, s'.visible key none = s.visible key none) :
    s'.committed = s.committed := by
  refine Std.ExtTreeMap.ext_getElem? fun key => ?_
  rw [getElem?_committed, getElem?_committed, h]

theorem committed_changeAll (hp : s.PermitsAll txn changes) :
    (s.changeAll txn changes).committed = s.committed :=
  committed_eq (visible_changeAll hp (Option.some_ne_none txn).symm)

theorem Owns.change_other (h : s.Owns other key) (hne : other ≠ txn) {k : RowKey} {c : RowChange}
    (hp : s.Permits txn k) : (s.change txn k c).Owns other key := by
  obtain ⟨n, hn, ho⟩ := h
  refine ⟨n, ?_, ho⟩
  rw [node?_change, if_neg, hn]
  rintro rfl
  exact hne (Node.isFreeFor_iff.mp (hp.free n hn) other ho)

theorem Owns.changeAll_other (h : s.Owns other key) (hne : other ≠ txn)
    (hp : s.PermitsAll txn changes) : (s.changeAll txn changes).Owns other key := by
  induction changes generalizing s with
  | nil => exact h
  | cons entry rest ih => exact ih (h.change_other hne hp.1) hp.2

theorem Owns.unique (h : s.Owns txn key) (h' : s.Owns other key) : txn = other := by
  obtain ⟨n, hn, ho⟩ := h
  obtain ⟨m, hm, ho'⟩ := h'
  rw [hn] at hm
  cases hm
  exact Option.some.inj (ho.symm.trans ho')

namespace Pending

/-- A transaction that owns nothing has written nothing. -/
theorem nil (h : ∀ key, ¬ s.Owns txn key) : s.Pending txn [] := by
  refine ⟨fun key => ?_, trivial, nofun⟩
  rw [visible_eq_current (h key), ← getElem?_committed]
  rfl

theorem changeAll (P : s.Pending txn writes) (H : s.Ledger) (K : s.Keyed)
    (hp : s.PermitsAll txn changes) (ha : s.AcceptsAll txn changes) :
    (s.changeAll txn changes).Pending txn (writes ++ changes) := by
  have hcommitted := committed_changeAll hp
  refine ⟨fun key => ?_, ?_, fun {key c} hmem => ?_⟩
  · rw [hcommitted, replay_append]
    exact visible_changeAll_eq_replay H K hp ha P.view key
  · rw [hcommitted, legal_append]
    exact ⟨P.legal, legal_of_acceptsAll H K hp ha P.view⟩
  · rw [owns_changeAll H K hp ha]
    exact (List.mem_append.mp hmem).elim (fun h => .inr (P.owned h)) fun h => .inl ⟨c, h⟩

/-- The changes of another transaction. -/
theorem changeAll_other (P : s.Pending other writes) (hne : other ≠ txn)
    (hp : s.PermitsAll txn changes) : (s.changeAll txn changes).Pending other writes := by
  have hsee (key : RowKey) : (s.changeAll txn changes).visible key (some other) =
      s.visible key (some other) :=
    visible_changeAll hp (fun h => hne (Option.some.inj h)) key
  refine ⟨fun key => ?_, ?_, fun h => (P.owned h).changeAll_other hne hp⟩
  · rw [hsee, committed_changeAll hp]
    exact P.view key
  · rw [committed_changeAll hp]
    exact P.legal

/-! ## Closing a transaction -/

theorem committed_commit (P : s.Pending txn writes) (H : s.Ledger)
    (h : s.commit txn = some (t, s')) : s'.committed = replay s.committed writes := by
  refine Std.ExtTreeMap.ext_getElem? fun key => ?_
  rw [getElem?_committed, H.visible_commit h, P.view]

/-- Committed rows change only where the committed transaction owned them. -/
theorem getElem?_committed_commit (H : s.Ledger) (h : s.commit txn = some (t, s'))
    (hown : s.Owns other key) (hne : other ≠ txn) : s.committed[key]? = s'.committed[key]? := by
  have hnot : ¬ s.Owns txn key := fun htxn => hne (hown.unique htxn)
  rw [getElem?_committed, getElem?_committed, H.visible_commit h, visible_eq_current hnot]

/-- The commit of another transaction. The rows written to are untouched by it; the others are seen
as they are committed. -/
theorem commit_other (P : s.Pending other writes) (H : s.Ledger)
    (h : s.commit txn = some (t, s')) (hne : other ≠ txn) : s'.Pending other writes := by
  refine ⟨fun key => ?_, P.legal.congr fun {key c} hmem => ?_, fun {key c} hmem => ?_⟩
  -- On a row that `other` owns both sides keep; elsewhere both follow the committed row.
  · by_cases hown : s.Owns other key
    · rw [(H.visible_commit_other h hne key).1 hown, P.view]
      exact getElem?_replay_congr (getElem?_committed_commit H h hown hne)
    · rw [(H.visible_commit_other h hne key).2 hown, ← getElem?_committed]
      exact (getElem?_replay_of_not_mem fun c hmem => hown (P.owned hmem)).symm
  · exact getElem?_committed_commit H h (P.owned hmem) hne
  · exact (H.owns_close_iff h fun _ => rfl).mpr ⟨hne, P.owned hmem⟩

theorem committed_rollback (H : s.Ledger) (h : s.rollback txn = some (t, s')) :
    s'.committed = s.committed :=
  committed_eq (H.visible_rollback h (Option.some_ne_none txn).symm)

theorem rollback_other (P : s.Pending other writes) (H : s.Ledger)
    (h : s.rollback txn = some (t, s')) (hne : other ≠ txn) : s'.Pending other writes := by
  have hcommitted := committed_rollback H h
  refine ⟨fun key => ?_, ?_, fun {key c} hmem => ?_⟩
  · rw [H.visible_rollback h (fun he => hne (Option.some.inj he)), hcommitted]
    exact P.view key
  · rw [hcommitted]
    exact P.legal
  · exact (H.owns_close_iff h fun _ => rfl).mpr ⟨hne, P.owned hmem⟩

end Pending

end EntityStore.Storage
