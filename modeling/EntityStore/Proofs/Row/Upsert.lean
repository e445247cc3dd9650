import EntityStore.Proofs.Row.Replay

/-! Upserts. A row is merged into the row that the transaction sees, or put where it sees none. Then
the transaction sees all the rows that were filed under a key absorbed by the one that it saw there
(`Storage.visible_upsertions`), and the same upserts once more change nothing
(`foldl_absorb_foldl_absorb`). -/

namespace EntityStore

/-- The row that a new row leads to: the old one with the new attributes, or the new one. -/
def absorb : Option Row → Row → Option Row
  | none, row => some row
  | some old, row => some (Fields.merge old row)

/-- The rows that are filed under a key. -/
def filedUnder (key : RowKey) (rows : List (RowKey × Row)) : List Row :=
  rows.filterMap fun entry => if entry.1 = key then some entry.2 else none

section

variable {key : RowKey} {row : Row} {rows : List Row} {entries : List (RowKey × Row)}

theorem foldl_absorb_some (old : Row) (rows : List Row) :
    rows.foldl absorb (some old) = some (Fields.mergeAll old rows) := by
  induction rows generalizing old with
  | nil => rfl
  | cons row rows ih => exact ih _

theorem foldl_absorb_cons (hrow : (Fields.names row).Nodup) (old : Option Row) (rows : List Row) :
    (row :: rows).foldl absorb old = some (Fields.mergeAll (old.getD []) (row :: rows)) := by
  cases old with
  | none =>
    have hempty : Fields.mergeAll [] (row :: rows) = Fields.mergeAll row rows := by
      rw [Fields.mergeAll, List.foldl_cons, Fields.merge_empty hrow, Fields.mergeAll]
    rw [Option.getD_none, hempty]
    exact foldl_absorb_some row rows
  | some old => exact foldl_absorb_some old (row :: rows)

/-- Whatever there was, rows that are absorbed already change nothing. -/
theorem foldl_absorb_foldl_absorb (h : ∀ row ∈ rows, (Fields.names row).Nodup)
    (old : Option Row) :
    rows.foldl absorb (rows.foldl absorb old) = rows.foldl absorb old := by
  cases rows with
  | nil => rfl
  | cons row rows =>
    rw [foldl_absorb_cons (h row List.mem_cons_self) old, foldl_absorb_some,
      Fields.mergeAll_mergeAll h]

theorem mem_filedUnder : row ∈ filedUnder key entries ↔ (key, row) ∈ entries := by
  rw [filedUnder, List.mem_filterMap]
  constructor
  · rintro ⟨⟨k, r⟩, hmem, he⟩
    obtain ⟨hk, hr⟩ := Option.ite_none_right_eq_some.mp he
    have hk : k = key := hk
    cases hr
    rwa [← hk]
  · exact fun hmem => ⟨(key, row), hmem, if_pos rfl⟩

theorem filedUnder_cons (key k : RowKey) (row : Row) (entries : List (RowKey × Row)) :
    filedUnder key ((k, row) :: entries) =
      if k = key then row :: filedUnder key entries else filedUnder key entries := by
  unfold filedUnder
  split
  · exact List.filterMap_cons_some (if_pos ‹_›)
  · exact List.filterMap_cons_none (if_neg ‹_›)

end

namespace Storage

variable {s : Storage} {txn : TxnId} {key k : RowKey} {row : Row} {c : RowChange}
  {rows first last : List (RowKey × Row)}

/-- The change that brings a row. -/
def upsertion (s : Storage) (txn : TxnId) (key : RowKey) (row : Row) : RowChange :=
  if (s.visible key (some txn)).isSome then .merge row else .put row

/-- The changes that bring rows one after the other. -/
def upsertions (s : Storage) (txn : TxnId) : List (RowKey × Row) → List (RowKey × RowChange)
  | [] => []
  | (key, row) :: rows =>
    let c := s.upsertion txn key row
    (key, c) :: (s.change txn key c).upsertions txn rows

theorem upsertion_of_visible {old : Row} (h : s.visible key (some txn) = some old) :
    s.upsertion txn key row = .merge row := by
  rw [upsertion, h]
  rfl

theorem upsertion_of_none (h : s.visible key (some txn) = none) :
    s.upsertion txn key row = .put row := by
  rw [upsertion, h]
  rfl

theorem accepts_upsertion (h : key.Fits row) : s.Accepts txn key (s.upsertion txn key row) := by
  cases hv : s.visible key (some txn) with
  | none =>
    rw [upsertion_of_none hv]
    exact ⟨h, hv⟩
  | some old =>
    rw [upsertion_of_visible hv]
    exact ⟨h.keeps, by rw [hv]; rfl⟩

theorem apply_upsertion : (s.upsertion txn key row).apply (s.visible key (some txn)) =
    absorb (s.visible key (some txn)) row := by
  cases hv : s.visible key (some txn) with
  | none => rw [upsertion_of_none hv]; rfl
  | some old => rw [upsertion_of_visible hv]; rfl

theorem upsertions_append : s.upsertions txn (first ++ last) = s.upsertions txn first ++
    (s.changeAll txn (s.upsertions txn first)).upsertions txn last := by
  induction first generalizing s with
  | nil => rfl
  | cons entry rest ih => exact congrArg (_ :: ·) ih

theorem mem_upsertions : (∃ c, (key, c) ∈ s.upsertions txn rows) ↔ ∃ row, (key, row) ∈ rows := by
  induction rows generalizing s with
  | nil => exact ⟨nofun, nofun⟩
  | cons entry rest ih =>
    obtain ⟨k, row⟩ := entry
    simp only [upsertions, List.mem_cons, Prod.mk.injEq, exists_or, ih, exists_and_left, exists_eq]

/-! ## Permission -/

/-- The changes of a transaction neither give it permission nor take it away. -/
theorem Permits.change_iff (h : s.Permits txn key) :
    (s.change txn key c).Permits txn k ↔ s.Permits txn k := by
  refine ⟨fun hk => ?_, h.change⟩
  by_cases he : k = key
  · rw [he]
    exact h
  · refine ⟨h.isOpen, fun n hn => hk.free n ?_⟩
    rw [node?_change, if_neg he, hn]

theorem PermitsAll.changeAll_iff {changes : List (RowKey × RowChange)}
    (h : s.PermitsAll txn changes) : (s.changeAll txn changes).Permits txn k ↔ s.Permits txn k := by
  induction changes generalizing s with
  | nil => exact Iff.rfl
  | cons entry rest ih => exact (ih h.2).trans h.1.change_iff

theorem permitsAll_upsertions (h : ∀ entry ∈ rows, s.Permits txn entry.1) :
    s.PermitsAll txn (s.upsertions txn rows) := by
  induction rows generalizing s with
  | nil => trivial
  | cons entry rest ih =>
    have hhead := h entry List.mem_cons_self
    exact ⟨hhead, ih fun e he => hhead.change (h e (List.mem_cons_of_mem _ he))⟩

/-! ## Effect -/

theorem acceptsAll_upsertions (h : ∀ entry ∈ rows, entry.1.Fits entry.2) :
    s.AcceptsAll txn (s.upsertions txn rows) := by
  induction rows generalizing s with
  | nil => trivial
  | cons entry rest ih =>
    exact ⟨accepts_upsertion (h entry List.mem_cons_self),
      ih fun e he => h e (List.mem_cons_of_mem _ he)⟩

/-- The transaction sees what the rows under a key make of the row that it saw there. -/
theorem visible_upsertions (H : s.Ledger) (K : s.Keyed)
    (hp : ∀ entry ∈ rows, s.Permits txn entry.1) (hfit : ∀ entry ∈ rows, entry.1.Fits entry.2)
    (key : RowKey) : (s.changeAll txn (s.upsertions txn rows)).visible key (some txn) =
      (filedUnder key rows).foldl absorb (s.visible key (some txn)) := by
  induction rows generalizing s with
  | nil => rfl
  | cons entry rest ih =>
    obtain ⟨k, row⟩ := entry
    have hk : s.Permits txn k := hp _ List.mem_cons_self
    have ha : s.Accepts txn k (s.upsertion txn k row) :=
      accepts_upsertion (hfit _ List.mem_cons_self)
    have hrest := ih (H.change hk) (K.change H hk ha)
      (fun e he => hk.change (hp e (List.mem_cons_of_mem _ he)))
      fun e he => hfit e (List.mem_cons_of_mem _ he)
    rw [upsertions, changeAll_cons, hrest, visible_change_self H K hk ha, apply_upsertion,
      filedUnder_cons]
    by_cases he : key = k
    · rw [if_pos he, if_pos he.symm, he, List.foldl_cons]
    · rw [if_neg he, if_neg (Ne.symm he)]

/-- The transaction owns the rows that it has brought. -/
theorem owns_upsertions (H : s.Ledger) (K : s.Keyed) (hp : ∀ entry ∈ rows, s.Permits txn entry.1)
    (hfit : ∀ entry ∈ rows, entry.1.Fits entry.2) (hmem : (key, row) ∈ rows) :
    (s.changeAll txn (s.upsertions txn rows)).Owns txn key := by
  rw [owns_changeAll H K (permitsAll_upsertions hp) (acceptsAll_upsertions hfit), mem_upsertions]
  exact .inl ⟨row, hmem⟩

end Storage

end EntityStore
