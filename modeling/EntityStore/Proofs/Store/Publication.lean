import EntityStore.Proofs.Store.Run

/-! Commits of a store. A commit shows the rows of the transaction to everybody, and nothing else
changes for the others. -/

namespace EntityStore.Store

variable {s : Store} {txn : TxnId}

theorem row?_view (s : Store) (reader : Option TxnId) (entity id : String) :
    (s.view reader).row? entity id = s.storage.visible ⟨entity, id⟩ reader :=
  Storage.row?_view s.storage s.schema reader entity id

theorem commit_isOpen (h : (s.storage.transaction? txn).isSome) :
    ∃ t storage, s.storage.commit txn = some (t, storage) := by
  obtain ⟨t, ht⟩ := Option.isSome_iff_exists.mp h
  rw [Storage.commit, Storage.close, ht]
  exact ⟨t, _, rfl⟩

/-- The commit of an open transaction succeeds. After it everybody sees the rows as the transaction
saw them, except that every other transaction goes on seeing the rows that it owns as before. No row
is owned by the committed transaction any more. -/
theorem commit_publishes (h : s.Reachable) (hopen : (s.storage.transaction? txn).isSome) :
    let s' := (s.commit txn).2
    (s.commit txn).1 = .ok () ∧
    (∀ entity id, (s'.view none).row? entity id = (s.view (some txn)).row? entity id) ∧
    (∀ other, other ≠ txn → (s.storage.transaction? other).isSome → ∀ entity id,
      (s.storage.Owns other ⟨entity, id⟩ →
        (s'.view (some other)).row? entity id = (s.view (some other)).row? entity id) ∧
      (¬ s.storage.Owns other ⟨entity, id⟩ →
        (s'.view (some other)).row? entity id = (s'.view none).row? entity id)) ∧
    ∀ key n, s'.storage.node? key = some n → n.owner ≠ some txn := by
  intro s'
  have H := h.ledger
  obtain ⟨t, storage, hc⟩ := commit_isOpen hopen
  obtain ⟨hok, hstorage⟩ := commit_of_some hc
  refine ⟨hok, fun entity id => ?_, fun other hne _ entity id => ?_, fun key n hn ho => ?_⟩
  · rw [row?_view, row?_view, hstorage]
    exact H.visible_commit hc _
  · simp only [row?_view, s', hstorage]
    exact H.visible_commit_other hc hne _
  · rw [hstorage] at hn
    exact H.not_owns_commit hc ⟨n, hn, ho⟩

/-- The commit of a transaction that has merged a patch into a committed row. -/
theorem commit_publishes_merged :
    let schema : Schema := { entities := Std.ExtTreeMap.ofList [("note", {})] compare }
    let put (txn : TxnId) (row : Row) : Call :=
      .mutate (some txn) "note" (.create (.obj (("id", .str "x") :: row))) true
    let a : TxnId := ⟨1, "a"⟩
    let b : TxnId := ⟨2, "b"⟩
    let s := ({ schema } : Store).run [.begin a, put a [("text", .str "old"), ("read", .bool true)],
      .commit a, .begin b, put b [("text", .str "new")]]
    s.Reachable ∧ (s.storage.transaction? b).isSome ∧ (s.commit b).1 = .ok () ∧
      ((s.commit b).2.view none).row? "note" "x" =
        some [("id", .str "x"), ("text", .str "new"), ("read", .bool true)] := by
  intro schema put a b s
  have h : s.Reachable := ⟨schema, {}, _, by decide, rfl⟩
  have hopen : (s.storage.transaction? b).isSome := by decide
  obtain ⟨hok, hview, -⟩ := commit_publishes h hopen
  refine ⟨h, hopen, hok, ?_⟩
  rw [hview, row?_view]
  decide

end EntityStore.Store
