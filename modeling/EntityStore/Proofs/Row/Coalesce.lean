import EntityStore.Proofs.Row.Keyed

/-! Coalesced patches. However often the owner of a node patches the row, there is one pending
change. It comes to what the patches make of the row one after the other: for the owner right away,
and for everybody once it is committed (`Node.commit_coalesced`). -/

namespace EntityStore

namespace Row

/-- The row with the attributes of a patch; there need not be a row before. -/
def merged (base : Option Row) (patch : Row) : Row := Fields.merge (base.getD []) patch

/-- The row with the attributes of the patches, one patch after the other. -/
def mergedAll (base : Option Row) (patches : List Row) : Option Row :=
  patches.foldl (fun row patch => some (merged row patch)) base

variable {patch : Row} {patches : List Row}

theorem merged_assoc (h : (Fields.names patch).Nodup) (base : Option Row) (last : Row) :
    merged (some (merged base patch)) last = merged base (merged (some patch) last) :=
  Fields.merge_assoc h _ last

theorem mergedAll_some (row : Row) (patches : List Row) :
    mergedAll (some row) patches = some (Fields.mergeAll row patches) := by
  induction patches generalizing row with
  | nil => rfl
  | cons patch patches ih => exact ih _

theorem mergedAll_cons (base : Option Row) (patch : Row) (patches : List Row) :
    mergedAll base (patch :: patches) = some (Fields.mergeAll (base.getD []) (patch :: patches)) :=
  mergedAll_some _ patches

theorem mergedAll_mergedAll (h : ∀ patch ∈ patches, (Fields.names patch).Nodup)
    (base : Option Row) : mergedAll (mergedAll base patches) patches = mergedAll base patches := by
  cases patches with
  | nil => rfl
  | cons patch patches => rw [mergedAll_cons base, mergedAll_some, Fields.mergeAll_mergeAll h]

end Row

namespace Node

/-- The node after a transaction has patched the row, with one patch after the other. -/
def patchedBy (n : Node) (txn : TxnId) (patches : List Row) : Option Node :=
  patches.foldl (fun n patch => changed txn n (.merge patch)) (some n)

/-- A pending patch names each attribute once. -/
def Written (n : Node) : Prop :=
  ∀ patch, n.pending = some (.write patch) → (Fields.names patch).Nodup

/-- The transaction has patched the row of `n`, which gave the node `m`: all that it did is one
pending change that comes to `row`, and what is committed is as it was. -/
structure Coalesced (n : Node) (txn : TxnId) (row : Row) (m : Node) : Prop where
  owner : m.owner = some txn
  current : m.current = n.current
  written : m.Written
  outcome : m.outcome = some row

variable {n m : Node} {txn : TxnId} {patch row : Row} {patches : List Row}

theorem Written.amended (h : n.Written) (hpatch : (Fields.names patch).Nodup) :
    (n.setPending (n.amended patch)).Written := by
  intro later hlater
  unfold Node.amended at hlater
  cases hp : n.pending with
  | none =>
    rw [hp] at hlater
    cases hlater
    exact hpatch
  | some change =>
    rw [hp] at hlater
    cases change with
    | remove =>
      cases hlater
      exact hpatch
    | write earlier =>
      cases hlater
      exact Fields.nodup_merge (h earlier hp) patch
    | replace replacing => cases hlater

/-- A transaction may patch a node that nobody else owns. -/
theorem coalesced_of_free (hfree : n.isFreeFor txn = true) (h : n.Written)
    (hpatch : (Fields.names patch).Nodup) :
    Coalesced n txn (Fields.merge n.base patch) ((n.adopt txn).setPending (n.amended patch)) := by
  rw [adopt_eq hfree]
  exact ⟨rfl, rfl, h.amended hpatch, outcome_amended patch h⟩

namespace Coalesced

/-- The pending change takes in a further patch. -/
theorem amended (C : Coalesced n txn row m) (hpatch : (Fields.names patch).Nodup) :
    Coalesced n txn (Fields.merge row patch) ((m.adopt txn).setPending (m.amended patch)) := by
  have hfree : m.isFreeFor txn = true := isFreeFor_iff.mpr fun owner ho =>
    Option.some.inj (ho.symm.trans C.owner)
  have D := coalesced_of_free hfree C.written hpatch
  rw [base_of_outcome C.outcome] at D
  exact ⟨D.owner, D.current.trans C.current, D.written, D.outcome⟩

theorem patchedBy (C : Coalesced n txn row m)
    (hpatches : ∀ patch ∈ patches, (Fields.names patch).Nodup) :
    ∃ m', m.patchedBy txn patches = some m' ∧
      Coalesced n txn (Fields.mergeAll row patches) m' := by
  induction patches generalizing row m with
  | nil => exact ⟨m, rfl, C⟩
  | cons patch patches ih =>
    obtain ⟨hpatch, hpatches⟩ := List.forall_mem_cons.mp hpatches
    exact ih (C.amended hpatch) hpatches

/-- The owner sees the row that the pending change comes to. -/
theorem visible (C : Coalesced n txn row m) : m.visible (some txn) = some row :=
  (visible_of_owner C.owner).trans C.outcome

/-- A commit leaves the row that the pending change comes to. -/
theorem closed_commit (C : Coalesced n txn row m) :
    Storage.closed survivesCommit commit m = some (.committed row) := by
  have hclosed := current_closed_commit C.owner
  rw [C.visible] at hclosed
  obtain ⟨m', hm', hrow⟩ := Option.bind_eq_some_iff.mp hclosed
  obtain ⟨-, he⟩ := Option.ite_none_right_eq_some.mp hm'
  cases he
  rw [hm', committed, ← hrow]
  rfl

end Coalesced

/-- A patch may be merged into another one before both go over a row, and patches that all go over
the row once more change nothing. So a commit makes of a node, however many patches its owner has
given it, what the patches make one by one of the row that a commit would have left before them. The
owner sees that row already, while what is committed stays as it was. -/
theorem commit_coalesced (hfree : n.isFreeFor txn = true) (hwritten : n.Written)
    (hpatch : (Fields.names patch).Nodup)
    (hpatches : ∀ patch ∈ patches, (Fields.names patch).Nodup) :
    (∀ base last, Row.merged (some (Row.merged base patch)) last =
      Row.merged base (Row.merged (some patch) last)) ∧
    (∀ base, Row.mergedAll (Row.mergedAll base patches) patches = Row.mergedAll base patches) ∧
    ∃ m, n.patchedBy txn patches = some m ∧ m.current = n.current ∧
      m.commit.current = Row.mergedAll n.commit.current patches ∧
      (patches ≠ [] → m.owner = some txn ∧ m.visible (some txn) = m.commit.current ∧
        ∃ row, m.commit.current = some row ∧
          Storage.closed survivesCommit commit m = some (.committed row)) := by
  refine ⟨Row.merged_assoc hpatch, Row.mergedAll_mergedAll hpatches, ?_⟩
  cases patches with
  | nil => exact ⟨n, rfl, rfl, rfl, fun h => absurd rfl h⟩
  | cons first patches =>
    obtain ⟨hfirst, hpatches⟩ := List.forall_mem_cons.mp hpatches
    obtain ⟨m, hm, C⟩ := (coalesced_of_free hfree hwritten hfirst).patchedBy hpatches
    have hclosed := C.closed_commit
    obtain ⟨-, hcommit⟩ := Option.ite_none_right_eq_some.mp hclosed
    have hrow : m.commit.current = some (Fields.mergeAll n.base (first :: patches)) :=
      congrArg current (Option.some.inj hcommit)
    refine ⟨m, hm, C.current, ?_, fun _ => ⟨C.owner, ?_, _, hrow, hclosed⟩⟩
    · rw [hrow, Row.mergedAll_cons]
      rfl
    · rw [hrow, C.visible]
      rfl

/-- A committed task is renamed, done and renamed again by one transaction, which leaves the order
of its attributes as it is and has the new one at their end. -/
theorem commit_coalesced_task :
    let txn : TxnId := ⟨1, "a"⟩
    let n : Node := .committed [("id", .str "t"), ("title", .str "old"), ("note", .null)]
    let patches : List Row := [[("title", .str "first")], [("done", .bool true)],
      [("title", .str "last"), ("note", .str "x")]]
    let row : Row :=
      [("id", .str "t"), ("title", .str "last"), ("note", .str "x"), ("done", .bool true)]
    n.isFreeFor txn = true ∧ n.Written ∧ (∀ patch ∈ patches, (Fields.names patch).Nodup) ∧
      ∃ m, n.patchedBy txn patches = some m ∧ m.current = n.current ∧
        m.visible (some txn) = some row ∧
        Storage.closed survivesCommit commit m = some (.committed row) := by
  intro txn n patches row
  have hfree : n.isFreeFor txn = true := rfl
  have hwritten : n.Written := nofun
  have hpatches : ∀ patch ∈ patches, (Fields.names patch).Nodup := by decide
  obtain ⟨-, -, m, hm, hcurrent, hcommit, hchanged⟩ :=
    commit_coalesced hfree hwritten (hpatches _ List.mem_cons_self) hpatches
  obtain ⟨-, hvisible, committed, hcommitted, hclosed⟩ := hchanged (List.cons_ne_nil _ _)
  have hrow : Row.mergedAll n.commit.current patches = some row := by decide
  obtain rfl : committed = row := Option.some.inj (hcommitted.symm.trans (hcommit.trans hrow))
  exact ⟨hfree, hwritten, hpatches, m, hm, hcurrent, hvisible.trans hcommitted, hclosed⟩

end Node

end EntityStore
