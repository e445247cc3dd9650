import EntityStore.Row.Change

/-! Row changes of a transaction. A transaction may change a row that nobody else owns. Such a
change makes the transaction the owner of the node and keeps the committed row
(`Node.changed_eq_some`), so nobody else sees it (`Storage.visible_changeAll`). -/

namespace EntityStore

namespace Node

variable {n m : Node} {txn other : TxnId}

theorem isFreeFor_iff : n.isFreeFor txn = true ↔ ∀ owner, n.owner = some owner → owner = txn := by
  cases h : n.owner <;> simp [isFreeFor, h]

theorem adopt_eq (h : n.isFreeFor txn = true) : n.adopt txn = { n with owner := some txn } :=
  if_pos h

theorem visible_of_owner_ne {txn : Option TxnId} (h : n.owner ≠ txn) :
    n.visible txn = n.current := if_neg fun hn => h hn.2

@[simp] theorem visible_none : n.visible none = n.current := if_neg fun hn => by simp at hn

/-- Whoever is not the owner sees the committed row of a free node. -/
theorem visible_of_free {other : Option TxnId} (h : n.isFreeFor txn = true)
    (hne : other ≠ some txn) : n.visible other = n.current := by
  cases other with
  | none => exact visible_none
  | some other =>
    refine visible_of_owner_ne fun ho => hne ?_
    rw [isFreeFor_iff.mp h other ho]

theorem changed_eq_none {n : Option Node} {c : RowChange} (h : changed txn n c = none) :
    n = none := by
  cases n with
  | none => rfl
  | some n => cases c <;> cases h

/-- The changing transaction owns the node, which has a pending change and keeps its row. -/
theorem changed_eq_some {n : Option Node} {c : RowChange}
    (hfree : ∀ m, n = some m → m.isFreeFor txn = true) (h : changed txn n c = some m) :
    m.owner = some txn ∧ m.pending.isSome ∧ m.current = n.bind (·.current) := by
  cases n with
  | none => cases c <;> cases h; exact ⟨rfl, rfl, rfl⟩
  | some n =>
    have ha := adopt_eq (hfree n rfl)
    cases c <;> cases h <;> exact ⟨by simp [ha, setPending], rfl, by simp [ha, setPending]⟩

end Node

namespace Storage

variable {s : Storage} {txn : TxnId} {key : RowKey} {c : RowChange}

/-- A transaction may change a row if it is open and nobody else owns the row. -/
structure Permits (s : Storage) (txn : TxnId) (key : RowKey) : Prop where
  isOpen : (s.transaction? txn).isSome
  free : ∀ n, s.node? key = some n → n.isFreeFor txn = true

theorem row?_view (s : Storage) (schema : Schema) (txn : Option TxnId) (entity id : String) :
    (s.view schema txn).row? entity id = s.visible ⟨entity, id⟩ txn := by
  rw [View.row?, view, Std.ExtTreeMap.getElem?_filterMap']
  rfl

theorem view_congr {s' : Storage} {txn : Option TxnId}
    (h : ∀ key, s'.visible key txn = s.visible key txn) (schema : Schema) :
    s'.view schema txn = s.view schema txn := by
  refine congrArg (fun rows => ({ schema, rows } : View)) ?_
  refine Std.ExtTreeMap.ext_getElem? fun key => ?_
  have hkey := h key
  rw [← row?_view s' schema, ← row?_view s schema] at hkey
  exact hkey

theorem change_eq_self (h : Node.changed txn (s.node? key) c = none) :
    s.change txn key c = s := by rw [change, h]

theorem isSome_transaction?_change (other : TxnId) :
    ((s.change txn key c).transaction? other).isSome = (s.transaction? other).isSome := by
  rw [transaction?_change]
  split
  · rename_i h
    rw [h.1, Option.isSome_map]
  · rfl

/-- After a change its row is owned by the transaction, so the transaction may go on. -/
theorem Permits.change (h : s.Permits txn key) {k : RowKey} (hk : s.Permits txn k) :
    (s.change txn key c).Permits txn k := by
  refine ⟨by rw [isSome_transaction?_change]; exact h.isOpen, fun n hn => ?_⟩
  rw [node?_change] at hn
  split at hn
  · obtain ⟨hown, -, -⟩ := Node.changed_eq_some h.free hn
    rw [Node.isFreeFor, hown]
    exact decide_eq_true rfl
  · exact hk.free n hn

theorem visible_change {other : Option TxnId} (h : s.Permits txn key) (hne : other ≠ some txn)
    (k : RowKey) : (s.change txn key c).visible k other = s.visible k other := by
  rw [visible, visible, node?_change]
  split
  · rename_i hk
    subst hk
    cases hm : Node.changed txn (s.node? k) c with
    | none => rw [Node.changed_eq_none hm]
    | some m =>
      obtain ⟨hown, -, hcur⟩ := Node.changed_eq_some h.free hm
      have hm : m.visible other = m.current :=
        Node.visible_of_owner_ne fun ho => hne (ho.symm.trans hown)
      rw [Option.bind_some, hm, hcur]
      cases hn : s.node? k with
      | none => rfl
      | some n => exact (Node.visible_of_free (h.free n hn) hne).symm
  · rfl

/-! ## Several changes -/

/-- Makes row changes one after the other. -/
def changeAll (s : Storage) (txn : TxnId) (changes : List (RowKey × RowChange)) : Storage :=
  changes.foldl (fun s entry => s.change txn entry.1 entry.2) s

@[simp] theorem changeAll_nil : s.changeAll txn [] = s := rfl

@[simp] theorem changeAll_cons (changes : List (RowKey × RowChange)) :
    s.changeAll txn ((key, c) :: changes) = (s.change txn key c).changeAll txn changes := rfl

theorem changeAll_append (first last : List (RowKey × RowChange)) :
    s.changeAll txn (first ++ last) = (s.changeAll txn first).changeAll txn last :=
  List.foldl_append

/-- Every one of the changes has a property in the storage in which it is made. -/
def Along (P : Storage → RowKey → RowChange → Prop) (txn : TxnId) :
    Storage → List (RowKey × RowChange) → Prop
  | _, [] => True
  | s, (key, c) :: changes => P s key c ∧ Along P txn (s.change txn key c) changes

theorem along_append {P : Storage → RowKey → RowChange → Prop}
    {first last : List (RowKey × RowChange)} : Along P txn s (first ++ last) ↔
      Along P txn s first ∧ Along P txn (s.changeAll txn first) last := by
  induction first generalizing s with
  | nil => simp [Along]
  | cons entry rest ih =>
    obtain ⟨key, c⟩ := entry
    simp only [List.cons_append, Along, changeAll_cons, ih, and_assoc]

/-- The changes are permitted to the transaction. -/
abbrev PermitsAll (s : Storage) (txn : TxnId) (changes : List (RowKey × RowChange)) : Prop :=
  Along (fun s key _ => s.Permits txn key) txn s changes

theorem isSome_transaction?_changeAll (other : TxnId) (changes : List (RowKey × RowChange)) :
    ((s.changeAll txn changes).transaction? other).isSome = (s.transaction? other).isSome := by
  induction changes generalizing s with
  | nil => rfl
  | cons entry rest ih => rw [changeAll_cons, ih, isSome_transaction?_change]

/-- Row changes leave all other nodes as they are. -/
theorem node?_changeAll_of_not_mem {changes : List (RowKey × RowChange)} {key : RowKey}
    (h : ∀ c, (key, c) ∉ changes) : (s.changeAll txn changes).node? key = s.node? key := by
  induction changes generalizing s with
  | nil => rfl
  | cons entry rest ih =>
    obtain ⟨k, c⟩ := entry
    have hne : key ≠ k := fun he => h c (he ▸ List.mem_cons_self)
    refine (ih fun c hc => h c (List.mem_cons_of_mem _ hc)).trans ?_
    rw [node?_change, if_neg hne]

/-- Nobody else sees what a transaction changes. -/
theorem visible_changeAll {changes : List (RowKey × RowChange)} {other : Option TxnId}
    (h : s.PermitsAll txn changes) (hne : other ≠ some txn) (k : RowKey) :
    (s.changeAll txn changes).visible k other = s.visible k other := by
  induction changes generalizing s with
  | nil => rfl
  | cons entry rest ih => rw [changeAll_cons, ih h.2, visible_change h.1 hne]

end Storage

end EntityStore
