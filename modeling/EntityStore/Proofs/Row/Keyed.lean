import EntityStore.Proofs.Json.Merge
import EntityStore.Proofs.Row.Publication

/-! Rows under their keys. Every stored row names each attribute once and has the id of its key
(`Storage.Keyed`). The row changes that keep it so are the accepted ones (`Storage.Accepts`): a put
row has the id of its key and is new, and only a row that is there is patched or deleted. -/

namespace EntityStore

namespace RowKey

/-- The row names each attribute once, and its id is that of the key. -/
structure Fits (key : RowKey) (row : Row) : Prop where
  nodup : (Fields.names row).Nodup
  id : Fields.get? row "id" = some (.str key.id)

/-- The patch names each attribute once, and any id that it has is that of the key. -/
structure Keeps (key : RowKey) (patch : Row) : Prop where
  nodup : (Fields.names patch).Nodup
  id : ∀ {id}, Fields.get? patch "id" = some id → id = .str key.id

variable {key : RowKey} {row patch : Row}

theorem Fits.keeps (h : key.Fits row) : key.Keeps row := by
  refine ⟨h.nodup, fun hid => ?_⟩
  rw [h.id] at hid
  exact (Option.some.inj hid).symm

theorem Fits.merge (h : key.Fits row) (hp : key.Keeps patch) :
    key.Fits (Fields.merge row patch) := by
  refine ⟨Fields.nodup_merge h.nodup patch, ?_⟩
  rw [Fields.get?_merge hp.nodup, h.id]
  cases hid : Fields.get? patch "id" with
  | none => rfl
  | some id => rw [hp.id hid, Option.some_or]

theorem Keeps.merge {first last : Row} (h : key.Keeps first) (hl : key.Keeps last) :
    key.Keeps (Fields.merge first last) := by
  refine ⟨Fields.nodup_merge h.nodup last, fun {id} hid => ?_⟩
  rw [Fields.get?_merge hl.nodup] at hid
  rcases Option.or_eq_some_iff.mp hid with hid | ⟨-, hid⟩
  · exact hl.id hid
  · exact h.id hid

end RowKey

namespace Node

/-- All that the node has of a row fits the key: the committed row, the one that replaces it, and
the patch, which is the whole row if the row is not committed. -/
structure Keyed (n : Node) (key : RowKey) : Prop where
  current : ∀ {row}, n.current = some row → key.Fits row
  replaced : ∀ {row}, n.pending = some (.replace row) → key.Fits row
  written : ∀ {patch}, n.pending = some (.write patch) → key.Keeps patch
  created : ∀ {patch}, n.pending = some (.write patch) → n.current = none → key.Fits patch

namespace Keyed

variable {n : Node} {key : RowKey}

theorem fits_patched (H : n.Keyed key) {patch : Row} (h : n.pending = some (.write patch)) :
    key.Fits (n.patched patch) := by
  unfold patched
  cases hc : n.current with
  | some row => exact (H.current hc).merge (H.written h)
  | none =>
    have hfit := H.created h hc
    rw [Option.getD_none, Fields.merge_empty hfit.nodup]
    exact hfit

/-- Whoever looks sees a row that fits the key. -/
theorem fits_visible (H : n.Keyed key) {txn : Option TxnId} {row : Row}
    (h : n.visible txn = some row) : key.Fits row := by
  unfold visible at h
  split at h
  · cases hp : n.pending with
    | none => exact H.current (by rw [hp] at h; exact h)
    | some change =>
      rw [hp] at h
      cases change with
      | remove => cases h
      | write patch => cases h; exact H.fits_patched hp
      | replace row => cases h; exact H.replaced hp
  · exact H.current h

end Keyed

/-- A node without a pending change is keyed if its committed row fits the key. -/
theorem keyed_of_clean {n : Node} {key : RowKey} (hp : n.pending = none)
    (hc : ∀ {row}, n.current = some row → key.Fits row) : n.Keyed key := by
  refine ⟨hc, fun h => ?_, fun h => ?_, fun h => ?_⟩ <;> rw [hp] at h <;> cases h

/-- A keyed node stays keyed when it is given away. -/
theorem Keyed.adopt {n : Node} {key : RowKey} (K : n.Keyed key) (txn : TxnId) :
    (n.adopt txn).Keyed key := by
  unfold Node.adopt
  split
  · exact ⟨K.current, K.replaced, K.written, K.created⟩
  · exact K

theorem keyed_created {key : RowKey} {row : Row} (h : key.Fits row) (txn : TxnId) :
    (created row txn).Keyed key := by
  refine ⟨fun he => ?_, fun he => ?_, fun he => ?_, fun he _ => ?_⟩
  · cases he
  · cases he
  · cases he
    exact h.keeps
  · cases he
    exact h

theorem Keyed.replace {n : Node} {key : RowKey} {row : Row} (K : n.Keyed key) (h : key.Fits row) :
    (n.setPending (.replace row)).Keyed key := by
  refine ⟨K.current, fun he => ?_, fun he => ?_, fun he => ?_⟩ <;> cases he
  exact h

theorem Keyed.remove {n : Node} {key : RowKey} (K : n.Keyed key) :
    (n.setPending .remove).Keyed key := by
  refine ⟨K.current, fun he => ?_, fun he => ?_, fun he => ?_⟩ <;> cases he

theorem Keyed.write {n : Node} {key : RowKey} {patch : Row} (K : n.Keyed key)
    (h : key.Keeps patch) (hrow : n.current = none → key.Fits patch) :
    (n.setPending (.write patch)).Keyed key := by
  refine ⟨K.current, fun he => ?_, fun he => ?_, fun he hc => ?_⟩ <;> cases he
  · exact h
  · exact hrow hc

/-! ## What the pending change comes to -/

/-- The row that the pending change comes to, if there is one. -/
def outcome (n : Node) : Option Row :=
  match n.pending with
  | some .remove => none
  | some (.write patch) => some (n.patched patch)
  | some (.replace row) => some row
  | none => n.current

variable {n : Node} {txn : TxnId} {key : RowKey}

theorem visible_of_owner (h : n.owner = some txn) : n.visible (some txn) = n.outcome :=
  if_pos ⟨rfl, h⟩

/-- A transaction sees the outcome of a node that nobody else owns. -/
theorem visible_eq_outcome (hfree : n.isFreeFor txn = true)
    (hp : n.owner.isSome ↔ n.pending.isSome) : n.visible (some txn) = n.outcome := by
  cases ho : n.owner with
  | some owner =>
    rw [isFreeFor_iff.mp hfree owner ho] at ho
    exact visible_of_owner ho
  | none =>
    have hnone : n.pending = none := by
      cases h : n.pending with
      | none => rfl
      | some change => simp [ho, h] at hp
    rw [visible_of_owner_ne (by rw [ho]; nofun), outcome, hnone]

/-- The row that a commit of the node would leave, which the next patch goes over. A pending
removal does not count. -/
def base (n : Node) : Row := n.commit.current.getD []

theorem base_of_outcome {row : Row} (h : n.outcome = some row) : n.base = row := by
  unfold outcome at h
  unfold base commit
  cases hp : n.pending with
  | none =>
    rw [hp] at h
    exact (congrArg (·.getD []) h : n.current.getD [] = row)
  | some change =>
    rw [hp] at h
    cases change with
    | remove => cases h
    | write patch | replace replacing => exact Option.some.inj h

/-- A patch is merged into the row that there is, whatever has led to that row. -/
theorem outcome_amended (patch : Row)
    (h : ∀ earlier, n.pending = some (.write earlier) → (Fields.names earlier).Nodup) :
    (n.setPending (n.amended patch)).outcome = some (Fields.merge n.base patch) := by
  unfold amended base commit
  cases hp : n.pending with
  | none => rfl
  | some change =>
    cases change with
    | remove | replace replacing => rfl
    | write earlier => exact congrArg some (Fields.merge_assoc (h earlier hp) ..).symm

theorem keyed_amended {patch row : Row} (K : n.Keyed key) (hpatch : key.Keeps patch)
    (h : n.outcome = some row) : (n.setPending (n.amended patch)).Keyed key := by
  unfold outcome at h
  unfold amended
  cases hp : n.pending with
  | none =>
    rw [hp] at h
    exact K.write hpatch fun hc => by cases h.symm.trans hc
  | some change =>
    rw [hp] at h
    cases change with
    | remove => cases h
    | write earlier =>
      exact K.write ((K.written hp).merge hpatch) fun hc => (K.created hp hc).merge hpatch
    | replace replacing => exact K.replace ((K.replaced hp).merge hpatch)

end Node

namespace RowChange

/-- The row that a change makes of a row. -/
def apply : RowChange → Option Row → Option Row
  | put row, _ => some row
  | merge patch, old => old.map (Fields.merge · patch)
  | delete, _ => none

/-- A row is put where there is none; a row that is patched or deleted is there. -/
def Meets : RowChange → Option Row → Prop
  | put _, old => old = none
  | merge _, old | delete, old => old.isSome

/-- What the change brings names each attribute once and goes with the key. -/
def Fits (key : RowKey) : RowChange → Prop
  | put row => key.Fits row
  | merge patch => key.Keeps patch
  | delete => True

end RowChange

namespace Storage

/-- Every stored row fits its key. -/
def Keyed (s : Storage) : Prop := ∀ key n, s.node? key = some n → n.Keyed key

/-- Whoever looks sees rows that have the id under which they are stored. -/
theorem Keyed.get?_id {s : Storage} (K : s.Keyed) (schema : Schema) {reader : Option TxnId}
    {entity id : String} {row : Row} (h : (s.view schema reader).row? entity id = some row) :
    Fields.get? row "id" = some (.str id) := by
  rw [row?_view] at h
  obtain ⟨n, hn, hv⟩ := Option.bind_eq_some_iff.mp h
  exact ((K _ n hn).fits_visible hv).id

/-- The change goes with the key and with the row that the transaction sees. -/
structure Accepts (s : Storage) (txn : TxnId) (key : RowKey) (c : RowChange) : Prop where
  fits : c.Fits key
  meets : c.Meets (s.visible key (some txn))

variable {s s' : Storage} {txn : TxnId} {key : RowKey} {c : RowChange}

/-- What an accepted change makes of the node: the transaction owns it, it is keyed, and its outcome
is what the change makes of the row that the transaction saw. -/
theorem changed_of_accepts (H : s.Ledger) (K : s.Keyed) (hp : s.Permits txn key)
    (ha : s.Accepts txn key c) : ∃ m, Node.changed txn (s.node? key) c = some m ∧
      m.owner = some txn ∧ m.Keyed key ∧ m.outcome = c.apply (s.visible key (some txn)) := by
  cases hn : s.node? key with
  | none =>
    cases c with
    | put row =>
      have hfit : key.Fits row := ha.fits
      have hout : (Node.created row txn).outcome = some row :=
        congrArg some (Fields.merge_empty hfit.nodup)
      exact ⟨_, rfl, rfl, Node.keyed_created hfit txn, hout⟩
    | merge patch | delete =>
      have hv := ha.meets
      rw [visible, hn] at hv
      cases hv
  | some n =>
    have hadopt := Node.adopt_eq (hp.free n hn)
    have hown : (n.adopt txn).owner = some txn := by rw [hadopt]
    have hkeyed := (K key n hn).adopt txn
    cases c with
    | put row => exact ⟨_, rfl, hown, hkeyed.replace ha.fits, rfl⟩
    | delete => exact ⟨_, rfl, hown, hkeyed.remove, rfl⟩
    | merge patch =>
      obtain ⟨row, hrow⟩ := Option.isSome_iff_exists.mp ha.meets
      have hamended : n.amended patch = (n.adopt txn).amended patch := by rw [hadopt]; rfl
      have hout : (n.adopt txn).outcome = some row := by
        have hsee := Node.visible_eq_outcome (hp.free n hn) (H.owned_iff_pending hn)
        rw [visible, hn, Option.bind_some, hsee] at hrow
        rw [hadopt]
        exact hrow
      rw [hrow]
      refine ⟨_, rfl, hown, ?_, ?_⟩
      · rw [hamended]
        exact Node.keyed_amended hkeyed ha.fits hout
      · rw [hamended, Node.outcome_amended patch fun _ hp => (hkeyed.written hp).nodup,
          Node.base_of_outcome hout]
        rfl

end Storage

end EntityStore
