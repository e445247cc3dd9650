import EntityStore.Proofs.Query.Ids
import EntityStore.Proofs.Row.Replay
import EntityStore.Proofs.Store.Command

/-! What commands make of a store. A mutation of a transaction makes row changes that the
transaction is permitted to make and that the operation asks for, and beside them it only counts and
logs (`Progress.Extends`). The changes are accepted if the rows and patches that the operation gives
name each attribute once. This holds of failing mutations too. -/

namespace EntityStore

/-- What the change brings names each attribute once. -/
def RowChange.Unique : RowChange → Prop
  | put row => (Fields.names row).Nodup
  | merge patch => (Fields.names patch).Nodup
  | delete => True

namespace Storage

/-- The transaction may make the changes, which are asked for. In a keyed storage they are accepted,
if what they bring names each attribute once. -/
structure Takes (s : Storage) (txn : TxnId) (asked : RowKey → RowChange → Prop)
    (changes : List (RowKey × RowChange)) : Prop where
  permits : s.PermitsAll txn changes
  asked : ∀ {key c}, (key, c) ∈ changes → asked key c
  accepts : s.Ledger → s.Keyed → (∀ {key c}, (key, c) ∈ changes → c.Unique) →
    s.AcceptsAll txn changes

variable {s : Storage} {txn : TxnId} {asked : RowKey → RowChange → Prop}
  {changes : List (RowKey × RowChange)} {c : RowChange} {keys : List RowKey}

theorem acceptsAll_map (H : s.Ledger) (K : s.Keyed) (hp : s.PermitsAll txn (keys.map (·, c)))
    (hd : keys.Nodup) (ha : ∀ key ∈ keys, s.Accepts txn key c) :
    s.AcceptsAll txn (keys.map (·, c)) := by
  induction keys generalizing s with
  | nil => trivial
  | cons key keys ih =>
    obtain ⟨hkey, hd⟩ := List.nodup_cons.mp hd
    have hhead := ha key List.mem_cons_self
    refine ⟨hhead, ih (H.change hp.1) (K.change H hp.1 hhead) hp.2 hd fun k hk => ?_⟩
    have hk' := ha k (List.mem_cons_of_mem _ hk)
    have hne : k ≠ key := fun he => hkey (he ▸ hk)
    refine ⟨hk'.fits, ?_⟩
    rw [visible_change_self H K hp.1 hhead, if_neg hne]
    exact hk'.meets

theorem permitsAll_map (h : ∀ key ∈ keys, s.Permits txn key) :
    s.PermitsAll txn (keys.map (·, c)) := by
  induction keys generalizing s with
  | nil => trivial
  | cons key keys ih =>
    have hhead := h key List.mem_cons_self
    exact ⟨hhead, ih fun k hk => hhead.change (h k (List.mem_cons_of_mem _ hk))⟩

namespace Takes

theorem nil : s.Takes txn asked [] := ⟨trivial, nofun, fun _ _ _ => trivial⟩

theorem append {first last : List (RowKey × RowChange)} (h : s.Takes txn asked first)
    (h' : (s.changeAll txn first).Takes txn asked last) : s.Takes txn asked (first ++ last) where
  permits := along_append.mpr ⟨h.permits, h'.permits⟩
  asked hmem := (List.mem_append.mp hmem).elim h.asked h'.asked
  accepts H K hu := by
    have hfirst := h.accepts H K fun hmem => hu (List.mem_append_left _ hmem)
    refine along_append.mpr ⟨hfirst, h'.accepts (H.changeAll h.permits) ?_ ?_⟩
    · exact K.changeAll H h.permits hfirst
    · exact fun hmem => hu (List.mem_append_right _ hmem)

theorem mono {asked' : RowKey → RowChange → Prop} (h : s.Takes txn asked changes)
    (hle : ∀ {key c}, asked key c → asked' key c) : s.Takes txn asked' changes :=
  ⟨h.permits, fun hmem => hle (h.asked hmem), h.accepts⟩

/-- The same change in several rows that nobody else owns. -/
theorem map (hopen : (s.transaction? txn).isSome) (hfree : s.conflict? txn keys = none)
    (hasked : ∀ key ∈ keys, asked key c)
    (ha : s.Ledger → s.Keyed → c.Unique → keys.Nodup ∧ ∀ key ∈ keys, s.Accepts txn key c) :
    s.Takes txn asked (keys.map (·, c)) := by
  have hp : s.PermitsAll txn (keys.map (·, c)) :=
    permitsAll_map fun key hkey => ⟨hopen, conflict?_eq_none_iff.mp hfree key hkey⟩
  refine ⟨hp, fun {key c'} hmem => ?_, fun H K hu => ?_⟩
  · obtain ⟨k, hk, he⟩ := List.mem_map.mp hmem
    cases he
    exact hasked key hk
  · cases hkeys : keys with
    | nil => trivial
    | cons key rest =>
      have hmem : (key, c) ∈ keys.map (·, c) := by
        rw [hkeys]
        exact List.mem_cons_self
      have hc : c.Unique := hu hmem
      obtain ⟨hd, hacc⟩ := ha H K hc
      exact hkeys ▸ acceptsAll_map H K hp hd hacc

theorem single {key : RowKey} (hopen : (s.transaction? txn).isSome)
    (hfree : s.conflict? txn [key] = none) (hasked : asked key c)
    (ha : c.Unique → s.Accepts txn key c) : s.Takes txn asked [(key, c)] := by
  refine map hopen hfree (fun k hk => ?_) fun _ _ hu => ⟨by simp, fun k hk => ?_⟩
  · rw [List.mem_singleton.mp hk]
    exact hasked
  · rw [List.mem_singleton.mp hk]
    exact ha hu

end Takes

end Storage

namespace Progress

/-- The progress with other counters and another journal. -/
def withWork (p : Progress) (work : Work) : Progress := { p with store := { p.store with work } }

/-- The progress `p'` comes from `p` by row changes that the transaction may make and that are asked
for; beside them only work was done. -/
def Extends (p : Progress) (txn : TxnId) (asked : RowKey → RowChange → Prop) (p' : Progress) :
    Prop :=
  ∃ changes work, p.store.storage.Takes txn asked changes ∧
    p' = (p.change txn changes).withWork work

variable {p p' p'' : Progress} {txn : TxnId} {asked : RowKey → RowChange → Prop}

namespace Extends

theorem withWork (p : Progress) (work : Work) : p.Extends txn asked (p.withWork work) :=
  ⟨[], work, .nil, by rw [change_nil]⟩

theorem refl (p : Progress) : p.Extends txn asked p := withWork p p.store.work

theorem report (p : Progress) (event : Log.Event) (fields : List (String × String)) :
    p.Extends txn asked (p.report event fields) := withWork p _

theorem change {changes : List (RowKey × RowChange)} (h : p.store.storage.Takes txn asked changes) :
    p.Extends txn asked (p.change txn changes) := ⟨changes, p.store.work, h, rfl⟩

theorem trans (h : p.Extends txn asked p') (h' : p'.Extends txn asked p'') :
    p.Extends txn asked p'' := by
  obtain ⟨first, w, hfirst, rfl⟩ := h
  obtain ⟨last, w', hlast, rfl⟩ := h'
  exact ⟨first ++ last, w', hfirst.append hlast, by rw [← change_change]; rfl⟩

theorem mono {asked' : RowKey → RowChange → Prop} (h : p.Extends txn asked p')
    (hle : ∀ {key c}, asked key c → asked' key c) : p.Extends txn asked' p' := by
  obtain ⟨changes, w, htakes, rfl⟩ := h
  exact ⟨changes, w, htakes.mono hle, rfl⟩

theorem isSome_transaction? (h : p.Extends txn asked p') (other : TxnId) :
    (p'.store.storage.transaction? other).isSome = (p.store.storage.transaction? other).isSome := by
  obtain ⟨changes, w, -, rfl⟩ := h
  exact Storage.isSome_transaction?_changeAll other changes

/-- Rows that are changed alike, unless somebody else owns one of them. -/
theorem claim {keys : List RowKey} {c : RowChange}
    (hopen : (p.store.storage.transaction? txn).isSome) (hasked : ∀ key ∈ keys, asked key c)
    (ha : p.store.storage.Ledger → p.store.storage.Keyed → c.Unique →
      keys.Nodup ∧ ∀ key ∈ keys, p.store.storage.Accepts txn key c) :
    p.Extends txn asked (p.claim txn keys c).2 := by
  unfold Progress.claim
  cases hc : p.store.storage.conflict? txn keys with
  | none => exact change (.map hopen hc hasked ha)
  | some conflict => exact report p _ _

end Extends

end Progress

end EntityStore
