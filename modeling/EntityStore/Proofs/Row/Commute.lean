import EntityStore.Proofs.Row.Overlay
import EntityStore.Proofs.Row.Pending

/-! Row changes of different transactions commute, because no two transactions may change the same
row: what one of them has changed is locked for the other (`Storage.changeAll_comm`). -/

namespace EntityStore.Storage

variable {s : Storage} {a b : TxnId} {key key' : RowKey} {c c' : RowChange}
  {first last changes : List (RowKey × RowChange)}

theorem change_comm (hne : a ≠ b) (hkey : key ≠ key') :
    (s.change a key c).change b key' c' = (s.change b key' c').change a key c := by
  have hfirst : (s.change b key' c').node? key = s.node? key := by
    rw [node?_change, if_neg hkey]
  have hlast : (s.change a key c).node? key' = s.node? key' := by
    rw [node?_change, if_neg hkey.symm]
  refine ext_lookup (fun k => ?_) fun txn => ?_
  · rw [node?_change _ b, hlast, node?_change _ a, node?_change _ a, hfirst, node?_change _ b]
    by_cases hk : k = key
    · subst hk
      rw [if_neg hkey, if_pos rfl, if_pos rfl]
    · rw [if_neg hk, if_neg hk]
  · simp only [transaction?_change, hfirst, hlast]
    by_cases ha : txn = a
    · subst ha
      simp [hne]
    · by_cases hb : txn = b
      · subst hb
        simp [ha]
      · simp [ha, hb]

theorem change_changeAll_comm (hne : a ≠ b) (hkey : ∀ entry ∈ changes, key ≠ entry.1) :
    (s.change a key c).changeAll b changes = (s.changeAll b changes).change a key c := by
  induction changes generalizing s with
  | nil => rfl
  | cons entry rest ih =>
    obtain ⟨k, d⟩ := entry
    rw [changeAll_cons, changeAll_cons, change_comm hne (hkey _ List.mem_cons_self)]
    exact ih fun e he => hkey e (List.mem_cons_of_mem _ he)

theorem changeAll_comm (hne : a ≠ b)
    (hkeys : ∀ entry ∈ first, ∀ entry' ∈ last, entry.1 ≠ entry'.1) :
    (s.changeAll a first).changeAll b last = (s.changeAll b last).changeAll a first := by
  induction first generalizing s with
  | nil => rfl
  | cons entry rest ih =>
    obtain ⟨k, d⟩ := entry
    rw [changeAll_cons, changeAll_cons, ih fun e he => hkeys e (List.mem_cons_of_mem _ he),
      change_changeAll_comm hne (hkeys _ List.mem_cons_self)]

/-- A transaction changes no row that another one owns. -/
theorem not_owns_of_permitsAll (hne : a ≠ b) (hp : s.PermitsAll b changes)
    (hmem : (key, c) ∈ changes) : ¬ s.Owns a key := by
  induction changes generalizing s with
  | nil => cases hmem
  | cons entry rest ih =>
    obtain ⟨k, d⟩ := entry
    intro hown
    rcases List.mem_cons.mp hmem with he | hmem
    · cases he
      obtain ⟨n, hn, ho⟩ := hown
      exact hne (Node.isFreeFor_iff.mp (hp.1.free n hn) a ho)
    · exact ih hp.2 hmem (hown.change_other hne hp.1)

theorem mem_or_owns_of_owns_changeAll (h : (s.changeAll a changes).Owns b key) :
    (∃ c, (key, c) ∈ changes) ∨ s.Owns b key := by
  induction changes generalizing s with
  | nil => exact .inr h
  | cons entry rest ih =>
    obtain ⟨k, d⟩ := entry
    rcases ih h with ⟨c, hmem⟩ | ⟨n, hn, ho⟩
    · exact .inl ⟨c, List.mem_cons_of_mem _ hmem⟩
    · rw [node?_change] at hn
      split at hn
      · rename_i hk
        subst hk
        exact .inl ⟨d, List.mem_cons_self⟩
      · exact .inr ⟨n, hn, ho⟩

end EntityStore.Storage
