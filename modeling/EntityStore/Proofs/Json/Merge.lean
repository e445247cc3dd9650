import EntityStore.Json.Fields

/-! Merging of fields. Where no name is repeated, merging is associative (`merge_assoc`), nothing is
lost by merging into nothing (`merge_empty`), and a name has the value of the patch if the patch has
one (`get?_merge`). Patches that are all merged a second time change nothing
(`mergeAll_mergeAll`). -/

namespace EntityStore.Fields

variable {β : Type}

theorem get?_eq_none_iff {fields : Fields β} {name : String} :
    get? fields name = none ↔ name ∉ names fields := by
  induction fields with
  | nil => simp [names]
  | cons entry rest ih =>
    obtain ⟨n, v⟩ := entry
    rw [get?_cons]
    by_cases hn : name = n
    · simp [hn, names]
    · simp only [hn, if_false, ih, names, List.map_cons, List.mem_cons, false_or]

theorem mem_names_insert {fields : Fields β} {name other : String} {value : β} :
    other ∈ names (insert fields name value) ↔ other = name ∨ other ∈ names fields := by
  rw [names_insert]
  split
  · rename_i h
    exact ⟨.inr, fun ho => ho.elim (fun ho => ho ▸ h) id⟩
  · rw [List.mem_append, List.mem_singleton, or_comm]

theorem mem_insert {fields : Fields β} {name : String} {value : β} {entry : String × β}
    (h : entry ∈ insert fields name value) : entry ∈ fields ∨ entry = (name, value) := by
  induction fields with
  | nil => exact .inr (List.mem_singleton.mp h)
  | cons field rest ih =>
    obtain ⟨n, v⟩ := field
    by_cases hn : n = name
    · rw [insert, if_pos hn] at h
      rcases List.mem_cons.mp h with rfl | h
      · exact .inr (by rw [hn])
      · exact .inl (List.mem_cons_of_mem _ h)
    · rw [insert, if_neg hn] at h
      rcases List.mem_cons.mp h with rfl | h
      · exact .inl List.mem_cons_self
      · exact (ih h).imp_left (List.mem_cons_of_mem _)

theorem nodup_insert {fields : Fields β} (h : (names fields).Nodup) (name : String) (value : β) :
    (names (insert fields name value)).Nodup := by
  rw [names_insert]
  split
  · exact h
  · rename_i hn
    refine List.nodup_append.mpr ⟨h, by simp, fun a ha b hb hab => ?_⟩
    rw [List.mem_singleton] at hb
    exact hn (hb ▸ hab ▸ ha)

theorem nodup_insertNew {fields : Fields β} (h : (names fields).Nodup) (name : String)
    (value : β) : (names (insertNew fields name value)).Nodup := by
  unfold insertNew
  split
  · exact h
  · exact nodup_insert h name value

theorem insert_insert (fields : Fields β) (name : String) (first last : β) :
    insert (insert fields name first) name last = insert fields name last := by
  induction fields with
  | nil => simp [insert]
  | cons entry rest ih =>
    obtain ⟨n, v⟩ := entry
    by_cases hn : n = name
    · simp [insert, hn]
    · simp only [insert, hn, if_false, ih]

/-- A name that is there already keeps its place, so it does not matter what is put first. -/
theorem insert_comm {fields : Fields β} {name other : String} (hne : name ≠ other)
    (h : name ∈ names fields) (value value' : β) :
    insert (insert fields other value') name value =
      insert (insert fields name value) other value' := by
  induction fields with
  | nil => simp [names] at h
  | cons entry rest ih =>
    obtain ⟨n, v⟩ := entry
    by_cases hn : n = name
    · subst hn
      simp [insert, hne]
    · have hr : name ∈ names rest := by
        rcases List.mem_cons.mp h with h | h
        · exact (hn h.symm).elim
        · exact h
      by_cases ho : n = other
      · subst ho
        simp [insert, hn]
      · simp only [insert, hn, ho, if_false, ih hr]

theorem insert_append {fields : Fields β} {name : String} (h : name ∉ names fields) (value : β) :
    insert fields name value = fields ++ [(name, value)] := by
  induction fields with
  | nil => rfl
  | cons entry rest ih =>
    obtain ⟨n, v⟩ := entry
    simp only [names, List.map_cons, List.mem_cons, not_or] at h
    simp only [insert, if_neg (Ne.symm h.1), List.cons_append]
    rw [ih h.2]

/-! ## Merging -/

@[simp] theorem merge_nil (base : Fields β) : merge base [] = base := rfl

@[simp] theorem merge_cons (base : Fields β) (name : String) (value : β) (patch : Fields β) :
    merge base ((name, value) :: patch) = merge (insert base name value) patch := rfl

theorem nodup_merge {base : Fields β} (h : (names base).Nodup) (patch : Fields β) :
    (names (merge base patch)).Nodup := by
  induction patch generalizing base with
  | nil => exact h
  | cons entry rest ih => exact ih (nodup_insert h entry.1 entry.2)

theorem merge_eq_append {base patch : Fields β} (h : (names (base ++ patch)).Nodup) :
    merge base patch = base ++ patch := by
  induction patch generalizing base with
  | nil => simp
  | cons entry rest ih =>
    obtain ⟨name, value⟩ := entry
    have hn : name ∉ names base := by
      intro hmem
      rw [names, List.map_append, List.map_cons] at h
      exact (List.nodup_append.mp h).2.2 name hmem name List.mem_cons_self rfl
    rw [merge_cons, insert_append hn, ih (by simpa [names] using h), List.append_assoc]
    rfl

theorem merge_empty {patch : Fields β} (h : (names patch).Nodup) : merge [] patch = patch :=
  have happend : merge [] patch = [] ++ patch := merge_eq_append h
  happend

theorem get?_merge {patch : Fields β} (h : (names patch).Nodup) (base : Fields β)
    (name : String) : get? (merge base patch) name = (get? patch name).or (get? base name) := by
  induction patch generalizing base with
  | nil => simp
  | cons entry rest ih =>
    obtain ⟨n, v⟩ := entry
    obtain ⟨hn, hr⟩ := List.nodup_cons.mp h
    rw [merge_cons, ih hr, get?_insert, get?_cons]
    by_cases he : name = n
    · subst he
      simp [get?_eq_none_iff.mpr hn]
    · simp only [he, if_false]

/-- A name that the patch does not have may be put before or after the merge. -/
theorem insert_merge {base patch : Fields β} {name : String} (hb : name ∈ names base)
    (hp : name ∉ names patch) (value : β) :
    insert (merge base patch) name value = merge (insert base name value) patch := by
  induction patch generalizing base with
  | nil => rfl
  | cons entry rest ih =>
    obtain ⟨n, v⟩ := entry
    simp only [names, List.map_cons, List.mem_cons, not_or] at hp
    rw [merge_cons, merge_cons, ih (mem_names_insert.mpr (.inr hb)) hp.2, insert_comm hp.1 hb]

theorem merge_insert {patch : Fields β} (h : (names patch).Nodup) (base : Fields β)
    (name : String) (value : β) :
    merge base (insert patch name value) = insert (merge base patch) name value := by
  induction patch generalizing base with
  | nil => rfl
  | cons entry rest ih =>
    obtain ⟨n, v⟩ := entry
    obtain ⟨hn, hr⟩ := List.nodup_cons.mp h
    by_cases he : n = name
    · subst he
      simp only [insert, if_true, merge_cons]
      rw [insert_merge (mem_names_insert.mpr (.inl rfl)) hn, insert_insert]
    · simp only [insert, he, if_false, merge_cons, ih hr]

/-- Patches may be merged with each other before they are merged into the base. -/
theorem merge_assoc {first : Fields β} (h : (names first).Nodup) (base last : Fields β) :
    merge (merge base first) last = merge base (merge first last) := by
  induction last generalizing first with
  | nil => rfl
  | cons entry rest ih =>
    obtain ⟨n, v⟩ := entry
    rw [merge_cons, merge_cons, ← ih (nodup_insert h n v), merge_insert h]

/-! ## Merging again -/

/-- The fields of `base` overridden by those of the patches, one patch after the other. -/
def mergeAll (base : Fields β) (patches : List (Fields β)) : Fields β := patches.foldl merge base

variable {base patch : Fields β} {patches : List (Fields β)}

theorem get?_of_mem (h : (names patch).Nodup) {name : String} {value : β}
    (hmem : (name, value) ∈ patch) : get? patch name = some value := by
  induction patch with
  | nil => cases hmem
  | cons entry rest ih =>
    obtain ⟨n, v⟩ := entry
    obtain ⟨hn, hr⟩ := List.nodup_cons.mp h
    rw [get?_cons]
    rcases List.mem_cons.mp hmem with he | hrest
    · cases he
      exact if_pos rfl
    · rw [if_neg, ih hr hrest]
      rintro rfl
      exact hn (List.mem_map.mpr ⟨_, hrest, rfl⟩)

theorem insert_eq_self {name : String} {value : β} (h : get? base name = some value) :
    insert base name value = base := by
  induction base with
  | nil => cases h
  | cons entry rest ih =>
    obtain ⟨n, v⟩ := entry
    rw [get?_cons] at h
    by_cases hn : name = n
    · subst hn
      rw [if_pos rfl] at h
      cases h
      exact if_pos rfl
    · rw [if_neg hn] at h
      rw [insert, if_neg (Ne.symm hn), ih h]

theorem merge_eq_self (h : ∀ entry ∈ patch, get? base entry.1 = some entry.2) :
    merge base patch = base := by
  induction patch with
  | nil => rfl
  | cons entry rest ih =>
    rw [merge_cons, insert_eq_self (h entry List.mem_cons_self)]
    exact ih fun entry hmem => h entry (List.mem_cons_of_mem _ hmem)

theorem merge_self (h : (names patch).Nodup) : merge patch patch = patch :=
  merge_eq_self fun _ hmem => get?_of_mem h hmem

theorem nodup_mergeAll (h : (names base).Nodup) (patches : List (Fields β)) :
    (names (mergeAll base patches)).Nodup := by
  induction patches generalizing base with
  | nil => exact h
  | cons patch rest ih => exact ih (nodup_merge h patch)

/-- Several patches are one patch. -/
theorem mergeAll_eq_merge (h : ∀ patch ∈ patches, (names patch).Nodup) (base : Fields β) :
    mergeAll base patches = merge base (mergeAll [] patches) := by
  induction patches generalizing base with
  | nil => rfl
  | cons patch rest ih =>
    have hp := h patch List.mem_cons_self
    have ih := ih fun patch hmem => h patch (List.mem_cons_of_mem _ hmem)
    calc mergeAll (merge base patch) rest
      _ = merge (merge base patch) (mergeAll [] rest) := ih _
      _ = merge base (merge patch (mergeAll [] rest)) := merge_assoc hp ..
      _ = merge base (mergeAll patch rest) := by rw [← ih]
      _ = merge base (mergeAll (merge [] patch) rest) := by rw [merge_empty hp]

theorem mergeAll_mergeAll (h : ∀ patch ∈ patches, (names patch).Nodup) (base : Fields β) :
    mergeAll (mergeAll base patches) patches = mergeAll base patches := by
  have hnil : (names ([] : Fields β)).Nodup := List.nodup_nil
  have hall := nodup_mergeAll hnil patches
  rw [mergeAll_eq_merge h base, mergeAll_eq_merge h, merge_assoc hall, merge_self hall]

end EntityStore.Fields
