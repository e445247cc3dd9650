import EntityStore.Proofs.Schema.Pointers
import EntityStore.Query.Projection

/-! The columns of pointers. A pointer is projected under its own name together with the columns
that keep it. Where no reference is named like such a column (`Schema.PointersApart`), no pointer
is (`Schema.PointersApart.not_mem_pointerColumns`), and an expression never is
(`Schema.not_mem_pointerColumns_of_isKey`). -/

namespace EntityStore

theorem Entity.getElem?_withAttribute (e : Entity) (name : String) (a : Attribute)
    (other : String) : (e.withAttribute name a).attributes[other]? =
      if name = other then some a else e.attributes[other]? := by
  rw [withAttribute, Std.ExtTreeMap.getElem?_insert]
  simp only [Std.compare_eq_iff_eq]

theorem Schema.entity_withEntity (s : Schema) (name : String) (e : Entity) (other : String) :
    (s.withEntity name e).entity other = if name = other then .ok e else s.entity other := by
  rw [Schema.entity, withEntity, Std.ExtTreeMap.getElem?_insert]
  by_cases h : name = other
  · simp [h]
  · simp [h, Schema.entity]

/-- No reference is named like a column that keeps a pointer of the entity. -/
def Entity.PointersApart (e : Entity) : Prop :=
  ∀ attr target required, e.attributes[attr]? = some ⟨.ref target, required⟩ →
    (∀ other target required, e.attributes[other]? = some ⟨.ref target, required⟩ →
      attr ≠ foreignKeyColumn other) ∧
    (e.polymorphicTargets?.isSome → attr ≠ entityColumn ∧ attr ≠ entityIdColumn)

namespace Schema

/-- In no entity is a reference named like a column that keeps a pointer. -/
def PointersApart (s : Schema) : Prop := ∀ entity e, s.entity entity = .ok e → e.PointersApart

variable {s : Schema} {entity attr : String} {p : Pointer}

/-- A pointer is a declared reference, or a target of the polymorphic pointer that is neither
declared nor a column that keeps a pointer. -/
theorem pointer_cases (h : s.relation entity attr = .ok (.pointer p)) :
    ∃ e, s.entity entity = .ok e ∧
      ((∃ target required, e.attributes[attr]? = some ⟨.ref target, required⟩ ∧
          p = .foreignKey target (foreignKeyColumn attr)) ∨
        (e.attributes[attr]? = none ∧ isPointerColumn e attr = false ∧
          (∃ targets, e.polymorphicTargets? = some targets ∧ attr ∈ targets) ∧
          p = .polymorphic attr)) := by
  have hsplit := splitBackReference?_of_pointer h
  unfold relation at h
  cases he : s.entity entity with
  | error e => rw [he] at h; cases h
  | ok e =>
    simp only [he, bind, Except.bind, hsplit] at h
    refine ⟨e, rfl, ?_⟩
    split at h
    · cases h
    · split at h
      · rename_i target required ha
        cases h
        exact .inl ⟨target, required, ha, rfl⟩
      · cases h
      · rename_i ha
        split at h
        · cases h
        · rename_i hcolumn
          split at h
          · rename_i hmem
            cases h
            refine .inr ⟨ha, Bool.eq_false_iff.mpr hcolumn, ?_, rfl⟩
            cases ht : e.polymorphicTargets? with
            | some targets => exact ⟨targets, rfl, by rwa [ht] at hmem⟩
            | none => rw [ht] at hmem; cases hmem
          · cases h

/-- In an accepted schema a pointer leads to a declared entity. -/
theorem Accepted.target_declared (h : s.Accepted) (hr : s.relation entity attr = .ok (.pointer p)) :
    ∃ target, s.entity p.target = .ok target := by
  obtain ⟨e, he, hcases⟩ := pointer_cases hr
  obtain ⟨-, href, hpoly⟩ :=
    Entity.complaint?_eq_none (h.complaint?_entity (entity_eq_ok_iff.mp he))
  rcases hcases with ⟨target, required, ha, rfl⟩ | ⟨-, -, ⟨targets, ht, hmem⟩, rfl⟩
  · exact entity_of_mem (href ha)
  · exact entity_of_mem (hpoly ht attr hmem)

theorem polymorphic_of_targets {e : Entity} (h : e.polymorphicTargets?.isSome) :
    ∃ targets required, e.attributes[entityColumn]? = some ⟨.entity targets, required⟩ := by
  unfold Entity.polymorphicTargets? at h
  split at h
  · rename_i targets required ha
    exact ⟨targets, required, ha⟩
  · cases h

theorem isPointerColumn_of_ref {e : Entity} {other target : String} {required : Bool}
    (h : e.attributes[other]? = some ⟨.ref target, required⟩) :
    isPointerColumn e (foreignKeyColumn other) = true := by
  rw [isPointerColumn, pointerOfColumn?_foreignKeyColumn]
  simp only [h]

theorem isPointerColumn_entityIdColumn {e : Entity} (h : e.polymorphicTargets?.isSome) :
    isPointerColumn e entityIdColumn = true := by
  obtain ⟨targets, required, ha⟩ := polymorphic_of_targets h
  have hcolumn : pointerOfColumn? entityIdColumn = some entityColumn := by decide
  rw [isPointerColumn, hcolumn]
  simp only [ha]

/-- No pointer is named like a column that keeps another one. -/
theorem PointersApart.not_mem_pointerColumns (hs : s.PointersApart) {other : String} {q : Pointer}
    (hp : s.relation entity attr = .ok (.pointer p))
    (hq : s.relation entity other = .ok (.pointer q)) :
    attr ∉ Projected.pointerColumns q := by
  obtain ⟨e, he, hattr⟩ := pointer_cases hp
  obtain ⟨e', he', hother⟩ := pointer_cases hq
  cases he.symm.trans he'
  rcases hattr with ⟨target, required, ha, -⟩ | ⟨ha, hcolumn, -, -⟩
  · obtain ⟨hreferences, hpolymorphic⟩ := hs entity e he attr target required ha
    rcases hother with ⟨target', required', ha', rfl⟩ | ⟨-, -, ⟨targets, ht, -⟩, rfl⟩
    · simpa [Projected.pointerColumns] using hreferences other target' required' ha'
    · simpa [Projected.pointerColumns] using hpolymorphic (Option.isSome_of_eq_some ht)
  · rcases hother with ⟨target', required', ha', rfl⟩ | ⟨-, -, ⟨targets, ht, -⟩, rfl⟩
    · have hne : attr ≠ foreignKeyColumn other := by
        rintro rfl
        exact absurd (isPointerColumn_of_ref ha') (Bool.eq_false_iff.mp hcolumn)
      simpa [Projected.pointerColumns] using hne
    · have htargets := Option.isSome_of_eq_some ht
      obtain ⟨targets, required, hentity⟩ := polymorphic_of_targets htargets
      have hne : attr ≠ entityColumn := by
        rintro rfl
        cases ha.symm.trans hentity
      have hne' : attr ≠ entityIdColumn := by
        rintro rfl
        exact absurd (isPointerColumn_entityIdColumn htargets) (Bool.eq_false_iff.mp hcolumn)
      simp [Projected.pointerColumns, hne, hne']

theorem isKey_foreignKeyColumn (attr : String) :
    Expression.isKey (foreignKeyColumn attr) = false := by
  rw [Bool.eq_false_iff, Ne, Expression.isKey, Bool.and_eq_true, List.isPrefixOf_iff_prefix]
  rintro ⟨⟨digits, hname⟩, hdigits⟩
  have hlast : (foreignKeyColumn attr).toList.getLast? = some 'd' := by
    rw [toList_foreignKeyColumn, List.getLast?_append]
    rfl
  rw [← hname, List.drop_left' (by rfl), List.all_eq_true] at hdigits
  rw [← hname] at hlast
  rcases List.eq_nil_or_concat digits with rfl | ⟨before, last, rfl⟩
  · cases hlast
  · rw [List.concat_eq_append] at hlast hdigits
    rw [← List.append_assoc, List.getLast?_concat] at hlast
    cases hlast
    exact absurd (hdigits 'd' (by simp)) (by decide)

/-- No expression is named like a back-reference. -/
theorem isKey_of_spelled {name : String} (h : SpelledAsBackReference name) :
    Expression.isKey name = false := by
  obtain ⟨target, pointer, ht, -, hd, rfl⟩ := h
  obtain ⟨c, cs, hc⟩ := List.exists_cons_of_ne_nil fun h => ht (String.toList_eq_nil_iff.mp h)
  rw [Bool.eq_false_iff, Ne, Expression.isKey, Bool.and_eq_true, List.isPrefixOf_iff_prefix]
  rintro ⟨⟨digits, hname⟩, -⟩
  rw [toList_backReferenceName, hc] at hname
  rw [hc] at hd
  have hhead := (List.cons.inj hname).1
  exact hd (hhead ▸ List.mem_cons_self)

/-- No expression is named like a column that keeps a pointer. -/
theorem not_mem_pointerColumns_of_isKey {name : String} (hname : Expression.isKey name = true)
    (hp : s.relation entity attr = .ok (.pointer p)) : name ∉ Projected.pointerColumns p := by
  intro hmem
  obtain ⟨e, -, ⟨target, required, -, rfl⟩ | ⟨-, -, -, rfl⟩⟩ := pointer_cases hp
  · cases List.mem_singleton.mp hmem
    rw [isKey_foreignKeyColumn] at hname
    cases hname
  · have hkeys : ∀ column ∈ [entityColumn, entityIdColumn], Expression.isKey column = false := by
      decide
    rw [hkeys name hmem] at hname
    cases hname

end Schema

end EntityStore
