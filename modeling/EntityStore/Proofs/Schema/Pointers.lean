import EntityStore.Query.Sort
import EntityStore.Schema.Codec

/-! Pointers of accepted schemas. A reference leads forward under its own name, backward under the
name of the back-reference, and its column is a plain one, unless the names around it are reserved
or spelled alike (`Schema.pointers_usable_iff`). Which names these are is exact: a schema that uses
one of them is accepted all the same (`Schema.reference_named_entity`). -/

namespace EntityStore

/-! ## Spelling of back-references -/

/-- The name under which the rows of an entity that point here are found. -/
def backReferenceName (entity pointer : String) : String := entity ++ "$" ++ pointer

/-- Two names around the first dollar sign. -/
def SpelledAsBackReference (name : String) : Prop :=
  ∃ target pointer, target ≠ "" ∧ pointer ≠ "" ∧ '$' ∉ target.toList ∧
    name = backReferenceName target pointer

theorem toList_backReferenceName (entity pointer : String) :
    (backReferenceName entity pointer).toList = entity.toList ++ '$' :: pointer.toList := by
  simp [backReferenceName]

theorem takeWhile_append_dollar {before : List Char} (h : '$' ∉ before) (after : List Char) :
    (before ++ '$' :: after).takeWhile (· ≠ '$') = before := by
  rw [List.takeWhile_append_of_pos, List.takeWhile_cons_of_neg (by simp), List.append_nil]
  exact fun c hc => decide_eq_true fun he => h (he ▸ hc)

theorem dropWhile_append_dollar {before : List Char} (h : '$' ∉ before) (after : List Char) :
    (before ++ '$' :: after).dropWhile (· ≠ '$') = '$' :: after := by
  rw [List.dropWhile_append_of_pos, List.dropWhile_cons_of_neg (by simp)]
  exact fun c hc => decide_eq_true fun he => h (he ▸ hc)

/-- Both names are read back from a back-reference. -/
theorem splitBackReference?_backReferenceName {target pointer : String} (ht : target ≠ "")
    (hp : pointer ≠ "") (hd : '$' ∉ target.toList) :
    splitBackReference? (backReferenceName target pointer) = some (target, pointer) := by
  unfold splitBackReference?
  dsimp only
  rw [toList_backReferenceName, takeWhile_append_dollar hd, dropWhile_append_dollar hd]
  obtain ⟨t, ts, hts⟩ := List.exists_cons_of_ne_nil fun h => ht (String.toList_eq_nil_iff.mp h)
  obtain ⟨p, ps, hps⟩ := List.exists_cons_of_ne_nil fun h => hp (String.toList_eq_nil_iff.mp h)
  have htarget : String.ofList (t :: ts) = target := by rw [← hts, String.ofList_toList]
  have hpointer : String.ofList (p :: ps) = pointer := by rw [← hps, String.ofList_toList]
  rw [hts, hps]
  exact congrArg some (Prod.ext htarget hpointer)

theorem spelled_of_splitBackReference? {name : String} {names : String × String}
    (h : splitBackReference? name = some names) : SpelledAsBackReference name := by
  unfold splitBackReference? at h
  dsimp only at h
  split at h
  · rename_i t ts d c rest htarget hpointer
    have hname : name.toList = (t :: ts) ++ d :: c :: rest := by
      rw [← htarget, ← hpointer, List.takeWhile_append_dropWhile]
    have hd : d = '$' := by
      have hhead := List.head?_dropWhile_not (· ≠ '$') name.toList
      rw [hpointer] at hhead
      simpa using hhead
    have hnone : '$' ∉ t :: ts := fun hmem => by
      rw [← htarget] at hmem
      simpa using List.all_eq_true.mp List.all_takeWhile _ hmem
    refine ⟨String.ofList (t :: ts), String.ofList (c :: rest), ?_, ?_, ?_, ?_⟩
    · exact fun he => List.cons_ne_nil _ _ (String.ofList_eq_empty_iff.mp he)
    · exact fun he => List.cons_ne_nil _ _ (String.ofList_eq_empty_iff.mp he)
    · rwa [String.toList_ofList]
    · apply String.toList_injective
      rw [hname, toList_backReferenceName, String.toList_ofList, String.toList_ofList, hd]
  · cases h

theorem splitBackReference?_eq_none_iff {name : String} :
    splitBackReference? name = none ↔ ¬ SpelledAsBackReference name := by
  constructor
  · rintro h ⟨target, pointer, ht, hp, hd, rfl⟩
    rw [splitBackReference?_backReferenceName ht hp hd] at h
    cases h
  · intro h
    refine Option.eq_none_iff_forall_ne_some.mpr fun names hn => ?_
    exact h (spelled_of_splitBackReference? hn)

/-- A name with two parts is no implicit column. -/
theorem not_mem_implicitColumns {name : String} {names : String × String}
    (h : splitBackReference? name = some names) : name ∉ implicitColumns := by
  have hnone : ∀ column ∈ implicitColumns, splitBackReference? column = none := by decide
  intro hmem
  rw [hnone name hmem] at h
  cases h

/-! ## Columns of pointers -/

theorem toList_foreignKeyColumn (attr : String) :
    (foreignKeyColumn attr).toList = attr.toList ++ "Id".toList := by
  rw [foreignKeyColumn, String.toList_append]

theorem pointerOfColumn?_foreignKeyColumn (attr : String) :
    pointerOfColumn? (foreignKeyColumn attr) = some attr := by
  have hsuffix : "Id".toList.isSuffixOf (foreignKeyColumn attr).toList = true := by
    rw [List.isSuffixOf_iff_suffix, toList_foreignKeyColumn]
    exact List.suffix_append _ _
  rw [pointerOfColumn?, if_pos hsuffix, toList_foreignKeyColumn]
  have htake : (attr.toList ++ "Id".toList).take ((attr.toList ++ "Id".toList).length - 2) =
      attr.toList := List.take_left' (by simp)
  rw [htake, String.ofList_toList]

theorem foreignKeyColumn_not_mem_implicitColumns (attr : String) :
    foreignKeyColumn attr ∉ implicitColumns := by
  have hnone : ∀ column ∈ implicitColumns, ¬ "Id".toList <:+ column.toList := by decide
  intro hmem
  refine hnone _ hmem ?_
  rw [toList_foreignKeyColumn]
  exact List.suffix_append _ _

/-! ## What the check of a schema ensures -/

theorem Entity.complaint?_eq_none {schema : Schema} {name : String} {e : Entity}
    (h : e.complaint? schema name = none) : '$' ∉ name.toList ∧
      (∀ {attr target : String} {required : Bool},
        e.attributes[attr]? = some ⟨.ref target, required⟩ → target ∈ schema.entities) ∧
      ∀ {targets : List String}, e.polymorphicTargets? = some targets → ∀ target ∈ targets,
        target ∈ schema.entities := by
  unfold complaint? at h
  simp only [Option.or_eq_none_iff, List.findSome?_eq_none_iff] at h
  obtain ⟨hname, hattribute, -, -⟩ := h
  have hmem {attr : String} {a : Attribute} (ha : e.attributes[attr]? = some a) :
      (attr, a) ∈ e.attributes.toList := Std.ExtTreeMap.mem_toList_iff_getElem?_eq_some.mpr ha
  refine ⟨?_, fun {attr target required} ha => ?_, fun {targets} ht target htarget => ?_⟩
  · simpa using hname
  · simpa using hattribute _ (hmem ha)
  · unfold polymorphicTargets? at ht
    split at ht
    · rename_i found required ha
      cases ht
      have hall := hattribute _ (hmem ha)
      simp only [ne_eq, not_true_eq_false, if_false, List.findSome?_eq_none_iff] at hall
      simpa using hall target htarget
    · cases ht

namespace Schema

/-- The schema was accepted, as a value or as a document. -/
def Accepted (s : Schema) : Prop :=
  ∃ location, (∃ given : Schema, given.register location = .ok s) ∨
    ∃ text, load location text = .ok s

variable {s : Schema} {entity target attr pointer : String} {e : Entity} {required : Bool}
  {targets : List String}

theorem complaint?_of_register {given : Schema} {location : String}
    (h : given.register location = .ok s) : s.complaint? = none := by
  unfold register at h
  split at h
  · cases h
  · cases h
    assumption

theorem Accepted.complaint? (h : s.Accepted) : s.complaint? = none := by
  obtain ⟨location, ⟨given, h⟩ | ⟨text, h⟩⟩ := h
  · exact complaint?_of_register h
  · unfold load at h
    split at h
    · exact complaint?_of_register h
    · cases h

theorem accepted_of_complaint? (h : s.complaint? = none) : s.Accepted :=
  ⟨inMemory, .inl ⟨s, by rw [register, h]⟩⟩

theorem Accepted.complaint?_entity (h : s.Accepted) (he : s.entities[entity]? = some e) :
    e.complaint? s entity = none :=
  List.findSome?_eq_none_iff.mp h.complaint? (entity, e)
    (Std.ExtTreeMap.mem_toList_iff_getElem?_eq_some.mpr he)

theorem entity_eq_ok_iff : s.entity entity = .ok e ↔ s.entities[entity]? = some e := by
  rw [Schema.entity]
  cases s.entities[entity]? <;> simp

theorem entity_eq_ok (h : s.entities[entity]? = some e) : s.entity entity = .ok e :=
  entity_eq_ok_iff.mpr h

theorem entity_of_mem (h : entity ∈ s.entities) : ∃ e, s.entity entity = .ok e := by
  obtain ⟨e, he⟩ := Std.ExtTreeMap.mem_iff_isSome_getElem?.trans Option.isSome_iff_exists |>.mp h
  exact ⟨e, entity_eq_ok he⟩

/-! ## Classification of names -/

/-- A name with two parts is a back-reference or nothing. -/
theorem relation_of_split (he : s.entity entity = .ok e)
    (hsplit : splitBackReference? attr = some (target, pointer)) :
    s.relation entity attr = s.backReference entity attr target pointer := by
  unfold relation
  simp only [he, bind, Except.bind, if_neg (not_mem_implicitColumns hsplit), hsplit]

theorem relation_of_declared {type : AttributeType} (he : s.entity entity = .ok e)
    (hi : attr ∉ implicitColumns) (hsplit : splitBackReference? attr = none)
    (ha : e.attributes[attr]? = some ⟨type, required⟩) : s.relation entity attr =
      match type with
      | .ref target => .ok (.pointer (.foreignKey target (foreignKeyColumn attr)))
      | _ => .ok .column := by
  unfold relation
  simp only [he, bind, Except.bind, if_neg hi, hsplit, ha]
  cases type <;> rfl

theorem relation_of_implicit (he : s.entity entity = .ok e) (hi : attr ∈ implicitColumns) :
    s.relation entity attr = .ok .column := by
  unfold relation
  simp only [he, bind, Except.bind, if_pos hi]

theorem backReference_eq_toMany {relation : Relation}
    (h : s.backReference entity attr target pointer = .ok relation) :
    (pointer = entityColumn ∧ relation = .toMany target none) ∨
      (pointer ≠ entityColumn ∧ relation = .toMany target (some pointer)) := by
  unfold backReference at h
  simp only [bind, Except.bind] at h
  split at h
  · cases h
  · split at h
    · rename_i hpointer
      split at h
      · split at h
        · cases h
          exact .inl ⟨hpointer, rfl⟩
        · cases h
      · cases h
    · rename_i hpointer
      split at h
      · split at h
        · cases h
          exact .inr ⟨hpointer, rfl⟩
        · cases h
      · cases h

/-! ## Names of a reference -/

theorem relation_eq_foreignKey_iff (he : s.entity entity = .ok e)
    (ha : e.attributes[attr]? = some ⟨.ref target, required⟩) :
    s.relation entity attr = .ok (.pointer (.foreignKey target (foreignKeyColumn attr))) ↔
      attr ∉ implicitColumns ∧ ¬ SpelledAsBackReference attr := by
  rw [← splitBackReference?_eq_none_iff]
  constructor
  · intro h
    refine ⟨fun hi => ?_, splitBackReference?_of_pointer h⟩
    cases (relation_of_implicit he hi).symm.trans h
  · rintro ⟨hi, hsplit⟩
    exact relation_of_declared he hi hsplit ha

/-- The column of a reference is plain, unless its name means something else. -/
theorem relation_foreignKeyColumn_iff (he : s.entity entity = .ok e)
    (ha : e.attributes[attr]? = some ⟨.ref target, required⟩) :
    s.relation entity (foreignKeyColumn attr) = .ok .column ↔
      ¬ SpelledAsBackReference (foreignKeyColumn attr) ∧
        ∀ other required, e.attributes[foreignKeyColumn attr]? ≠ some ⟨.ref other, required⟩ := by
  have hi := foreignKeyColumn_not_mem_implicitColumns attr
  rw [← splitBackReference?_eq_none_iff]
  cases hsplit : splitBackReference? (foreignKeyColumn attr) with
  | some names =>
    refine ⟨fun h => ?_, fun h => by cases h.1⟩
    rw [relation_of_split he hsplit] at h
    rcases backReference_eq_toMany h with ⟨-, h⟩ | ⟨-, h⟩ <;> cases h
  | none =>
    rw [and_iff_right rfl]
    cases hd : e.attributes[foreignKeyColumn attr]? with
    | some declared =>
      obtain ⟨type, r⟩ := declared
      rw [relation_of_declared he hi hsplit hd]
      cases type with
      | ref other => exact ⟨nofun, fun h => absurd rfl (h other r)⟩
      | _ => exact ⟨fun _ _ _ => nofun, fun _ => rfl⟩
    | none =>
      refine ⟨fun _ _ _ => nofun, fun _ => ?_⟩
      have hcolumn : isPointerColumn e (foreignKeyColumn attr) = true := by
        rw [isPointerColumn, pointerOfColumn?_foreignKeyColumn]
        simp only [ha]
      unfold relation
      simp only [he, bind, Except.bind, if_neg hi, hsplit, hd, if_pos hcolumn]

/-- A back-reference is one by its spelling. -/
theorem spelled_of_toMany {back : Option String}
    (h : s.relation entity attr = .ok (.toMany target back)) : SpelledAsBackReference attr := by
  obtain ⟨names, hsplit⟩ := Option.isSome_iff_exists.mp (splitBackReference?_of_toMany h)
  exact spelled_of_splitBackReference? hsplit

/-- The name of a back-reference has two parts, unless one of them is empty. -/
theorem spelled_backReferenceName_iff (hd : '$' ∉ entity.toList) :
    SpelledAsBackReference (backReferenceName entity pointer) ↔ entity ≠ "" ∧ pointer ≠ "" := by
  refine ⟨fun h => ?_, fun h => ⟨entity, pointer, h.1, h.2, hd, rfl⟩⟩
  obtain ⟨t, p, ht, hp, htd, hname⟩ := h
  have hlist := congrArg String.toList hname
  rw [toList_backReferenceName, toList_backReferenceName] at hlist
  have htarget := congrArg (List.takeWhile (· ≠ '$')) hlist
  rw [takeWhile_append_dollar hd, takeWhile_append_dollar htd] at htarget
  rw [htarget] at hlist
  have hpointer := List.cons.inj (List.append_cancel_left hlist)
  rw [String.toList_injective htarget, String.toList_injective hpointer.2]
  exact ⟨ht, hp⟩

theorem relation_backReferenceName (hname : entity ≠ "" ∧ pointer ≠ "")
    (hd : '$' ∉ entity.toList) (ht : ∃ t, s.entity target = .ok t) :
    s.relation target (backReferenceName entity pointer) =
      s.backReference target (backReferenceName entity pointer) entity pointer := by
  obtain ⟨t, ht⟩ := ht
  exact relation_of_split ht (splitBackReference?_backReferenceName hname.1 hname.2 hd)

theorem relation_toMany_iff (he : s.entity entity = .ok e)
    (hd : '$' ∉ entity.toList) (ht : ∃ t, s.entity target = .ok t)
    (ha : e.attributes[attr]? = some ⟨.ref target, required⟩) :
    s.relation target (backReferenceName entity attr) = .ok (.toMany entity (some attr)) ↔
      entity ≠ "" ∧ attr ≠ "" ∧ attr ≠ entityColumn := by
  rw [← and_assoc]
  constructor
  · intro h
    have hname := (spelled_backReferenceName_iff hd).mp (spelled_of_toMany h)
    refine ⟨hname, fun hattr => ?_⟩
    rw [relation_backReferenceName hname hd ht] at h
    rcases backReference_eq_toMany h with ⟨-, h⟩ | ⟨hne, -⟩
    · cases h
    · exact hne hattr
  · rintro ⟨hname, hne⟩
    rw [relation_backReferenceName hname hd ht, backReference]
    simp only [he, bind, Except.bind, if_neg hne, ha, if_true]

theorem relation_toMany_polymorphic_iff (he : s.entity entity = .ok e)
    (hd : '$' ∉ entity.toList) (ht : ∃ t, s.entity target = .ok t)
    (hp : e.polymorphicTargets? = some targets) (hmem : target ∈ targets) :
    s.relation target (backReferenceName entity entityColumn) = .ok (.toMany entity none) ↔
      entity ≠ "" := by
  constructor
  · exact fun h => ((spelled_backReferenceName_iff hd).mp (spelled_of_toMany h)).1
  · intro hne
    have hname : entity ≠ "" ∧ entityColumn ≠ "" := ⟨hne, by decide⟩
    rw [relation_backReferenceName hname hd ht, backReference]
    simp only [he, bind, Except.bind, if_true, hp, if_pos hmem]

/-- In an accepted schema every reference leads to its target under its own name, unless that is the
name of an implicit column or spelled as a back-reference. Its column is a plain one, unless that
name is spelled as a back-reference or declared as a reference of its own. From the target the
reference is followed back under the name of its entity and its own, unless one of the two is empty
or it has the name that is reserved for polymorphic pointers; and from each of its targets the
polymorphic pointer is followed back, unless its entity has the empty name. -/
theorem pointers_usable_iff (h : s.Accepted) (he : s.entities[entity]? = some e) :
    (∀ attr target required, e.attributes[attr]? = some ⟨.ref target, required⟩ →
      (s.relation entity attr = .ok (.pointer (.foreignKey target (foreignKeyColumn attr))) ↔
        attr ∉ implicitColumns ∧ ¬ SpelledAsBackReference attr) ∧
      (s.relation entity (foreignKeyColumn attr) = .ok .column ↔
        ¬ SpelledAsBackReference (foreignKeyColumn attr) ∧
          ∀ other required, e.attributes[foreignKeyColumn attr]? ≠ some ⟨.ref other, required⟩) ∧
      (s.relation target (backReferenceName entity attr) = .ok (.toMany entity (some attr)) ↔
        entity ≠ "" ∧ attr ≠ "" ∧ attr ≠ entityColumn)) ∧
    ∀ targets, e.polymorphicTargets? = some targets → ∀ target ∈ targets,
      (s.relation target (backReferenceName entity entityColumn) = .ok (.toMany entity none) ↔
        entity ≠ "") := by
  obtain ⟨hd, href, hpoly⟩ := Entity.complaint?_eq_none (h.complaint?_entity he)
  have he := entity_eq_ok he
  refine ⟨fun attr target required ha => ⟨?_, ?_, ?_⟩, fun targets hp target hmem => ?_⟩
  · exact relation_eq_foreignKey_iff he ha
  · exact relation_foreignKeyColumn_iff he ha
  · exact relation_toMany_iff he hd (entity_of_mem (href ha)) ha
  · exact relation_toMany_polymorphic_iff he hd (entity_of_mem (hpoly hp target hmem)) hp hmem

/-- Orders of users, and comments on both. -/
theorem pointers_usable_order :
    let user : Entity := { attributes := Std.ExtTreeMap.ofList [("name", ⟨.string, true⟩)] compare }
    let order : Entity :=
      { attributes := Std.ExtTreeMap.ofList [("user", ⟨.ref "user", true⟩)] compare }
    let comment : Entity :=
      { attributes := Std.ExtTreeMap.ofList [("entity", ⟨.entity ["user", "order"], true⟩)] compare }
    let entities := [("user", user), ("order", order), ("comment", comment)]
    let s : Schema := { entities := Std.ExtTreeMap.ofList entities compare }
    s.Accepted ∧
      s.relation "order" "user" = .ok (.pointer (.foreignKey "user" "userId")) ∧
      s.relation "order" "userId" = .ok .column ∧
      s.relation "user" "order$user" = .ok (.toMany "order" (some "user")) ∧
      s.relation "order" "comment$entity" = .ok (.toMany "comment" none) := by
  intro user order comment entities s
  have h : s.Accepted := accepted_of_complaint? (by decide)
  have horder : s.entities["order"]? = some order := by rfl
  have hcomment : s.entities["comment"]? = some comment := by rfl
  obtain ⟨hforward, hcolumn, hback⟩ :=
    (pointers_usable_iff h horder).1 "user" "user" true (by decide)
  have hpoly := (pointers_usable_iff h hcomment).2 ["user", "order"] (by decide) "order" (by decide)
  refine ⟨h, hforward.mpr ⟨by decide, ?_⟩, hcolumn.mpr ⟨?_, ?_⟩, hback.mpr (by decide),
    hpoly.mpr (by decide)⟩
  · exact splitBackReference?_eq_none_iff.mp (by decide)
  · exact splitBackReference?_eq_none_iff.mp (by decide)
  · intro other required he
    have hnone : order.attributes[foreignKeyColumn "user"]? = none := by decide
    cases hnone.symm.trans he

/-- References that are accepted although one has the name reserved for polymorphic pointers, one
the name of an implicit column and one a dollar sign in its name. The first has no way back, the
other two lead nowhere. -/
theorem reference_named_entity :
    let user : Attribute := ⟨.ref "user", false⟩
    let pointers := [("entity", user), ("id", user), ("by$user", user)]
    let order : Entity := { attributes := Std.ExtTreeMap.ofList pointers compare }
    let s : Schema :=
      { entities := Std.ExtTreeMap.ofList [("user", {}), ("order", order)] compare }
    s.Accepted ∧ (∀ attr ∈ ["entity", "id", "by$user"], order.attributes[attr]? = some user) ∧
      s.relation "user" "order$entity" =
        .error (.invalidRelation "user" "order$entity" (.notTargeted "order" "user")) ∧
      s.relation "order" "id" = .ok .column ∧
      s.relation "order" "by$user" = .error (.unknownEntity "by") := by
  intro user pointers order s
  exact ⟨accepted_of_complaint? (by decide), by decide, by rfl, by rfl, by rfl⟩

end Schema

end EntityStore
