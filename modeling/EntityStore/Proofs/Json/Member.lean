import EntityStore.Proofs.Json.Distinct
import EntityStore.Proofs.Json.Text

/-! When two values have one key in a set of candidates: they are equal, and where equality does not
look at how they are written they are written alike (`Json.memberKey_eq_iff`). -/

namespace EntityStore

/-- Whether the sign of the number is a minus; a zero has one as well. -/
def Number.negative (n : Number) : Bool := (Dyadic.ofFloat n.toFloat).negative

theorem Number.toFloat_eq_iff {a b : Number} :
    a.toFloat = b.toFloat ↔ a.rank = b.rank ∧ a.negative = b.negative := by
  constructor
  · intro h
    rw [rank, rank, negative, negative, h]
    exact ⟨rfl, rfl⟩
  · rintro ⟨hrank, hsign⟩
    refine float_eq_of_bits ?_
    simp only [rank, negative, Dyadic.ofFloat, Nat.pow_eq, decide_eq_decide] at hrank hsign
    split at hrank <;> split at hrank <;> omega

namespace Json

mutual

/-- Whether two equal values are written alike as well: numbers have the same sign, so that no zero
differs from another one, and objects name their fields in the same order. -/
def alike : Json → Json → Bool
  | .num a, .num b => a.negative == b.negative
  | .arr a, .arr b => alikeList a b
  | .obj a, .obj b => alikeFields a b
  | _, _ => true

/-- Two arrays are written alike when they are item by item. -/
def alikeList : List Json → List Json → Bool
  | x :: xs, y :: ys => alike x y && alikeList xs ys
  | _, _ => true

/-- Two objects are written alike when they are field by field. -/
def alikeFields : List (String × Json) → List (String × Json) → Bool
  | (name, x) :: xs, (name', y) :: ys => name == name' && alike x y && alikeFields xs ys
  | _, _ => true

end

/-- A field with another name makes no difference to the fields that are looked for. -/
theorem sameFields_cons {name : String} {y : Json} {fields other : List (String × Json)}
    (h : name ∉ Fields.names fields) :
    sameFields fields ((name, y) :: other) = sameFields fields other := by
  induction fields with
  | nil => rfl
  | cons entry fields ih =>
    obtain ⟨n, x⟩ := entry
    rw [Fields.names, List.map_cons, List.mem_cons, not_or] at h
    rw [sameFields, sameFields, Fields.get?_cons, if_neg (Ne.symm h.1), ih h.2]

mutual

theorem same_refl : (x : Json) → x.distinct = true → same x x = true
  | .null, _ => rfl
  | .bool a, _ => beq_self_eq_true a
  | .num (.int a), _ => beq_self_eq_true a
  | .num (.double _), _ => beq_self_eq_true _
  | .str a, _ => beq_self_eq_true a
  | .arr items, h => sameList_refl items h
  | .obj fields, h => by
    obtain ⟨hnames, hfields⟩ := Bool.and_eq_true_iff.mp h
    rw [same, beq_self_eq_true, Bool.true_and]
    exact sameFields_refl fields (of_decide_eq_true hnames) hfields

theorem sameList_refl : (items : List Json) → distinctItems items = true →
    sameList items items = true
  | [], _ => rfl
  | x :: xs, h => by
    obtain ⟨hx, hxs⟩ := Bool.and_eq_true_iff.mp h
    rw [sameList, same_refl x hx, sameList_refl xs hxs]
    rfl

theorem sameFields_refl : (fields : List (String × Json)) → (Fields.names fields).Nodup →
    distinctFields fields = true → sameFields fields fields = true
  | [], _, _ => rfl
  | (name, x) :: xs, hnames, h => by
    obtain ⟨hx, hxs⟩ := Bool.and_eq_true_iff.mp h
    obtain ⟨hname, hnames⟩ := List.nodup_cons.mp hnames
    rw [sameFields, Fields.get?_cons, if_pos rfl, sameFields_cons hname,
      sameFields_refl xs hnames hxs]
    exact (Bool.and_true _).trans (same_refl x hx)

end

mutual

theorem alike_refl : (x : Json) → alike x x = true
  | .null | .bool _ | .str _ => rfl
  | .num _ => beq_self_eq_true _
  | .arr items => alikeList_refl items
  | .obj fields => alikeFields_refl fields

theorem alikeList_refl : (items : List Json) → alikeList items items = true
  | [] => rfl
  | x :: xs => by
    rw [alikeList, alike_refl x, alikeList_refl xs]
    rfl

theorem alikeFields_refl : (fields : List (String × Json)) → alikeFields fields fields = true
  | [] => rfl
  | (name, x) :: xs => by
    rw [alikeFields, beq_self_eq_true, alike_refl x, alikeFields_refl xs]
    rfl

end

mutual

/-- Values that are the same and written alike are one value. -/
theorem eq_of_same : (x y : Json) → same x y = true → alike x y = true → x.distinct = true →
    x = y := by
  intro x y hsame halike hx
  match x, y, hsame with
  | .null, .null, _ => rfl
  | .bool a, .bool b, h => exact congrArg bool (eq_of_beq h)
  | .num (.int a), .num (.int b), h => exact congrArg (num ∘ Number.int) (eq_of_beq h)
  | .num (.double a), .num (.double b), h =>
    have hfloat := Number.toFloat_eq_iff.mpr ⟨eq_of_beq h, eq_of_beq halike⟩
    obtain ⟨a, ha⟩ := a
    obtain ⟨b, hb⟩ := b
    cases hfloat
    rfl
  | .str a, .str b, h => exact congrArg str (eq_of_beq h)
  | .arr xs, .arr ys, h => exact congrArg arr (eq_of_sameList xs ys h halike hx)
  | .obj xs, .obj ys, h =>
    obtain ⟨hlength, hfields⟩ := Bool.and_eq_true_iff.mp h
    obtain ⟨hnames, hxs⟩ := Bool.and_eq_true_iff.mp hx
    exact congrArg obj (eq_of_sameFields xs ys (eq_of_beq hlength) hfields halike
      (of_decide_eq_true hnames) hxs)

theorem eq_of_sameList : (xs ys : List Json) → sameList xs ys = true → alikeList xs ys = true →
    distinctItems xs = true → xs = ys
  | [], [], _, _, _ => rfl
  | x :: xs, y :: ys, hsame, halike, hdistinct => by
    obtain ⟨hxy, hsame⟩ := Bool.and_eq_true_iff.mp hsame
    obtain ⟨hlike, halike⟩ := Bool.and_eq_true_iff.mp halike
    obtain ⟨hx, hdistinct⟩ := Bool.and_eq_true_iff.mp hdistinct
    rw [eq_of_same x y hxy hlike hx, eq_of_sameList xs ys hsame halike hdistinct]

theorem eq_of_sameFields : (xs ys : List (String × Json)) → xs.length = ys.length →
    sameFields xs ys = true → alikeFields xs ys = true → (Fields.names xs).Nodup →
    distinctFields xs = true → xs = ys
  | [], [], _, _, _, _, _ => rfl
  | (name, x) :: xs, (name', y) :: ys, hlength, hsame, halike, hnames, hdistinct => by
    obtain ⟨hhead, hrest⟩ := Bool.and_eq_true_iff.mp halike
    obtain ⟨hname, hlike⟩ := Bool.and_eq_true_iff.mp hhead
    obtain ⟨hx, hxs⟩ := Bool.and_eq_true_iff.mp hdistinct
    obtain ⟨hnew, hnodup⟩ := List.nodup_cons.mp hnames
    -- The first field is found in its own place, and the others are found behind it.
    rw [← eq_of_beq hname, sameFields, Fields.get?_cons, if_pos rfl, sameFields_cons hnew] at hsame
    obtain ⟨hxy, hother⟩ := Bool.and_eq_true_iff.mp hsame
    rw [eq_of_beq hname, eq_of_same x y hxy hlike hx,
      eq_of_sameFields xs ys (Nat.succ.inj hlength) hother hrest hnodup hxs]

end

theorem memberKey_num_eq_iff {a b : Number} :
    (num a).memberKey = (num b).memberKey ↔ a.toFloat = b.toFloat := by
  constructor
  · intro h
    have hlist := congrArg String.toList h
    rw [memberKey, memberKey, String.toList_append, String.toList_append,
      List.append_cancel_left_eq] at hlist
    exact Numeral.write_injective _ (String.toList_injective hlist)
  · intro h
    rw [memberKey, memberKey, h]

theorem memberKey_of_kindRank {x : Json} (h : x.kindRank ≠ 2) : x.memberKey = x.render := by
  cases x <;> first | rfl | exact absurd rfl h

/-- The key of a number is not the key of anything else. -/
theorem memberKey_num_ne (n : Number) {y : Json} (h : y.kindRank ≠ 2) :
    (num n).memberKey ≠ y.memberKey := fun heq => by
  have hlist := congrArg String.toList heq
  rw [memberKey_of_kindRank h, memberKey, String.toList_append] at hlist
  obtain ⟨c, rest, hy, hkind⟩ := head_render y
  have hn : kindOf 'n' = y.kindRank := by
    have hc : 'n' = c := (List.cons.inj (hlist.trans hy)).1
    rw [hc, hkind]
  cases y <;> cases hn
  exact absurd (List.cons.inj (List.cons.inj hlist).2).1 (by decide)

theorem kindRank_of_equal {x y : Json} (h : x.equal y = true) : x.kindRank = y.kindRank := by
  cases x <;> cases y <;> first | rfl | cases h

theorem equal_of_kindRank {x y : Json} (h : x.kindRank ≠ 2) : x.equal y = x.same y := by
  cases x <;> first | rfl | exact absurd rfl h

/-- Two values have one key if they are equal and written alike. -/
theorem memberKey_eq_iff {x y : Json} (hx : x.distinct = true) :
    x.memberKey = y.memberKey ↔ x.equal y = true ∧ x.alike y = true := by
  by_cases hxnum : x.kindRank = 2
  · obtain ⟨a, rfl⟩ : ∃ a, x = num a := by cases x <;> first | exact ⟨_, rfl⟩ | cases hxnum
    by_cases hynum : y.kindRank = 2
    · obtain ⟨b, rfl⟩ : ∃ b, y = num b := by cases y <;> first | exact ⟨_, rfl⟩ | cases hynum
      rw [memberKey_num_eq_iff, Number.toFloat_eq_iff, equal, alike, beq_iff_eq, beq_iff_eq]
    · exact iff_of_false (memberKey_num_ne a hynum) fun h => hynum (kindRank_of_equal h.1).symm
  · by_cases hynum : y.kindRank = 2
    · obtain ⟨b, rfl⟩ : ∃ b, y = num b := by cases y <;> first | exact ⟨_, rfl⟩ | cases hynum
      exact iff_of_false (memberKey_num_ne b hxnum).symm fun h => hxnum (kindRank_of_equal h.1)
    · rw [memberKey_of_kindRank hxnum, memberKey_of_kindRank hynum, equal_of_kindRank hxnum,
        render_injective.eq_iff]
      constructor
      · rintro rfl
        exact ⟨same_refl x hx, alike_refl x⟩
      · exact fun h => eq_of_same x y h.1 h.2 hx

end Json

end EntityStore
