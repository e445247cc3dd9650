import EntityStore.Proofs.Decimal.Place
import EntityStore.Proofs.Json.Member
import EntityStore.Proofs.Json.Order
import EntityStore.Query.Operator

/-! The order of values beside equality and the operators that compare. The order is a total
preorder in which equal values tie. Two numbers, two texts or two truth values are in one of three
relations, which the order, equality and the operators agree upon, and for numbers it is that of
their doubles (`Json.compare_agrees`). -/

namespace EntityStore.Json

/-- Two numbers, two texts or two truth values. -/
inductive Comparable : Json → Json → Prop where
  | num (a b : Number) : Comparable (.num a) (.num b)
  | str (a b : String) : Comparable (.str a) (.str b)
  | bool (a b : Bool) : Comparable (.bool a) (.bool b)

variable {a b : Json}

theorem isSome_compareScalar?_iff : (compareScalar? a b).isSome ↔ Comparable a b := by
  constructor
  · intro h
    cases a <;> cases b <;> first | exact .num _ _ | exact .str _ _ | exact .bool _ _ | cases h
  · rintro ⟨⟩ <;> rfl

namespace Comparable

/-- Among comparable values the order is that of the comparison. -/
theorem compareScalar?_eq (h : Comparable a b) : compareScalar? a b = some (a.compare b) := by
  cases h <;> rfl

/-- Comparable values are equal if they tie. -/
theorem equal_eq (h : Comparable a b) : a.equal b = (a.compare b == .eq) := by
  have hcompare := h.compareScalar?_eq
  rw [Bool.eq_iff_iff, beq_iff_eq]
  cases h with
  | num a b =>
    rw [← Option.some.inj hcompare, compare_eq_iff_eq]
    exact beq_iff_eq
  | str a b =>
    rw [← Option.some.inj hcompare, Std.LawfulEqOrd.compare_eq_iff_eq]
    exact beq_iff_eq
  | bool a b => cases a <;> cases b <;> decide

/-- The tests of expressions say how two comparable values are ordered. -/
theorem apply_eq (h : Comparable a b) :
    MultiOp.apply .eq [a, b] = .bool (a.compare b).isEq ∧
      MultiOp.apply .ne [a, b] = .bool (a.compare b).isNe ∧
      MultiOp.apply .lt [a, b] = .bool (a.compare b).isLT ∧
      MultiOp.apply .lte [a, b] = .bool (a.compare b).isLE ∧
      MultiOp.apply .gt [a, b] = .bool (a.compare b).isGT ∧
      MultiOp.apply .gte [a, b] = .bool (a.compare b).isGE := by
  simp only [MultiOp.apply, MultiOp.applyBinary, MultiOp.ordered, h.compareScalar?_eq, h.equal_eq]
  cases a.compare b <;> decide

end Comparable

/-- Equal values tie, whatever their kind. -/
theorem compare_of_equal (h : a.equal b = true) : a.compare b = .eq := by
  by_cases hab : Comparable a b
  · rw [hab.equal_eq] at h
    exact eq_of_beq h
  · have hnone : compareScalar? a b = none :=
      Option.not_isSome_iff_eq_none.mp fun hsome => hab (isSome_compareScalar?_iff.mp hsome)
    have hrank : Ord.compare a.kindRank b.kindRank = .eq :=
      compare_eq_iff_eq.mpr (kindRank_of_equal h)
    rw [compare, hnone, hrank]
    rfl

/-- The order of values is a total preorder in which equal values tie. Values with a comparison are
two numbers, two texts or two truth values, and exactly one of less, equal and greater holds of
them, as the operators have it. Two numbers with finite doubles are in that relation in which their
doubles are. -/
theorem compare_agrees :
    (∀ a, compare a a = .eq) ∧ (∀ a b, compare b a = (compare a b).swap) ∧
    (∀ a b c, (compare a b).isLE = true → (compare b c).isLE = true →
      (compare a c).isLE = true) ∧
    (∀ a b, equal a b = true → compare a b = .eq) ∧
    (∀ a b, Comparable a b ↔ (compareScalar? a b).isSome) ∧
    (∀ a b, Comparable a b →
      (compareScalar? a b = some .lt ∧ equal a b = false ∧ compare a b = .lt) ∨
      (compareScalar? a b = some .eq ∧ equal a b = true ∧ compare a b = .eq) ∨
      (compareScalar? a b = some .gt ∧ equal a b = false ∧ compare a b = .gt)) ∧
    (∀ a b, Comparable a b →
      MultiOp.apply .eq [a, b] = .bool (compare a b).isEq ∧
      MultiOp.apply .ne [a, b] = .bool (compare a b).isNe ∧
      MultiOp.apply .lt [a, b] = .bool (compare a b).isLT ∧
      MultiOp.apply .lte [a, b] = .bool (compare a b).isLE ∧
      MultiOp.apply .gt [a, b] = .bool (compare a b).isGT ∧
      MultiOp.apply .gte [a, b] = .bool (compare a b).isGE) ∧
    ∀ m n : Number, m.toFloat.isFinite = true → n.toFloat.isFinite = true →
      (compare (.num m) (.num n) = .lt ↔ m.toFloat < n.toFloat) ∧
      (compare (.num m) (.num n) = .eq ↔ (m.toFloat == n.toFloat) = true) ∧
      (compare (.num m) (.num n) = .gt ↔ n.toFloat < m.toFloat) := by
  refine ⟨fun a => Std.ReflCmp.compare_self, fun a b => Std.OrientedCmp.eq_swap,
    fun a b c => Std.TransCmp.isLE_trans, fun a b => compare_of_equal,
    fun a b => isSome_compareScalar?_iff.symm, fun a b h => ?_, fun a b h => h.apply_eq,
    fun m n hm hn => ?_⟩
  · rw [h.compareScalar?_eq, h.equal_eq]
    cases compare a b
    · exact .inl ⟨rfl, rfl, rfl⟩
    · exact .inr (.inl ⟨rfl, rfl, rfl⟩)
    · exact .inr (.inr ⟨rfl, rfl, rfl⟩)
  · have hcompare : compare (.num m) (.num n) = Ord.compare m.rank n.rank := rfl
    rw [hcompare, Number.lt_iff_rank_lt hm hn, Number.beq_iff_rank_eq hm hn,
      Number.lt_iff_rank_lt hn hm]
    exact ⟨compare_lt_iff_lt, compare_eq_iff_eq, compare_gt_iff_gt⟩

/-- Nothing before a half, a half before a text, and so nothing before a text. One is a number as an
integer and as a double, and a half is below it. -/
theorem compare_agrees_one :
    let half : Number := .double ⟨Float.ofBits 0x3FE0000000000000, by decide⟩
    let one : Number := .double ⟨Float.ofBits 0x3FF0000000000000, by decide⟩
    (compare .null (.num half)).isLE = true ∧ (compare (.num half) (.str "a")).isLE = true ∧
      (compare .null (.str "a")).isLE = true ∧
    equal (.num (.int 1)) (.num one) = true ∧ compare (.num (.int 1)) (.num one) = .eq ∧
    Comparable (.num half) (.num (.int 1)) ∧ equal (.num half) (.num (.int 1)) = false ∧
      MultiOp.apply .gte [.num half, .num (.int 1)] = .bool false ∧
    half.toFloat.isFinite = true ∧ (Number.int 1).toFloat.isFinite = true ∧
      half.toFloat < (Number.int 1).toFloat := by
  intro half one
  have hleft : (compare .null (.num half)).isLE = true := rfl
  have hright : (compare (.num half) (.str "a")).isLE = true := rfl
  have hone : equal (.num (.int 1)) (.num one) = true := by decide +kernel
  have hless : compare (.num half) (.num (.int 1)) = .lt := by decide +kernel
  have hfinite : (Number.int 1).toFloat.isFinite = true := by decide +kernel
  have hcomparable : Comparable (.num half) (.num (.int 1)) := .num _ _
  obtain ⟨-, -, htrans, hequal, -, hcases, hoperators, hdoubles⟩ := compare_agrees
  refine ⟨hleft, hright, htrans _ _ _ hleft hright, hone, hequal _ _ hone, hcomparable, ?_, ?_,
    by decide, hfinite, (hdoubles half (.int 1) (by decide) hfinite).1.mp hless⟩
  · rcases hcases _ _ hcomparable with ⟨-, hne, -⟩ | ⟨-, -, htie⟩ | ⟨-, hne, -⟩
    · exact hne
    · cases hless.symm.trans htie
    · exact hne
  · obtain ⟨-, -, -, -, -, hgte⟩ := hoperators _ _ hcomparable
    rw [hgte, hless]
    rfl

end EntityStore.Json
