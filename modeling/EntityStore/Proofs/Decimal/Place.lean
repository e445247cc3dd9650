import EntityStore.Proofs.Decimal.Shortest

/-! The places of doubles. The bits of a finite double, read as a number with a sign, are its place
among all doubles: two of them compare as machine doubles just as their places do
(`Number.compare_rank`). So the order of numbers is that of doubles, and it is total on the finite
ones. -/

namespace EntityStore

namespace Dyadic

open Float.Model Float.Model.UnpackedFloat

/-- The sign of a double. -/
def sign (d : Dyadic) : Sign := if d.negative then .negative else .positive

/-- A double taken apart as the operations on doubles have it. -/
def unpacked (d : Dyadic) : UnpackedFloat :=
  if h : 0 < d.mantissa then .finite d.sign d.mantissa d.exponent h else .zero d.sign

/-! ## Bits -/

section

variable (x : Float)

theorem ofBitVec_unpackSign :
    Sign.ofBitVec (@unpackSign Format.binary64 x.toBits.toBitVec) = (ofFloat x).sign := by
  have hbit : (@unpackSign Format.binary64 x.toBits.toBitVec).toNat =
      x.toBits.toNat / 2 ^ 63 % 2 := by
    change ((x.toBits.toBitVec.extractLsb 63 63).cast _).toNat = _
    simp [Nat.shiftRight_eq_div_pow]
  have hlt : x.toBits.toNat < 2 ^ 64 := x.toBits.toNat_lt
  have hiff : @unpackSign Format.binary64 x.toBits.toBitVec = 0#1 ↔ ¬ 2 ^ 63 ≤ x.toBits.toNat := by
    rw [BitVec.toNat_eq, hbit, BitVec.toNat_ofNat]
    omega
  simp only [Sign.ofBitVec, sign, ofFloat, hiff, Nat.pow_eq, decide_eq_true_eq, ite_not]

theorem toNat_unpackExponent : (@unpackExponent Format.binary64 x.toBits.toBitVec).toNat =
    x.toBits.toNat / 2 ^ 52 % 2 ^ 11 := by
  simp [unpackExponent, Nat.shiftRight_eq_div_pow]

theorem toNat_unpackMantissa : (@unpackMantissa Format.binary64 x.toBits.toBitVec).toNat =
    x.toBits.toNat % 2 ^ 52 := by
  simp [unpackMantissa]

end

variable {x y : Float} {d d' : Dyadic}

theorem unpacked_of_pos (h : 0 < d.mantissa) :
    d.unpacked = .finite d.sign d.mantissa d.exponent h := dif_pos h

theorem unpacked_of_not_pos (h : ¬ 0 < d.mantissa) : d.unpacked = .zero d.sign := dif_neg h

theorem unpacked_eq {m : ℕ} {e : ℤ} (h : 0 < m) (hmantissa : d.mantissa = m)
    (hexponent : d.exponent = e) : d.unpacked = .finite d.sign m e h := by
  subst hmantissa hexponent
  exact unpacked_of_pos h

/-- A finite double has the sign, the mantissa and the exponent that are read off its bits. -/
theorem unpack_eq_unpacked (h : x.isFinite = true) : x.toModel.unpack = (ofFloat x).unpacked := by
  have hfinite : x.toModel.unpack.isFinite = true := h
  have hexponent := toNat_unpackExponent x
  have hmantissa := toNat_unpackMantissa x
  have hunpack : x.toModel.unpack = UnpackedFloat.unpack Format.binary64 x.toBits.toBitVec := rfl
  rw [hunpack] at hfinite ⊢
  unfold UnpackedFloat.unpack at hfinite ⊢
  dsimp only at hfinite ⊢
  rw [ofBitVec_unpackSign] at hfinite ⊢
  by_cases hinfinite : @unpackExponent Format.binary64 x.toBits.toBitVec = -1#_
  · rw [if_pos hinfinite] at hfinite
    split at hfinite <;> cases hfinite
  rw [if_neg hinfinite]
  by_cases hsmall : @unpackExponent Format.binary64 x.toBits.toBitVec = 0#_
  · rw [if_pos hsmall]
    rw [hsmall] at hexponent ⊢
    have hbiased : x.toBits.toNat / Nat.pow 2 52 % Nat.pow 2 11 = 0 := hexponent.symm
    by_cases hzero : @unpackMantissa Format.binary64 x.toBits.toBitVec = 0#_
    · rw [dif_pos hzero]
      rw [hzero] at hmantissa
      have hnone : (ofFloat x).mantissa = 0 := by
        simp only [ofFloat, if_pos hbiased]
        exact hmantissa.symm
      rw [unpacked_of_not_pos (by omega)]
    · rw [dif_neg hzero]
      refine (unpacked_eq _ ?_ ?_).symm
      · simp only [ofFloat, if_pos hbiased]
        exact hmantissa.symm
      · simp only [ofFloat, if_pos hbiased]
        rfl
  · rw [if_neg hsmall]
    have hbiased : ¬ x.toBits.toNat / Nat.pow 2 52 % Nat.pow 2 11 = 0 := fun hzero =>
      hsmall (BitVec.eq_of_toNat_eq (hexponent.trans hzero))
    refine (unpacked_eq _ ?_ ?_).symm
    · simp only [ofFloat, if_neg hbiased]
      rw [BitVec.toNat_append, ← Nat.shiftLeft_add_eq_or_of_lt (BitVec.isLt _), hmantissa]
      rfl
    · simp only [ofFloat, if_neg hbiased, hexponent]
      rfl

/-! ## Places -/

/-- The place of a magnitude among those of all doubles. -/
def magnitudePlace (d : Dyadic) : ℤ := (d.exponent + 1074) * 2 ^ 52 + d.mantissa

/-- The place of a double among all doubles; both zeros are in one place. -/
def place (d : Dyadic) : ℤ := if d.negative then -d.magnitudePlace else d.magnitudePlace

theorem place_zero (hd : d.Normal) (h : d.mantissa = 0) : d.place = 0 := by
  have hlowest : d.exponent = -1074 := by
    by_contra hne
    have hfull := hd.full hne
    omega
  have hzero : d.magnitudePlace = 0 := by
    rw [magnitudePlace, hlowest, h]
    rfl
  rw [place, hzero]
  exact ite_self 0

/-- The places of the positive doubles are positive, and those of the negative ones negative. -/
theorem sign_cases (hd : d.Normal) (h : 0 < d.mantissa) :
    (d.sign = .positive ∧ d.place = d.magnitudePlace ∧ 0 < d.place) ∨
      (d.sign = .negative ∧ d.place = -d.magnitudePlace ∧ d.place < 0) := by
  have hpos : 0 < d.magnitudePlace := by
    have hlowest := hd.lowest
    unfold magnitudePlace
    omega
  unfold sign place
  split
  · exact .inr ⟨rfl, rfl, by omega⟩
  · exact .inl ⟨rfl, rfl, hpos⟩

/-- The larger exponent makes the larger magnitude, and the mantissas decide between magnitudes of
one exponent. -/
theorem compare_magnitudePlace (hd : d.Normal) (hd' : d'.Normal) :
    (compare d.exponent d'.exponent).then (compare d.mantissa d'.mantissa) =
      compare d.magnitudePlace d'.magnitudePlace := by
  have hless {a b : Dyadic} (ha : a.Normal) (hb : b.Normal) (h : a.exponent < b.exponent) :
      a.magnitudePlace < b.magnitudePlace := by
    -- One step up every mantissa is full, so none of the doubles below reaches it.
    have hmantissa := ha.mantissa_lt
    have hfull := hb.full (by have := ha.lowest; omega)
    unfold magnitudePlace
    omega
  rcases lt_trichotomy d.exponent d'.exponent with h | h | h
  · rw [compare_lt_iff_lt.mpr h, compare_lt_iff_lt.mpr (hless hd hd' h)]
    rfl
  · rw [compare_eq_iff_eq.mpr h, Ordering.then, magnitudePlace, magnitudePlace, h]
    rcases lt_trichotomy d.mantissa d'.mantissa with hm | hm | hm
    · rw [compare_lt_iff_lt.mpr hm, compare_lt_iff_lt.mpr (by omega)]
    · rw [compare_eq_iff_eq.mpr hm, compare_eq_iff_eq.mpr (by omega)]
    · rw [compare_gt_iff_gt.mpr hm, compare_gt_iff_gt.mpr (by omega)]
  · rw [compare_gt_iff_gt.mpr h, compare_gt_iff_gt.mpr (hless hd' hd h)]
    rfl

theorem compare_neg_neg (a b : ℤ) : compare (-a) (-b) = (compare a b).swap := by
  rcases lt_trichotomy a b with h | h | h
  · rw [compare_lt_iff_lt.mpr h, compare_gt_iff_gt.mpr (by omega)]
    rfl
  · rw [compare_eq_iff_eq.mpr h, compare_eq_iff_eq.mpr (by omega)]
    rfl
  · rw [compare_gt_iff_gt.mpr h, compare_lt_iff_lt.mpr (by omega)]
    rfl

/-- Doubles compare as their places do. -/
theorem compare_unpacked (hd : d.Normal) (hd' : d'.Normal) :
    d.unpacked.compare d'.unpacked = some (compare d.place d'.place) := by
  by_cases h : 0 < d.mantissa <;> by_cases h' : 0 < d'.mantissa
  · rw [unpacked_of_pos h, unpacked_of_pos h']
    have hmagnitudes := compare_magnitudePlace hd hd'
    rcases sign_cases hd h with ⟨hs, hp, hsign⟩ | ⟨hs, hp, hsign⟩ <;>
      rcases sign_cases hd' h' with ⟨hs', hp', hsign'⟩ | ⟨hs', hp', hsign'⟩ <;>
      rw [hs, hs']
    · rw [hp, hp', ← hmagnitudes]
      rfl
    · rw [compare_gt_iff_gt.mpr (hsign'.trans hsign)]
      rfl
    · rw [compare_lt_iff_lt.mpr (hsign.trans hsign')]
      rfl
    · rw [hp, hp', compare_neg_neg, ← hmagnitudes]
      rfl
  · rw [unpacked_of_pos h, unpacked_of_not_pos h', place_zero hd' (by omega)]
    rcases sign_cases hd h with ⟨hs, -, hsign⟩ | ⟨hs, -, hsign⟩
    · rw [hs, compare_gt_iff_gt.mpr hsign]
      rfl
    · rw [hs, compare_lt_iff_lt.mpr hsign]
      rfl
  · rw [unpacked_of_not_pos h, unpacked_of_pos h', place_zero hd (by omega)]
    rcases sign_cases hd' h' with ⟨hs, -, hsign⟩ | ⟨hs, -, hsign⟩
    · rw [hs, compare_lt_iff_lt.mpr hsign]
      rfl
    · rw [hs, compare_gt_iff_gt.mpr hsign]
      rfl
  · rw [unpacked_of_not_pos h, unpacked_of_not_pos h', place_zero hd (by omega),
      place_zero hd' (by omega)]
    rfl

end Dyadic

/-! ## Numbers -/

namespace Number

variable {a b : Number}

theorem rank_eq_place (n : Number) : n.rank = (Dyadic.ofFloat n.toFloat).place := by
  have hlt : n.toFloat.toBits.toNat < 2 ^ 64 := n.toFloat.toBits.toNat_lt
  simp only [rank, Dyadic.place, Dyadic.magnitudePlace, Dyadic.ofFloat, Nat.pow_eq,
    decide_eq_true_eq]
  split <;> split <;> split <;> push_cast <;> omega

theorem compare_rank (ha : a.toFloat.isFinite = true) (hb : b.toFloat.isFinite = true) :
    a.toFloat.toModel.unpack.compare b.toFloat.toModel.unpack =
      some (compare a.rank b.rank) := by
  rw [Dyadic.unpack_eq_unpacked ha, Dyadic.unpack_eq_unpacked hb, rank_eq_place, rank_eq_place]
  exact Dyadic.compare_unpacked (Dyadic.normal_ofFloat _) (Dyadic.normal_ofFloat _)

/-- The order of numbers is that of their doubles. -/
theorem lt_iff_rank_lt (ha : a.toFloat.isFinite = true) (hb : b.toFloat.isFinite = true) :
    a.toFloat < b.toFloat ↔ a.rank < b.rank := by
  have hlt : a.toFloat < b.toFloat ↔
      (a.toFloat.toModel.unpack.compare b.toFloat.toModel.unpack == some .lt) = true :=
    decide_eq_true_iff
  rw [hlt, compare_rank ha hb, beq_iff_eq, Option.some.injEq, compare_lt_iff_lt]

theorem beq_iff_rank_eq (ha : a.toFloat.isFinite = true) (hb : b.toFloat.isFinite = true) :
    (a.toFloat == b.toFloat) = true ↔ a.rank = b.rank := by
  have hbeq : (a.toFloat == b.toFloat) = true ↔
      (a.toFloat.toModel.unpack.compare b.toFloat.toModel.unpack == some .eq) = true := Iff.rfl
  rw [hbeq, compare_rank ha hb, beq_iff_eq, Option.some.injEq, compare_eq_iff_eq]

end Number

end EntityStore
