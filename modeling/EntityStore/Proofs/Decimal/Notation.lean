import EntityStore.Decimal.Notation
import EntityStore.Json.Token
import EntityStore.Proofs.Decimal.Shortest
import Mathlib.Data.List.DropRight

/-! However its digits are laid out, the text of a decimal stands for its value
(`Numeral.spells_magnitude`). So the text of a double says which double it is, in every format
(`Numeral.write_injective`). -/

namespace EntityStore

namespace Numeral

/-! ## What a text stands for -/

/-- The number that digits with or without a point among them stand for. -/
def significand (text : List Char) : ℚ :=
  let fraction := (text.dropWhile (· != '.')).tail
  Nat.ofDigitChars 10 (text.takeWhile (· != '.') ++ fraction) 0 / 10 ^ fraction.length

/-- The exponent that is written behind an `e`, `0` if there is none. -/
def power : List Char → ℤ
  | [] => 0
  | '-' :: ds => -(Nat.ofDigitChars 10 ds 0)
  | _ :: ds => Nat.ofDigitChars 10 ds 0

/-- The number that a text without a sign stands for. -/
def denotes (text : List Char) : ℚ :=
  significand (text.takeWhile (· != 'e')) * 10 ^ power (text.dropWhile (· != 'e')).tail

theorem takeWhile_dropWhile_sep {sep : Char} {before : List Char} (rest : List Char)
    (hbefore : sep ∉ before) (hrest : ∀ c, rest.head? = some c → c = sep) :
    (before ++ rest).takeWhile (· != sep) = before ∧
      (before ++ rest).dropWhile (· != sep) = rest := by
  have hpass : ∀ c ∈ before, (c != sep) = true := fun c hc =>
    bne_iff_ne.mpr (ne_of_mem_of_not_mem hc hbefore)
  rw [List.takeWhile_append_of_pos hpass, List.dropWhile_append_of_pos hpass]
  cases rest with
  | nil => simp
  | cons c rest => simp [hrest c rfl]

variable {whole fraction ds text : List Char} {format : Numeral}

theorem not_mem_of_isDigit {c : Char} (h : ∀ c ∈ ds, c.isDigit = true)
    (hc : c.isDigit = false) : c ∉ ds := fun hmem =>
  Bool.false_ne_true (hc.symm.trans (h c hmem))

theorem isDigit_toDigits (n : ℕ) : ∀ c ∈ Nat.toDigits 10 n, c.isDigit = true := fun _ =>
  Nat.isDigit_of_mem_toDigits (by decide) (by decide)

theorem isNumeric_of_isDigit {c : Char} (h : c.isDigit = true) : Token.isNumeric c = true := by
  simp only [Token.isNumeric, h, Bool.true_or]

theorem significand_whole (hwhole : ∀ c ∈ whole, c.isDigit = true) :
    significand whole = Nat.ofDigitChars 10 whole 0 := by
  obtain ⟨htake, hdrop⟩ := takeWhile_dropWhile_sep []
    (not_mem_of_isDigit (c := '.') hwhole rfl) (fun c h => by cases h)
  rw [List.append_nil] at htake hdrop
  simp [significand, htake, hdrop]

theorem significand_point (hwhole : ∀ c ∈ whole, c.isDigit = true) :
    significand (whole ++ '.' :: fraction) =
      Nat.ofDigitChars 10 (whole ++ fraction) 0 / 10 ^ fraction.length := by
  obtain ⟨htake, hdrop⟩ := takeWhile_dropWhile_sep ('.' :: fraction)
    (not_mem_of_isDigit hwhole rfl) (fun c h => (Option.some.inj h).symm)
  simp [significand, htake, hdrop]

/-- Digits with or without a point among them. -/
structure IsSignificand (text : List Char) : Prop where
  head : ∃ c ∈ text.head?, c.isDigit = true
  chars : ∀ c ∈ text, c.isDigit = true ∨ c = '.'

theorem head_of_digits (hds : ∀ c ∈ ds, c.isDigit = true) (hne : ds ≠ []) (rest : List Char) :
    ∃ c ∈ (ds ++ rest).head?, c.isDigit = true := by
  obtain ⟨c, ds, rfl⟩ := List.exists_cons_of_ne_nil hne
  exact ⟨c, rfl, hds c List.mem_cons_self⟩

theorem isSignificand_whole (hwhole : ∀ c ∈ whole, c.isDigit = true) (hne : whole ≠ []) :
    IsSignificand whole where
  head := by simpa using head_of_digits hwhole hne []
  chars c hc := .inl (hwhole c hc)

theorem isSignificand_point (hwhole : ∀ c ∈ whole, c.isDigit = true) (hne : whole ≠ [])
    (hfraction : ∀ c ∈ fraction, c.isDigit = true) : IsSignificand (whole ++ '.' :: fraction) where
  head := head_of_digits hwhole hne _
  chars := by
    simp only [List.mem_append, List.mem_cons]
    rintro c (hc | hc | hc)
    · exact .inl (hwhole c hc)
    · exact .inr hc
    · exact .inl (hfraction c hc)

theorem IsSignificand.not_mem (h : IsSignificand text) : 'e' ∉ text := fun hmem => by
  rcases h.chars _ hmem with he | he
  · exact absurd he (by decide)
  · exact absurd he (by decide)

/-- The text is a number without a sign, as the format writes it, and stands for `q`. -/
structure Spells (format : Numeral) (text : List Char) (q : ℚ) : Prop where
  denotes : denotes text = q
  head : ∃ c ∈ text.head?, c.isDigit = true
  chars : ∀ c ∈ text, Token.isNumeric c = true
  pointed : format.pointZero = true → '.' ∈ text ∨ 'e' ∈ text

theorem IsSignificand.isNumeric (h : IsSignificand text) :
    ∀ c ∈ text, Token.isNumeric c = true := fun c hc => by
  rcases h.chars c hc with hdigit | rfl
  · exact isNumeric_of_isDigit hdigit
  · rfl

theorem spells_positional (h : IsSignificand text) (hpoint : format.pointZero = true → '.' ∈ text) :
    Spells format text (significand text) where
  denotes := by
    obtain ⟨htake, hdrop⟩ := takeWhile_dropWhile_sep [] h.not_mem (fun c h => by cases h)
    rw [List.append_nil] at htake hdrop
    simp [Numeral.denotes, htake, hdrop, power]
  head := h.head
  chars := h.isNumeric
  pointed hformat := .inl (hpoint hformat)

theorem power_toDigits (e : ℤ) :
    power ((if e < 0 then '-' else '+') :: Nat.toDigits 10 e.natAbs) = e := by
  have hdigits : Nat.ofDigitChars 10 (Nat.toDigits 10 e.natAbs) 0 = e.natAbs :=
    Nat.ofDigitChars_ten_toDigits
  split
  · change -((Nat.ofDigitChars 10 (Nat.toDigits 10 e.natAbs) 0 : ℕ) : ℤ) = e
    omega
  · change ((Nat.ofDigitChars 10 (Nat.toDigits 10 e.natAbs) 0 : ℕ) : ℤ) = e
    omega

theorem spells_scientific (h : IsSignificand text) (e : ℤ) :
    Spells format (text ++ 'e' :: (if e < 0 then '-' else '+') :: Nat.toDigits 10 e.natAbs)
      (significand text * 10 ^ e) where
  denotes := by
    obtain ⟨htake, hdrop⟩ := takeWhile_dropWhile_sep
      ('e' :: (if e < 0 then '-' else '+') :: Nat.toDigits 10 e.natAbs) h.not_mem
      (fun c h => (Option.some.inj h).symm)
    rw [Numeral.denotes, htake, hdrop, List.tail_cons, power_toDigits]
  head := by
    obtain ⟨c, hc, hdigit⟩ := h.head
    exact ⟨c, List.mem_head?_append_of_mem_head? hc, hdigit⟩
  chars := by
    simp only [List.mem_append, List.mem_cons]
    rintro c (hc | rfl | rfl | hc)
    · exact h.isNumeric c hc
    · rfl
    · split <;> rfl
    · exact isNumeric_of_isDigit (isDigit_toDigits _ c hc)
  pointed _ := .inr (by simp)

/-! ## Digits -/

/-- The number that digits stand for, the first one standing for a multiple of `10 ^ e`. -/
def digitsValue (ds : List Char) (e : ℤ) : ℚ :=
  Nat.ofDigitChars 10 ds 0 * 10 ^ (e + 1 - ds.length)

theorem digitsValue_eq_mul {e : ℤ} {n : ℕ} (h : e + 1 = ds.length + n) :
    digitsValue ds e = Nat.ofDigitChars 10 ds 0 * 10 ^ n := by
  rw [digitsValue, show e + 1 - ds.length = n by omega, zpow_natCast]

theorem digitsValue_eq_div {e : ℤ} {n : ℕ} (h : e + 1 + n = ds.length) :
    digitsValue ds e = Nat.ofDigitChars 10 ds 0 / 10 ^ n := by
  rw [digitsValue, show e + 1 - ds.length = -n by omega, zpow_neg, zpow_natCast, div_eq_mul_inv]

theorem ofDigitChars_append_zeros (ds : List Char) (n : ℕ) :
    Nat.ofDigitChars 10 (ds ++ List.replicate n '0') 0 = Nat.ofDigitChars 10 ds 0 * 10 ^ n := by
  rw [Nat.ofDigitChars_append, Nat.ofDigitChars_replicate_zero, Nat.mul_comm]

theorem ofDigitChars_zeros_append (ds : List Char) (n : ℕ) :
    Nat.ofDigitChars 10 (List.replicate n '0' ++ ds) 0 = Nat.ofDigitChars 10 ds 0 := by
  rw [Nat.ofDigitChars_append, Nat.ofDigitChars_replicate_zero, Nat.mul_zero]

theorem isDigit_zeros (n : ℕ) : ∀ c ∈ List.replicate n '0', c.isDigit = true := fun c hc => by
  rw [List.eq_of_mem_replicate hc]
  rfl

theorem isDigit_zero : ∀ c ∈ ['0'], c.isDigit = true := isDigit_zeros 1

theorem eq_rdropWhile_append_zeros (ds : List Char) :
    ∃ n, ds = ds.rdropWhile (· == '0') ++ List.replicate n '0' := by
  induction ds using List.reverseRecOn with
  | nil => exact ⟨0, rfl⟩
  | append_singleton ds c ih =>
    by_cases hc : (c == '0') = true
    · obtain ⟨n, hn⟩ := ih
      refine ⟨n + 1, ?_⟩
      rw [List.rdropWhile_concat_pos (· == '0') ds c hc, List.replicate_succ', ← List.append_assoc,
        ← hn, beq_iff_eq.mp hc]
    · refine ⟨0, ?_⟩
      rw [List.rdropWhile_concat_neg (· == '0') ds c hc, List.replicate_zero, List.append_nil]

/-- The digits of a decimal, and the exponent of the first one; one digit if it is zero. -/
def firstDigits (d : Decimal) : List Char × ℤ :=
  if d.significand = 0 then (['0'], 0) else digits d

theorem isDigit_firstDigits (d : Decimal) : ∀ c ∈ (firstDigits d).1, c.isDigit = true := by
  unfold firstDigits digits
  split
  case isTrue => exact isDigit_zero
  case isFalse =>
    dsimp only
    split
    · exact isDigit_zero
    · intro c hc
      exact isDigit_toDigits _ c ((List.rdropWhile_prefix (· == '0') _).subset hc)

theorem firstDigits_ne_nil (d : Decimal) : (firstDigits d).1 ≠ [] := by
  unfold firstDigits digits
  split
  case isTrue => decide
  case isFalse =>
    dsimp only
    split
    · decide
    case isFalse hne => exact fun h => hne (List.isEmpty_iff.mpr h)

theorem digitsValue_firstDigits (d : Decimal) :
    digitsValue (firstDigits d).1 (firstDigits d).2 = d.value := by
  unfold firstDigits
  split
  case isTrue hzero => simp [digitsValue, Decimal.value, hzero, Nat.ofDigitChars_cons]
  case isFalse hpos =>
    obtain ⟨n, hn⟩ := eq_rdropWhile_append_zeros (Nat.toDigits 10 d.significand)
    have hvalue := congrArg (Nat.ofDigitChars 10 · 0) hn
    have hlength := congrArg List.length hn
    simp only [Nat.ofDigitChars_ten_toDigits, ofDigitChars_append_zeros] at hvalue
    rw [List.length_append, List.length_replicate] at hlength
    have hkept : ((Nat.toDigits 10 d.significand).rdropWhile (· == '0')).isEmpty = false := by
      rw [List.isEmpty_eq_false_iff]
      intro hnil
      rw [hnil, Nat.ofDigitChars_nil, Nat.zero_mul] at hvalue
      exact hpos hvalue
    have hdigits : digits d = ((Nat.toDigits 10 d.significand).rdropWhile (· == '0'),
        d.exponent + (Nat.toDigits 10 d.significand).length - 1) := by
      unfold digits
      rw [List.rdropWhile] at hkept ⊢
      simp only [hkept]
      rfl
    rw [hdigits]
    simp only [digitsValue, Decimal.value, hlength]
    rw [show d.exponent + ((_ + n : ℕ) : ℤ) - 1 + 1 - _ = n + d.exponent by push_cast; ring]
    conv_rhs => rw [hvalue]
    push_cast
    rw [zpow_add₀ (by norm_num), zpow_natCast]
    ring

/-! ## Layouts -/

/-- Digits laid out in a format, the first one standing for a multiple of `10 ^ e`. -/
def layout (format : Numeral) (ds : List Char) (e : ℤ) : List Char :=
  let zeros (n : Nat) : List Char := List.replicate n '0'
  if format.positional e then
    match e with
    | .negSucc k => ['0', '.'] ++ zeros k ++ ds
    | .ofNat k =>
      let whole := ds.take (k + 1) ++ zeros (k + 1 - ds.length)
      match ds.drop (k + 1) with
      | [] => whole ++ if format.pointZero then ['.', '0'] else []
      | fraction => whole ++ '.' :: fraction
  else
    let mantissa := match ds with
      | first :: second :: rest => first :: '.' :: second :: rest
      | _ => ds
    let sign := if e < 0 then '-' else '+'
    mantissa ++ 'e' :: sign :: Nat.toDigits 10 e.natAbs

theorem magnitude_eq (format : Numeral) (d : Decimal) :
    format.magnitude d = format.layout (firstDigits d).1 (firstDigits d).2 := by
  unfold magnitude firstDigits
  generalize (if d.significand = 0 then (['0'], 0) else digits d) = first
  rfl

theorem spells_negSucc (k : ℕ) (hds : ∀ c ∈ ds, c.isDigit = true)
    (hpositional : format.positional (.negSucc k) = true) :
    Spells format (format.layout ds (.negSucc k)) (digitsValue ds (.negSucc k)) := by
  have htext : format.layout ds (.negSucc k) = ['0'] ++ '.' :: (List.replicate k '0' ++ ds) := by
    unfold layout
    rw [if_pos hpositional]
    rfl
  have hzero : '0' :: (List.replicate k '0' ++ ds) = List.replicate (k + 1) '0' ++ ds := rfl
  have hvalue : significand (['0'] ++ '.' :: (List.replicate k '0' ++ ds)) =
      digitsValue ds (.negSucc k) := by
    rw [significand_point (isDigit_zero), List.singleton_append, hzero, ofDigitChars_zeros_append,
      digitsValue_eq_div (n := k + ds.length) (by omega), List.length_append, List.length_replicate]
  rw [htext, ← hvalue]
  exact spells_positional (isSignificand_point (isDigit_zero) (List.cons_ne_nil _ _)
    (List.forall_mem_append.mpr ⟨isDigit_zeros k, hds⟩)) fun _ => by simp

theorem spells_ofNat (k : ℕ) (hds : ∀ c ∈ ds, c.isDigit = true) (hne : ds ≠ [])
    (hpositional : format.positional (.ofNat k) = true) :
    Spells format (format.layout ds (.ofNat k)) (digitsValue ds (.ofNat k)) := by
  unfold layout
  rw [if_pos hpositional]
  dsimp only
  split
  case h_1 hdrop =>
    -- All digits stand before the point.
    obtain ⟨n, hn⟩ := Nat.exists_eq_add_of_le (List.drop_eq_nil_iff.mp hdrop)
    have hwhole : ∀ c ∈ ds ++ List.replicate n '0', c.isDigit = true :=
      List.forall_mem_append.mpr ⟨hds, isDigit_zeros n⟩
    have hsome : ds ++ List.replicate n '0' ≠ [] := List.append_ne_nil_of_left_ne_nil hne _
    have hdigits : digitsValue ds (.ofNat k) =
        Nat.ofDigitChars 10 (ds ++ List.replicate n '0') 0 := by
      rw [digitsValue_eq_mul (n := n) (by simp only [Int.ofNat_eq_natCast]; omega),
        ofDigitChars_append_zeros]
      push_cast
      rfl
    rw [List.take_of_length_le (by omega), show k + 1 - ds.length = n by omega, hdigits]
    split
    case isTrue =>
      have hvalue : significand (ds ++ List.replicate n '0' ++ ['.', '0']) =
          Nat.ofDigitChars 10 (ds ++ List.replicate n '0') 0 := by
        rw [significand_point hwhole, ← List.replicate_one, ofDigitChars_append_zeros]
        simp
      rw [← hvalue]
      exact spells_positional (isSignificand_point hwhole hsome (isDigit_zero)) fun _ => by simp
    case isFalse hformat =>
      rw [List.append_nil, ← significand_whole hwhole]
      exact spells_positional (isSignificand_whole hwhole hsome) fun h => absurd h hformat
  case h_2 hdrop =>
    have hlength : k + 1 < ds.length := by
      rw [← Nat.not_le, ← List.drop_eq_nil_iff]
      exact hdrop
    have hwhole : ∀ c ∈ ds.take (k + 1), c.isDigit = true := fun c hc =>
      hds c (List.mem_of_mem_take hc)
    have hfraction : ∀ c ∈ ds.drop (k + 1), c.isDigit = true := fun c hc =>
      hds c (List.mem_of_mem_drop hc)
    have hvalue : significand (ds.take (k + 1) ++ '.' :: ds.drop (k + 1)) =
        digitsValue ds (.ofNat k) := by
      rw [significand_point hwhole, List.take_append_drop, List.length_drop,
        digitsValue_eq_div (n := ds.length - (k + 1))]
      simp only [Int.ofNat_eq_natCast]
      omega
    rw [Nat.sub_eq_zero_of_le hlength.le, List.replicate_zero, List.append_nil, ← hvalue]
    refine spells_positional (isSignificand_point hwhole ?_ hfraction) fun _ => by simp
    exact fun h => by simp [hne] at h

theorem spells_exponent (e : ℤ) (hds : ∀ c ∈ ds, c.isDigit = true) (hne : ds ≠ [])
    (hpositional : format.positional e = false) :
    Spells format (format.layout ds e) (digitsValue ds e) := by
  unfold layout
  rw [if_neg (Bool.eq_false_iff.mp hpositional)]
  rcases ds with - | ⟨first, - | ⟨second, rest⟩⟩
  · exact absurd rfl hne
  · have hvalue : digitsValue [first] e = significand [first] * 10 ^ e := by
      simp [digitsValue, significand_whole hds]
    rw [hvalue]
    exact spells_scientific (isSignificand_whole hds hne) e
  · have hfirst : ∀ c ∈ [first], c.isDigit = true := by simpa using hds first List.mem_cons_self
    have hrest : ∀ c ∈ second :: rest, c.isDigit = true := fun c hc =>
      hds c (List.mem_cons_of_mem _ hc)
    have hvalue : digitsValue (first :: second :: rest) e =
        significand ([first] ++ '.' :: second :: rest) * 10 ^ e := by
      rw [significand_point hfirst, List.singleton_append, digitsValue]
      simp only [List.length_cons]
      rw [show e + 1 - ((rest.length + 1 + 1 : ℕ) : ℤ) = e - (rest.length + 1 : ℕ) by omega,
        zpow_sub₀ (by norm_num), zpow_natCast]
      ring
    rw [hvalue]
    exact spells_scientific (isSignificand_point hfirst (List.cons_ne_nil _ _) hrest) e

/-- Digits stand for the same number in every layout. -/
theorem spells_layout (e : ℤ) (hds : ∀ c ∈ ds, c.isDigit = true) (hne : ds ≠ []) :
    Spells format (format.layout ds e) (digitsValue ds e) := by
  cases hpositional : format.positional e with
  | false => exact spells_exponent e hds hne hpositional
  | true =>
    cases e with
    | negSucc k => exact spells_negSucc k hds hpositional
    | ofNat k => exact spells_ofNat k hds hne hpositional

theorem spells_magnitude (format : Numeral) (d : Decimal) :
    Spells format (format.magnitude d) d.value := by
  rw [magnitude_eq, ← digitsValue_firstDigits]
  exact spells_layout _ (isDigit_firstDigits d) (firstDigits_ne_nil d)

end Numeral

/-! ## Doubles -/

theorem Dyadic.ext {d d' : Dyadic} (hnegative : d.negative = d'.negative)
    (hmantissa : d.mantissa = d'.mantissa) (hexponent : d.exponent = d'.exponent) : d = d' := by
  cases d
  cases d'
  cases hnegative
  cases hmantissa
  cases hexponent
  rfl

theorem float_eq_of_bits {x y : Float} (h : x.toBits.toNat = y.toBits.toNat) : x = y := by
  obtain ⟨⟨bits, hvalid⟩⟩ := x
  obtain ⟨⟨bits', hvalid'⟩⟩ := y
  cases UInt64.toNat_inj.mp h
  rfl

theorem Dyadic.ofFloat_injective : Function.Injective ofFloat := by
  intro x y h
  refine float_eq_of_bits ?_
  have hx : x.toBits.toNat < 2 ^ 64 := x.toBits.toNat_lt
  have hy : y.toBits.toNat < 2 ^ 64 := y.toBits.toNat_lt
  have hsign := congrArg negative h
  have hmantissa := congrArg mantissa h
  have hexponent := congrArg exponent h
  simp only [ofFloat, Nat.pow_eq, decide_eq_decide] at hsign hmantissa hexponent
  generalize x.toBits.toNat = m at *
  generalize y.toBits.toNat = n at *
  split at hmantissa <;> split at hmantissa <;> simp_all only [if_true, if_false] <;> omega

namespace Numeral

variable {format : Numeral} {x : Float}

theorem toList_write (format : Numeral) (x : Float) : (format.write x).toList =
    (if (Dyadic.ofFloat x).negative then ['-'] else []) ++
      format.magnitude (Decimal.shortest (.ofFloat x)) := by
  unfold write
  dsimp only
  rw [String.toList_ofList]
  split <;> rfl

theorem magnitude_ne_cons (format : Numeral) (d : Decimal) (rest : List Char) :
    format.magnitude d ≠ '-' :: rest := fun h => by
  obtain ⟨c, hc, hdigit⟩ := (spells_magnitude format d).head
  rw [h] at hc
  cases hc
  exact absurd hdigit (by decide)

theorem value_of_magnitude {d d' : Decimal} (h : format.magnitude d = format.magnitude d') :
    d.value = d'.value := by
  rw [← (spells_magnitude format d).denotes, h, (spells_magnitude format d').denotes]

/-- The text of a double says which double it is, the sign of a zero included. -/
theorem write_injective (format : Numeral) : Function.Injective format.write := by
  intro x y h
  have hlist := congrArg String.toList h
  rw [toList_write, toList_write] at hlist
  have hsign : (Dyadic.ofFloat x).negative = (Dyadic.ofFloat y).negative := by
    cases hx : (Dyadic.ofFloat x).negative <;> cases hy : (Dyadic.ofFloat y).negative
    case false.true =>
      rw [hx, hy] at hlist
      exact absurd hlist (magnitude_ne_cons format _ _)
    case true.false =>
      rw [hx, hy] at hlist
      exact absurd hlist.symm (magnitude_ne_cons format _ _)
    all_goals rfl
  rw [hsign, List.append_cancel_left_eq] at hlist
  obtain ⟨hmantissa, hexponent⟩ := Decimal.eq_of_value_shortest (Dyadic.normal_ofFloat x)
    (Dyadic.normal_ofFloat y) (value_of_magnitude hlist)
  exact Dyadic.ofFloat_injective (Dyadic.ext hsign hmantissa hexponent)

theorem isNumeric_write (format : Numeral) (x : Float) :
    ∀ c ∈ (format.write x).toList, Token.isNumeric c = true := by
  rw [toList_write]
  refine List.forall_mem_append.mpr ⟨?_, (spells_magnitude format _).chars⟩
  split
  · exact List.forall_mem_singleton.mpr rfl
  · exact List.forall_mem_nil _

theorem pointed_write (format : Numeral) (hformat : format.pointZero = true) (x : Float) :
    '.' ∈ (format.write x).toList ∨ 'e' ∈ (format.write x).toList := by
  rw [toList_write]
  exact ((spells_magnitude format _).pointed hformat).imp (List.mem_append_right _)
    (List.mem_append_right _)

end Numeral

end EntityStore
