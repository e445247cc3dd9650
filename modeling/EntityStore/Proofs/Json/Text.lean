import EntityStore.Json.Compare
import EntityStore.Proofs.Decimal.Notation
import EntityStore.Proofs.Json.Scan
import Mathlib.Tactic.FinCases

/-! The compact text of a value says which value it is (`Json.render_injective`). The pieces of a
text follow one another without a gap, so the induction is about a text with something behind it:
a value ends where it ends, whatever follows (`Json.render_append_inj`). -/

namespace EntityStore

/-! ## Numbers -/

theorem isNumeric_toDigits (n : ℕ) : ∀ c ∈ Nat.toDigits 10 n, Token.isNumeric c = true :=
  fun c hc => Numeral.isNumeric_of_isDigit (Numeral.isDigit_toDigits n c hc)

theorem toDigits_injective : Function.Injective (Nat.toDigits 10) := fun m n h => by
  rw [← Nat.ofDigitChars_ten_toDigits (n := m), h, Nat.ofDigitChars_ten_toDigits]

theorem not_mem_toDigits {c : Char} (hc : c.isDigit = false) (n : ℕ) : c ∉ Nat.toDigits 10 n :=
  Numeral.not_mem_of_isDigit (Numeral.isDigit_toDigits n) hc

theorem intDigits_injective : Function.Injective intDigits := by
  intro m n h
  unfold intDigits at h
  split at h <;> split at h
  · have := toDigits_injective (List.cons.inj h).2
    omega
  · exact absurd (h ▸ List.mem_cons_self) (not_mem_toDigits (by decide) _)
  · exact absurd (h ▸ List.mem_cons_self) (not_mem_toDigits (by decide) _)
  · have := toDigits_injective h
    omega

theorem isNumeric_intDigits (n : ℤ) : ∀ c ∈ intDigits n, Token.isNumeric c = true := by
  unfold intDigits
  split
  · exact List.forall_mem_cons.mpr ⟨rfl, isNumeric_toDigits _⟩
  · exact isNumeric_toDigits _

/-- No integer is written with a point or an exponent. -/
theorem not_mem_intDigits {c : Char} (hdigit : c.isDigit = false) (hsign : c ≠ '-') (n : ℤ) :
    c ∉ intDigits n := by
  unfold intDigits
  split
  · exact List.not_mem_cons_of_ne_of_not_mem hsign (not_mem_toDigits hdigit _)
  · exact not_mem_toDigits hdigit _

theorem Number.isNumeric_text (n : Number) : ∀ c ∈ n.text.toList, Token.isNumeric c = true := by
  cases n with
  | int value =>
    rw [text, String.toList_ofList]
    exact isNumeric_intDigits value
  | double value => exact Numeral.isNumeric_write _ _

theorem Number.text_ne_nil (n : Number) : n.text.toList ≠ [] := by
  cases n with
  | int value =>
    rw [text, String.toList_ofList]
    unfold intDigits
    split
    · exact List.cons_ne_nil _ _
    · exact Nat.toDigits_ne_nil
  | double value =>
    rcases Numeral.pointed_write .json rfl value.toFloat with hmem | hmem <;>
      exact List.ne_nil_of_mem hmem

theorem Number.text_injective : Function.Injective text := by
  have hapart (m : ℤ) (x : Double) : (int m).text ≠ (double x).text := fun h => by
    have hlist : intDigits m = (Numeral.json.write x.toFloat).toList := by
      rw [← String.toList_ofList (l := intDigits m)]
      exact congrArg String.toList h
    rcases Numeral.pointed_write .json rfl x.toFloat with hmem | hmem <;>
      rw [← hlist] at hmem <;> exact absurd hmem (not_mem_intDigits (by decide) (by decide) m)
  intro a b h
  cases a with
  | int m =>
    cases b with
    | int n => exact congrArg int (intDigits_injective (String.ofList_injective h))
    | double y => exact absurd h (hapart m y)
  | double x =>
    cases b with
    | int n => exact absurd h.symm (hapart n x)
    | double y =>
      obtain ⟨x, hx⟩ := x
      obtain ⟨y, hy⟩ := y
      cases Numeral.write_injective _ h
      rfl

/-! ## Strings -/

namespace Json

/-- What the reader takes an escaped character for: the character itself or, if there is no shorter
form for it, its code. -/
def piece (c : Char) : Token.Piece :=
  if c < ' ' ∧ c ∉ ['\n', '\r', '\t', '\x08', '\x0c'] then .unit c.toNat else .char c

theorem piece_injective : Function.Injective piece := by
  intro c d h
  unfold piece at h
  split at h <;> split at h
  · exact Char.toNat_inj.mp (Token.Piece.unit.inj h)
  · cases h
  · cases h
  · exact Token.Piece.char.inj h

theorem writes_escape (c : Char) : Token.Writes c (escape c) (piece c) := by
  by_cases hshort : c ∈ ['"', '\\', '\n', '\r', '\t', '\x08', '\x0c']
  · fin_cases hshort <;> exact .short (by decide) rfl
  · simp only [List.mem_cons, List.not_mem_nil, or_false, not_or] at hshort
    obtain ⟨hquote, hslash, hn, hr, ht, hb, hf⟩ := hshort
    simp only [escape, piece, hquote, hslash, hn, hr, ht, hb, hf, if_false, List.mem_cons,
      List.not_mem_nil, or_self, not_false_eq_true, and_true]
    by_cases hcontrol : c < ' '
    · rw [if_pos hcontrol, if_pos hcontrol]
      exact .code (Nat.lt_trans hcontrol (by decide : 0x20 < 0x100))
    · rw [if_neg hcontrol, if_neg hcontrol]
      exact .plain hquote hslash hcontrol

theorem toList_quote (text : String) :
    (quote text).toList = '"' :: (text.toList.flatMap escape ++ ['"']) := by
  simp [quote]

theorem quote_append_inj {a b : String} {rest rest' : List Char}
    (h : (quote a).toList ++ rest = (quote b).toList ++ rest') : a = b ∧ rest = rest' := by
  rw [toList_quote, toList_quote, List.cons_append, List.cons_append, List.append_assoc,
    List.append_assoc, List.singleton_append, List.singleton_append] at h
  have hread := Token.stringPieces_flatMap writes_escape a.toList rest
  rw [(List.cons.inj h).2, Token.stringPieces_flatMap writes_escape] at hread
  obtain ⟨hpieces, hrest⟩ := Prod.mk.inj (Option.some.inj hread)
  have htext := List.map_injective_iff.mpr piece_injective hpieces
  exact ⟨(String.toList_injective htext).symm, hrest.symm⟩

/-! ## Values -/

/-- The kind of a value by the character that its text begins with; no text begins with any other
character. -/
def kindOf (c : Char) : Nat :=
  if c = 'n' then 0
  else if c = 't' ∨ c = 'f' then 1
  else if c = '"' then 3
  else if c = '[' then 4
  else if c = '\x7b' then 5
  else if Token.isNumeric c then 2
  else 6

theorem kindOf_numeric {c : Char} (h : Token.isNumeric c = true) : kindOf c = 2 := by
  have hne (other : Char) (hother : Token.isNumeric other = false) : c ≠ other := by
    rintro rfl
    exact Bool.false_ne_true (hother.symm.trans h)
  simp only [kindOf, hne 'n' rfl, hne 't' rfl, hne 'f' rfl,
    hne '"' rfl, hne '[' rfl, hne '\x7b' rfl, or_self, if_false, h,
    if_true]

theorem head_render (x : Json) : ∃ c rest, x.render.toList = c :: rest ∧ kindOf c = x.kindRank := by
  cases x with
  | null => exact ⟨_, _, rfl, rfl⟩
  | bool value => cases value <;> exact ⟨_, _, rfl, rfl⟩
  | num value =>
    obtain ⟨c, rest, hlist⟩ := List.exists_cons_of_ne_nil value.text_ne_nil
    have hc := value.isNumeric_text c (hlist ▸ List.mem_cons_self)
    exact ⟨c, rest, hlist, kindOf_numeric hc⟩
  | str text => exact ⟨_, _, toList_quote text, rfl⟩
  | arr items => exact ⟨_, _, by rw [render, String.toList_append, String.toList_append]; rfl, rfl⟩
  | obj fields => exact ⟨_, _, by rw [render, String.toList_append, String.toList_append]; rfl, rfl⟩

/-- No number goes on into the text. -/
def Ends (rest : List Char) : Prop := ∀ c ∈ rest.head?, Token.isNumeric c = false

theorem takeWhile_numeric {text rest : List Char} (htext : ∀ c ∈ text, Token.isNumeric c = true)
    (hrest : Ends rest) : (text ++ rest).takeWhile Token.isNumeric = text := by
  rw [List.takeWhile_append_of_pos htext]
  cases rest with
  | nil => simp
  | cons c rest => simp [hrest c rfl]

theorem Number.text_append_inj {a b : Number} {rest rest' : List Char}
    (h : a.text.toList ++ rest = b.text.toList ++ rest') (hrest : Ends rest) (hrest' : Ends rest') :
    a = b ∧ rest = rest' := by
  have htext := congrArg (List.takeWhile Token.isNumeric) h
  rw [takeWhile_numeric a.isNumeric_text hrest, takeWhile_numeric b.isNumeric_text hrest'] at htext
  rw [htext, List.append_cancel_left_eq] at h
  exact ⟨Number.text_injective (String.toList_injective htext), h⟩

variable {rest rest' : List Char}

/-! ## Lists of texts -/

/-- The texts behind the first one, each with a comma before it. -/
def separated (texts : List String) : List Char := texts.flatMap fun text => ',' :: text.toList

theorem separated_cons_append (text : String) (texts : List String) (rest : List Char) :
    separated (text :: texts) ++ rest = ',' :: (text.toList ++ (separated texts ++ rest)) := by
  rw [separated, List.flatMap_cons, List.append_assoc, List.cons_append, separated]

theorem comma_intercalate_append (text : String) (texts : List String) (rest : List Char) :
    ',' :: ((",".intercalate (text :: texts)).toList ++ rest) =
      separated (text :: texts) ++ rest := by
  induction texts generalizing text with
  | nil => rw [separated_cons_append, String.intercalate_singleton]; rfl
  | cons next texts ih =>
    rw [String.intercalate_cons_cons, String.toList_append, String.toList_append,
      separated_cons_append, ← ih, List.append_assoc, List.append_assoc]
    rfl

theorem ends_separated (texts : List String) {closing : Char}
    (h : Token.isNumeric closing = false) : Ends (separated texts ++ closing :: rest) := by
  cases texts with
  | nil => exact fun c hc => Option.some.inj hc ▸ h
  | cons text texts => exact fun c hc => Option.some.inj hc ▸ rfl

/-- Every text begins with a character other than the given one. -/
def Apart (closing : Char) (texts : List String) : Prop :=
  ∀ text ∈ texts, ∃ c ∈ text.toList.head?, c ≠ closing

theorem Apart.ne_closing {closing : Char} {text : String} {texts : List String}
    (h : Apart closing (text :: texts)) :
    (",".intercalate (text :: texts)).toList ++ rest ≠ closing :: rest' := fun heq => by
  obtain ⟨c, hc, hne⟩ := h text List.mem_cons_self
  have hsep := comma_intercalate_append text texts rest
  rw [heq, separated_cons_append, List.cons.injEq] at hsep
  have hhead := congrArg List.head? hsep.2
  rw [List.head?_append_of_ne_nil _ (List.ne_nil_of_mem (List.mem_of_mem_head? hc)), hc] at hhead
  exact hne (Option.some.inj hhead).symm

/-- Lists of texts that agree up to the closing character agree text by text. -/
theorem separated_of_intercalate {closing : Char} {texts texts' : List String}
    (hapart : Apart closing texts) (hapart' : Apart closing texts')
    (h : (",".intercalate texts).toList ++ closing :: rest =
      (",".intercalate texts').toList ++ closing :: rest') :
    separated texts ++ closing :: rest = separated texts' ++ closing :: rest' := by
  cases texts with
  | nil =>
    cases texts' with
    | nil => exact h
    | cons text' texts' => exact absurd h.symm hapart'.ne_closing
  | cons text texts =>
    cases texts' with
    | nil => exact absurd h hapart.ne_closing
    | cons text' texts' => rw [← comma_intercalate_append, ← comma_intercalate_append, h]

/-! ## The text of a value -/

theorem renderList_eq_map (items : List Json) : renderList items = items.map render := by
  induction items with
  | nil => rfl
  | cons x xs ih => rw [renderList, ih, List.map_cons]

theorem renderFields_eq_map (fields : List (String × Json)) :
    renderFields fields = fields.map fun entry => quote entry.1 ++ ":" ++ render entry.2 := by
  induction fields with
  | nil => rfl
  | cons entry fields ih => rw [renderFields, ih, List.map_cons]

theorem apart_items (items : List Json) : Apart ']' (renderList items) := by
  rw [renderList_eq_map]
  rintro text htext
  obtain ⟨x, -, rfl⟩ := List.mem_map.mp htext
  obtain ⟨c, rest, hlist, hkind⟩ := head_render x
  refine ⟨c, by rw [hlist]; rfl, ?_⟩
  rintro rfl
  cases x <;> cases hkind

theorem apart_fields (fields : List (String × Json)) : Apart '\x7d' (renderFields fields) := by
  rw [renderFields_eq_map]
  rintro text htext
  obtain ⟨entry, -, rfl⟩ := List.mem_map.mp htext
  refine ⟨'"', ?_, by decide⟩
  rw [String.toList_append, String.toList_append, toList_quote]
  rfl

theorem kindRank_of_append {x y : Json} (h : x.render.toList ++ rest = y.render.toList ++ rest') :
    x.kindRank = y.kindRank := by
  obtain ⟨c, tail, hx, hc⟩ := head_render x
  obtain ⟨c', tail', hy, hc'⟩ := head_render y
  rw [hx, hy] at h
  rw [← hc, ← hc', (List.cons.inj h).1]

theorem toList_bracketed (opening closing : String) (texts : List String) :
    (opening ++ ",".intercalate texts ++ closing).toList ++ rest =
      opening.toList ++ ((",".intercalate texts).toList ++ (closing.toList ++ rest)) := by
  rw [String.toList_append, String.toList_append, List.append_assoc, List.append_assoc]

theorem bool_append_inj {a b : Bool}
    (h : (bool a).render.toList ++ rest = (bool b).render.toList ++ rest') :
    bool a = bool b ∧ rest = rest' := by
  cases a <;> cases b
  case false.false | true.true => exact ⟨rfl, List.append_cancel_left h⟩
  case false.true | true.false => exact absurd (List.cons.inj h).1 (by decide)

mutual

/-- A value ends where its text ends, whatever follows. -/
theorem render_append_inj : (x : Json) → ∀ (y : Json) {rest rest' : List Char},
    x.render.toList ++ rest = y.render.toList ++ rest' → Ends rest → Ends rest' →
    x = y ∧ rest = rest'
  | .null => by
    intro y _ _ h _ _
    have hkind := kindRank_of_append h
    cases y <;> cases hkind
    exact ⟨rfl, List.append_cancel_left h⟩
  | .bool a => by
    intro y _ _ h _ _
    have hkind := kindRank_of_append h
    cases y <;> cases hkind
    exact bool_append_inj h
  | .num a => by
    intro y _ _ h hrest hrest'
    have hkind := kindRank_of_append h
    cases y <;> cases hkind
    obtain ⟨rfl, hrest⟩ := Number.text_append_inj h hrest hrest'
    exact ⟨rfl, hrest⟩
  | .str a => by
    intro y _ _ h _ _
    have hkind := kindRank_of_append h
    cases y <;> cases hkind
    obtain ⟨rfl, hrest⟩ := quote_append_inj h
    exact ⟨rfl, hrest⟩
  | .arr xs => by
    intro y _ _ h _ _
    obtain ⟨ys, rfl⟩ : ∃ ys, y = arr ys := by
      have hkind := kindRank_of_append h
      cases y <;> cases hkind
      exact ⟨_, rfl⟩
    rw [render, render, toList_bracketed, toList_bracketed, List.append_cancel_left_eq] at h
    obtain ⟨rfl, hrest⟩ := separated_items_inj xs ys
      (separated_of_intercalate (apart_items xs) (apart_items ys) h)
    exact ⟨rfl, hrest⟩
  | .obj xs => by
    intro y _ _ h _ _
    obtain ⟨ys, rfl⟩ : ∃ ys, y = obj ys := by
      have hkind := kindRank_of_append h
      cases y <;> cases hkind
      exact ⟨_, rfl⟩
    rw [render, render, toList_bracketed, toList_bracketed, List.append_cancel_left_eq] at h
    obtain ⟨rfl, hrest⟩ := separated_fields_inj xs ys
      (separated_of_intercalate (apart_fields xs) (apart_fields ys) h)
    exact ⟨rfl, hrest⟩

theorem separated_items_inj : (xs ys : List Json) → {rest rest' : List Char} →
    separated (renderList xs) ++ ']' :: rest = separated (renderList ys) ++ ']' :: rest' →
    xs = ys ∧ rest = rest'
  | [], [], _, _, h => ⟨rfl, (List.cons.inj h).2⟩
  | [], y :: ys, _, _, h => absurd (List.cons.inj h).1 (by decide)
  | x :: xs, [], _, _, h => absurd (List.cons.inj h).1 (by decide)
  | x :: xs, y :: ys, rest, rest', h => by
    rw [renderList, renderList, separated_cons_append, separated_cons_append] at h
    -- What follows an item is a comma or the bracket, which no number goes on into.
    obtain ⟨rfl, htail⟩ := render_append_inj x y (List.cons.inj h).2 (ends_separated _ rfl)
      (ends_separated _ rfl)
    obtain ⟨rfl, hrest⟩ := separated_items_inj xs ys htail
    exact ⟨rfl, hrest⟩

theorem separated_fields_inj : (xs ys : List (String × Json)) → {rest rest' : List Char} →
    separated (renderFields xs) ++ '\x7d' :: rest = separated (renderFields ys) ++ '\x7d' :: rest' →
    xs = ys ∧ rest = rest'
  | [], [], _, _, h => ⟨rfl, (List.cons.inj h).2⟩
  | [], y :: ys, _, _, h => absurd (List.cons.inj h).1 (by decide)
  | x :: xs, [], _, _, h => absurd (List.cons.inj h).1 (by decide)
  | (name, x) :: xs, (name', y) :: ys, rest, rest', h => by
    simp only [renderFields, separated_cons_append, String.toList_append, List.append_assoc] at h
    obtain ⟨rfl, hvalue⟩ := quote_append_inj (List.cons.inj h).2
    obtain ⟨rfl, htail⟩ := render_append_inj x y (List.append_cancel_left hvalue)
      (ends_separated _ rfl) (ends_separated _ rfl)
    obtain ⟨rfl, hrest⟩ := separated_fields_inj xs ys htail
    exact ⟨rfl, hrest⟩

end

/-- The compact text of a value says which value it is. -/
theorem render_injective : Function.Injective render := fun x y h => by
  have hempty : Ends [] := fun c hc => by cases hc
  have happend : x.render.toList ++ [] = y.render.toList ++ [] := by rw [h]
  exact (render_append_inj x y happend hempty hempty).1

end Json

end EntityStore
