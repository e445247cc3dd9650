import EntityStore.Json.Printer
import EntityStore.Json.Token

/-! The tokens of a text that was written. A writer may write a character of a string as itself, as
a backslash and a letter, or as its code (`Token.Writes`); whichever of them it chooses, a string in
quotes is one token with the text that was written, whatever follows it (`Token.scan_quoted`). -/

namespace EntityStore

namespace Token

theorem hexDigit?_digitChar : ∀ d < 16, hexDigit? (Nat.digitChar d) = some d := by decide

theorem hexDigits_of_lt {n : Nat} (hn : n < 0x100) :
    hexDigits n = ['0', '0', Nat.digitChar (n / 16), Nat.digitChar (n % 16)] := by
  unfold hexDigits
  rcases Nat.lt_or_ge n 16 with hlow | hhigh
  · rw [Nat.toDigits_of_lt_base hlow, Nat.div_eq_of_lt hlow, Nat.mod_eq_of_lt hlow]
    rfl
  · rw [Nat.toDigits_of_base_le (by decide) hhigh, Nat.toDigits_of_lt_base (by omega)]
    rfl

/-- A code below 256 is read back from its four digits. -/
theorem hexUnit?_of_lt {n : Nat} (hn : n < 0x100) :
    hexUnit? '0' '0' (Nat.digitChar (n / 16)) (Nat.digitChar (n % 16)) = some n := by
  rw [hexUnit?, hexDigit?_digitChar _ (by omega), hexDigit?_digitChar _ (by omega)]
  exact congrArg some (by omega : ((0 * 16 + 0) * 16 + n / 16) * 16 + n % 16 = n)

theorem newline_ne_digitChar : ∀ d < 16, '\n' ≠ Nat.digitChar d := by decide

/-- How a character may be written in a string, and what the reader takes it for. -/
inductive Writes (c : Char) : List Char → Piece → Prop where
  | short {e : Char} : e ≠ 'u' → simpleEscape? e = some c → Writes c ['\\', e] (.char c)
  | code : c.toNat < 0x100 → Writes c ('\\' :: 'u' :: hexDigits c.toNat) (.unit c.toNat)
  | plain : c ≠ '"' → c ≠ '\\' → ¬c < ' ' → Writes c [c] (.char c)

namespace Writes

variable {c : Char} {written : List Char} {piece : Piece}

theorem stringPieces_append (h : Writes c written piece) (rest : List Char) :
    stringPieces (written ++ rest) = (stringPieces rest).map fun p => (piece :: p.1, p.2) := by
  cases h with
  | short hu hsimple =>
    rw [List.cons_append, List.singleton_append, stringPieces, hsimple]
    · cases stringPieces rest <;> rfl
    · exact fun _ _ _ _ _ h => absurd h hu
  | code hcode =>
    rw [hexDigits_of_lt hcode]
    simp only [List.cons_append, List.nil_append]
    rw [stringPieces, hexUnit?_of_lt hcode]
    cases stringPieces rest <;> rfl
  | plain hquote hslash hcontrol =>
    rw [List.singleton_append, stringPieces, if_neg hcontrol]
    · cases stringPieces rest <;> rfl
    · exact hquote
    · exact fun _ _ _ _ _ h => absurd h hslash
    · exact fun _ _ h => absurd h hslash

/-- A code below 256 is no surrogate, so the piece is the character whatever comes next. -/
theorem joinPieces_cons (h : Writes c written piece) (rest : List Piece) :
    joinPieces (piece :: rest) = (joinPieces rest).map (c :: ·) := by
  cases h with
  | short => rw [joinPieces]
  | plain => rw [joinPieces]
  | code hcode =>
    have hhigh : ¬(0xD800 ≤ c.toNat ∧ c.toNat < 0xDC00) := by omega
    have hlow : ¬(0xDC00 ≤ c.toNat ∧ c.toNat < 0xE000) := by omega
    have hsurrogate : ¬(0xD800 ≤ c.toNat ∧ c.toNat < 0xE000) := by omega
    rcases rest with _ | ⟨_ | _, rest⟩ <;>
      simp only [joinPieces, hhigh, hlow, hsurrogate, if_false, Char.ofNat_toNat]

/-- A newline is never written as itself. -/
theorem newline_notMem (h : Writes c written piece) : '\n' ∉ written := by
  cases h with
  | short hu hsimple =>
    rintro hmem
    obtain rfl : '\n' = _ := by simpa using hmem
    cases hsimple
  | code hcode =>
    rw [hexDigits_of_lt hcode]
    have hhigh := newline_ne_digitChar (c.toNat / 16) (by omega)
    have hlow := newline_ne_digitChar (c.toNat % 16) (by omega)
    simp [hhigh, hlow]
  | plain _ _ hcontrol =>
    rintro hmem
    obtain rfl := List.mem_singleton.mp hmem
    exact hcontrol (by decide)

end Writes

section

variable {escape : Char → List Char} {piece : Char → Piece}

/-- A text in quotes is read as the pieces it was written as, whatever follows. -/
theorem stringPieces_flatMap (h : ∀ c, Writes c (escape c) (piece c)) (text rest : List Char) :
    stringPieces (text.flatMap escape ++ '"' :: rest) = some (text.map piece, rest) := by
  induction text with
  | nil => rfl
  | cons c text ih =>
    rw [List.flatMap_cons, List.append_assoc, (h c).stringPieces_append, ih]
    rfl

theorem joinPieces_map (h : ∀ c, Writes c (escape c) (piece c)) (text : List Char) :
    joinPieces (text.map piece) = some text := by
  induction text with
  | nil => rfl
  | cons c text ih =>
    rw [List.map_cons, (h c).joinPieces_cons, ih]
    rfl

/-- A text in quotes is one token with that text, whatever follows. -/
theorem scan_quoted (h : ∀ c, Writes c (escape c) (piece c)) (text : String) (rest : List Char) :
    scan ('"' :: text.toList.flatMap escape ++ '"' :: rest) =
      (scan rest).map (.string (some text) :: ·) := by
  rw [List.cons_append, scan, if_neg (by decide), if_pos rfl]
  split
  next hnone =>
    rw [stringPieces_flatMap h] at hnone
    cases hnone
  next pieces after hsome =>
    rw [stringPieces_flatMap h] at hsome
    obtain ⟨rfl, rfl⟩ := Prod.mk.inj (Option.some.inj hsome)
    rw [joinPieces_map h, Option.map_some, String.ofList_toList]
    cases scan rest <;> rfl

end

theorem scan_punctuation {c : Char} {token : Token} (h : punctuation? c = some token)
    (rest : List Char) : scan (c :: rest) = (scan rest).map (token :: ·) := by
  unfold punctuation? at h
  split at h <;> cases h <;> rw [scan] <;> cases scan rest <;> rfl

end Token

end EntityStore
