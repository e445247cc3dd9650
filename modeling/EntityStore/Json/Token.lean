import EntityStore.Json.NumberLiteral

/-! The tokens of JSON text. A string or a number that has the right form but no value (an unpaired
surrogate, a number too large for a double) is still a token, since a reader may skip over it. -/

namespace EntityStore

/-- A token of JSON text. -/
inductive Token where
  | openArray
  | closeArray
  | openObject
  | closeObject
  | comma
  | colon
  | null
  | bool (value : Bool)
  /-- A number; `none` if it is out of range. -/
  | number (value : Option Number)
  /-- A string; `none` if it escapes an unpaired surrogate. -/
  | string (text : Option String)

namespace Token

/-- A piece of a string: a character, or an escaped UTF-16 unit. -/
inductive Piece where
  | char (c : Char)
  | unit (value : Nat)

/-- The value of a hexadecimal digit. -/
def hexDigit? (c : Char) : Option Nat :=
  if c.isDigit then some (c.toNat - '0'.toNat)
  else if 'a' ≤ c ∧ c ≤ 'f' then some (c.toNat - 'a'.toNat + 10)
  else if 'A' ≤ c ∧ c ≤ 'F' then some (c.toNat - 'A'.toNat + 10)
  else none

/-- The unit written as four hexadecimal digits. -/
def hexUnit? (a b c d : Char) : Option Nat := do
  return (((← hexDigit? a) * 16 + (← hexDigit? b)) * 16 + (← hexDigit? c)) * 16 + (← hexDigit? d)

/-- The character that stands for itself after a backslash, or for a control character. -/
def simpleEscape? (c : Char) : Option Char :=
  match c with
  | '"' => some '"'
  | '\\' => some '\\'
  | '/' => some '/'
  | 'b' => some '\x08'
  | 'f' => some '\x0c'
  | 'n' => some '\n'
  | 'r' => some '\r'
  | 't' => some '\t'
  | _ => none

/-- The pieces of a string up to its closing quote, and the text after it. A control character must
be escaped. -/
def stringPieces : List Char → Option (List Piece × List Char)
  | [] => none
  | '"' :: rest => some ([], rest)
  | '\\' :: 'u' :: a :: b :: c :: d :: rest => do
    let unit ← hexUnit? a b c d
    let (pieces, rest) ← stringPieces rest
    return (.unit unit :: pieces, rest)
  | '\\' :: c :: rest => do
    let c ← simpleEscape? c
    let (pieces, rest) ← stringPieces rest
    return (.char c :: pieces, rest)
  | c :: rest =>
    if c < ' ' then none else do
      let (pieces, rest) ← stringPieces rest
      return (.char c :: pieces, rest)

/-- The characters of a string: a high and a low surrogate that follow each other are one character,
and a surrogate alone is none. -/
def joinPieces : List Piece → Option (List Char)
  | [] => some []
  | .char c :: rest => (joinPieces rest).map (c :: ·)
  | .unit high :: .unit low :: rest =>
    if 0xD800 ≤ high ∧ high < 0xDC00 then
      if 0xDC00 ≤ low ∧ low < 0xE000 then
        (joinPieces rest).map (Char.ofNat (0x10000 + (high - 0xD800) * 0x400 + (low - 0xDC00)) :: ·)
      else none
    else if 0xDC00 ≤ high ∧ high < 0xE000 then none
    else (joinPieces (.unit low :: rest)).map (Char.ofNat high :: ·)
  | .unit u :: rest =>
    if 0xD800 ≤ u ∧ u < 0xE000 then none else (joinPieces rest).map (Char.ofNat u :: ·)

/-- Whether a character may stand between tokens. -/
def isBlank (c : Char) : Bool := c = ' ' || c = '\n' || c = '\t' || c = '\r'

/-- Whether a character may be part of a number. -/
def isNumeric (c : Char) : Bool := c.isDigit || c = '-' || c = '+' || c = '.' || c = 'e' || c = 'E'

/-- The token that is a word. -/
def word? (cs : List Char) : Option Token :=
  if cs = ['n', 'u', 'l', 'l'] then some .null
  else if cs = ['t', 'r', 'u', 'e'] then some (.bool true)
  else if cs = ['f', 'a', 'l', 's', 'e'] then some (.bool false)
  else none

/-- The token that is a single character. -/
def punctuation? (c : Char) : Option Token :=
  match c with
  | '[' => some .openArray
  | ']' => some .closeArray
  | '\x7b' => some .openObject
  | '\x7d' => some .closeObject
  | ',' => some .comma
  | ':' => some .colon
  | _ => none

theorem length_stringPieces {cs rest : List Char} {pieces : List Piece}
    (h : stringPieces cs = some (pieces, rest)) : rest.length < cs.length := by
  fun_induction stringPieces cs generalizing pieces rest with
  | case1 => simp at h
  | case2 => simp_all
  | case3 a b c d tail ih =>
    simp only [Option.bind_eq_bind, Option.bind_eq_some_iff, Option.pure_def, Option.some.injEq,
      Prod.mk.injEq] at h
    obtain ⟨_, _, ⟨p, r⟩, hr, _, rfl⟩ := h
    have := ih hr
    simp; omega
  | case4 c tail _ ih =>
    simp only [Option.bind_eq_bind, Option.bind_eq_some_iff, Option.pure_def, Option.some.injEq,
      Prod.mk.injEq] at h
    obtain ⟨_, _, ⟨p, r⟩, hr, _, rfl⟩ := h
    have := ih hr
    simp; omega
  | case5 => simp at h
  | case6 c tail _ _ _ _ ih =>
    simp only [Option.bind_eq_bind, Option.bind_eq_some_iff, Option.pure_def, Option.some.injEq,
      Prod.mk.injEq] at h
    obtain ⟨⟨p, r⟩, hr, _, rfl⟩ := h
    have := ih hr
    simp; omega

theorem length_dropWhile_le (p : Char → Bool) (cs : List Char) :
    (cs.dropWhile p).length ≤ cs.length := (List.dropWhile_suffix p).length_le

/-- The tokens of a text, or `none` if some part of it is not a token. -/
def scan : List Char → Option (List Token)
  | [] => some []
  | c :: rest =>
    if isBlank c then scan rest
    else if c = '"' then
      match _h : stringPieces rest with
      | none => none
      | some (pieces, after) => do
        let text := (joinPieces pieces).map String.ofList
        return .string text :: (← scan after)
    else if isNumeric c then do
      let literal ← NumberLiteral.ofChars? (c :: rest.takeWhile isNumeric)
      return .number literal.value? :: (← scan (rest.dropWhile isNumeric))
    else if c.isAlpha then do
      let token ← word? (c :: rest.takeWhile Char.isAlpha)
      return token :: (← scan (rest.dropWhile Char.isAlpha))
    else do
      let token ← punctuation? c
      return token :: (← scan rest)
termination_by cs => cs.length
decreasing_by
  · simp
  · have := length_stringPieces _h; simp; omega
  · have := length_dropWhile_le isNumeric rest; simp; omega
  · have := length_dropWhile_le Char.isAlpha rest; simp; omega
  · simp

end Token

end EntityStore
