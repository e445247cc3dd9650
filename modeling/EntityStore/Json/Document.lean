import EntityStore.Json.Token
import EntityStore.Json.Basic

/-! JSON documents: the tree that a text writes, before its numbers and strings have to have values
and before repeated names are merged. Records are decoded from documents, since a repeated name is
refused in a record and ignored parts of a document need no values; `Document.toJson?` gives the
value of a whole document. -/

namespace EntityStore

/-- The tree of a JSON text. -/
inductive Document where
  | null
  | bool (value : Bool)
  /-- A number; `none` if it is out of range. -/
  | number (value : Option Number)
  /-- A string; `none` if it escapes an unpaired surrogate. -/
  | string (text : Option String)
  | array (items : List Document)
  /-- The fields in order, with repeated names. -/
  | object (fields : List (Option String × Document))

namespace Document

/-- An array or object whose end has not been read, with its parts in reverse. -/
inductive Frame where
  | array (done : List Document)
  | object (done : List (Option String × Document)) (name : Option String)

/-- What may come next in a text. -/
inductive Phase where
  /-- A value. -/
  | value
  /-- A value or the end of the array that has just begun. -/
  | firstItem
  /-- A name. -/
  | name
  /-- A name or the end of the object that has just begun. -/
  | firstName
  | colon
  /-- A comma, or the end of the innermost array or object. -/
  | separator
  /-- Nothing: the document is complete. -/
  | done (result : Document)

/-- A document part way through: the open arrays and objects, innermost first. -/
structure Reading where
  frames : List Frame
  phase : Phase

namespace Reading

/-- Gives a complete value to the innermost open array or object. -/
def deliver (v : Document) : List Frame → Reading
  | [] => ⟨[], .done v⟩
  | .array done :: outer => ⟨.array (v :: done) :: outer, .separator⟩
  | .object done name :: outer => ⟨.object ((name, v) :: done) name :: outer, .separator⟩

/-- Reads a token where a value may begin. -/
def begin? (frames : List Frame) : Token → Option Reading
  | .openArray => some ⟨.array [] :: frames, .firstItem⟩
  | .openObject => some ⟨.object [] none :: frames, .firstName⟩
  | .null => some (deliver .null frames)
  | .bool value => some (deliver (.bool value) frames)
  | .number value => some (deliver (.number value) frames)
  | .string text => some (deliver (.string text) frames)
  | _ => none

/-- Reads a token where a name may stand. -/
def name? (frames : List Frame) : Token → Option Reading
  | .string text =>
    match frames with
    | .object done _ :: outer => some ⟨.object done text :: outer, .colon⟩
    | _ => none
  | _ => none

/-- Reads the end of the innermost array or object. -/
def close? (frames : List Frame) : Token → Option Reading
  | .closeArray =>
    match frames with
    | .array done :: outer => some (deliver (.array done.reverse) outer)
    | _ => none
  | .closeObject =>
    match frames with
    | .object done _ :: outer => some (deliver (.object done.reverse) outer)
    | _ => none
  | _ => none

/-- Reads one token. -/
def step (r : Reading) (t : Token) : Option Reading :=
  match r.phase with
  | .value => begin? r.frames t
  | .firstItem => (close? r.frames t).or (begin? r.frames t)
  | .name => name? r.frames t
  | .firstName => (close? r.frames t).or (name? r.frames t)
  | .colon => match t with
    | .colon => some ⟨r.frames, .value⟩
    | _ => none
  | .separator => match t, r.frames with
    | .comma, .array _ :: _ => some ⟨r.frames, .value⟩
    | .comma, .object _ _ :: _ => some ⟨r.frames, .name⟩
    | t, frames => close? frames t
  | .done _ => none

end Reading

/-- The document that a text writes. -/
def read? (text : String) : Option Document := do
  let tokens ← Token.scan text.toList
  let reading ← tokens.foldlM Reading.step ⟨[], .value⟩
  match reading.phase with
  | .done result => some result
  | _ => none

mutual

/-- How many arrays and objects enclose the innermost value. -/
def depth : Document → Nat
  | .array items => depthItems items + 1
  | .object fields => depthFields fields + 1
  | _ => 0

/-- The depth of the deepest item. -/
def depthItems : List Document → Nat
  | [] => 0
  | x :: xs => max (depth x) (depthItems xs)

/-- The depth of the deepest field. -/
def depthFields : List (Option String × Document) → Nat
  | [] => 0
  | (_, x) :: xs => max (depth x) (depthFields xs)

end

/-- The depth up to which the values of a document are read. -/
def depthLimit : Nat := 127

mutual

/-- The value of a document, if all its numbers and strings have one. A repeated name keeps its
first place and takes the last value. -/
def toJson? : Document → Option Json
  | .null => some .null
  | .bool value => some (.bool value)
  | .number value => value.map .num
  | .string text => text.map .str
  | .array items => (toJsonItems? items).map .arr
  | .object fields => (toJsonFields? fields).map fun entries => .obj (Fields.ofEntries entries)

/-- The values of the items of an array. -/
def toJsonItems? : List Document → Option (List Json)
  | [] => some []
  | x :: xs => do return (← toJson? x) :: (← toJsonItems? xs)

/-- The values of the fields of an object. -/
def toJsonFields? : List (Option String × Document) → Option (List (String × Json))
  | [] => some []
  | (name, x) :: xs => do return (← name, ← toJson? x) :: (← toJsonFields? xs)

end

mutual

/-- A value as a document. -/
def ofJson : Json → Document
  | .null => .null
  | .bool value => .bool value
  | .num value => .number (some value)
  | .str text => .string (some text)
  | .arr items => .array (ofJsonItems items)
  | .obj fields => .object (ofJsonFields fields)

/-- The items of an array as documents. -/
def ofJsonItems : List Json → List Document
  | [] => []
  | x :: xs => ofJson x :: ofJsonItems xs

/-- The fields of an object as documents. -/
def ofJsonFields : List (String × Json) → List (Option String × Document)
  | [] => []
  | (name, x) :: xs => (some name, ofJson x) :: ofJsonFields xs

end

end Document

/-- The value that a text writes. -/
def Json.parse? (text : String) : Option Json := do
  let document ← Document.read? text
  if document.depth ≤ Document.depthLimit then document.toJson? else none

end EntityStore
