import EntityStore.Log.Severity
import EntityStore.Json.Printer

/-! Log entries and the lines they are written as.

A line is one JSON object: the event, the severity, then the fields sorted by name. Quotes,
backslashes and control characters are escaped, so a value cannot end a line or a string. -/

namespace EntityStore.Log

/-- One entry of a log. -/
structure Entry where
  severity : Severity
  event : String
  fields : List (String × String)
deriving DecidableEq

/-- Where an entry is written to. -/
inductive Channel where
  | output
  | problems
deriving DecidableEq

/-- Errors go to their own channel. -/
def Entry.channel (e : Entry) : Channel :=
  if Severity.error.level ≤ e.severity.level then .problems else .output

/-- Whether a character is a control character: below U+0020, or from U+007F to U+009F. -/
def isControl (c : Char) : Bool := c.toNat < 0x20 || (0x7F ≤ c.toNat && c.toNat < 0xA0)

/-- A character inside a string of a log line. -/
def escape (c : Char) : List Char :=
  if c = '"' then ['\\', '"']
  else if c = '\\' then ['\\', '\\']
  else if c = '\n' then ['\\', 'n']
  else if c = '\r' then ['\\', 'r']
  else if c = '\t' then ['\\', 't']
  else if isControl c then '\\' :: 'u' :: hexDigits c.toNat
  else [c]

/-- A text in quotes. -/
def quote (text : List Char) : List Char := '"' :: text.flatMap escape ++ ['"']

/-- A name and its value. -/
def member (name value : String) : List Char := quote name.toList ++ ':' :: quote value.toList

/-- The fields in the order of their names; fields of one name keep their order. -/
def sortFields (fields : List (String × String)) : List (String × String) :=
  fields.mergeSort fun a b => decide (a.1 ≤ b.1)

/-- The members of a line. -/
def Entry.members (e : Entry) : List (String × String) :=
  [("event", e.event), ("severity", e.severity.label)] ++ sortFields e.fields

/-- The line of an entry, without the newline at its end. -/
def Entry.line (e : Entry) : String :=
  String.ofList ('\x7b' :: [','].intercalate (e.members.map fun (n, v) => member n v) ++ ['\x7d'])

/-- What is written for an entry: its line and a newline. -/
def Entry.text (e : Entry) : String := e.line ++ "\n"

end EntityStore.Log
