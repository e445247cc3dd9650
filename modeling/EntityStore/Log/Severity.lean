import EntityStore.Json.Record

/-! Severities of log entries, from `trace` up to `fatal`. -/

namespace EntityStore

/-- How much a log entry matters. -/
inductive Severity where
  /-- Details of single queries. -/
  | trace
  /-- Transactions and other normal events. -/
  | info
  /-- Problems that the caller can recover from. -/
  | warn
  | error
  | fatal
deriving DecidableEq

namespace Severity

/-- Every severity, in rising order. -/
def all : List Severity := [trace, info, warn, error, fatal]

/-- The place in the rising order. -/
def level : Severity → Nat
  | trace => 0
  | info => 1
  | warn => 2
  | error => 3
  | fatal => 4

/-- The name in a configuration. -/
def name : Severity → String
  | trace => "trace"
  | info => "info"
  | warn => "warn"
  | error => "error"
  | fatal => "fatal"

/-- The name in a log line. -/
def label : Severity → String
  | trace => "TRACE"
  | info => "INFO"
  | warn => "WARN"
  | error => "ERROR"
  | fatal => "FATAL"

/-- The severity with a name. -/
def ofName? (name : String) : Option Severity := all.find? (·.name = name)

/-- A severity is written as its name, or as an object with `null` under its name. -/
def ofDocument? : Document → Option Severity
  | .string text => text.bind ofName?
  | .object [(name, .null)] => name.bind ofName?
  | _ => none

/-- A severity as its name. -/
def toJson (s : Severity) : Json := .str s.name

theorem ofName?_name (s : Severity) : ofName? s.name = some s := by cases s <;> decide

end Severity

end EntityStore
