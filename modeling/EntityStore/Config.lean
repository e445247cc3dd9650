import EntityStore.Log.Event

/-! The configuration of a store. Every field has a default, so the empty record is a
configuration. -/

namespace EntityStore

/-- The configuration of a store. -/
structure Config where
  /-- The least severity that is logged. -/
  logSeverity : Severity := .warn
  /-- Whether a subquery that reads no outer label runs once for all rows. -/
  eagerSubqueries : Bool := true
  /-- Whether selects relax missing values unless they say otherwise. -/
  defaultObscure : Bool := false
deriving DecidableEq

/-- Why a configuration cannot be loaded. -/
inductive ConfigError where
  | unreadable (path : String)
  | malformed
deriving DecidableEq

namespace ConfigError

/-- The name of the kind of error. -/
def code : ConfigError → String
  | unreadable _ => "Io"
  | malformed => "Malformed"

/-- The wording of an error. -/
def message : ConfigError → String
  | unreadable path => s!"Failed to read config {path}"
  | malformed => "Malformed config"

end ConfigError

namespace Config

/-- The configuration with all details in the log. -/
def verbose : Config := { logSeverity := .trace }

/-- The configuration that a record gives. -/
def ofDocument? (d : Document) : Option Config := do
  let fields ← d.record? ["log_severity", "eager_subqueries", "default_obscure"]
  return {
    logSeverity := ← fields.optional? "log_severity" .warn Severity.ofDocument?
    eagerSubqueries := ← fields.optional? "eager_subqueries" true Document.bool?
    defaultObscure := ← fields.optional? "default_obscure" false Document.bool? }

/-- The configuration that a value gives. -/
def ofJson? (j : Json) : Option Config := ofDocument? (.ofJson j)

/-- A configuration with all its fields. -/
def toJson (c : Config) : Json :=
  .obj [("log_severity", c.logSeverity.toJson), ("eager_subqueries", .bool c.eagerSubqueries),
    ("default_obscure", .bool c.defaultObscure)]

/-- Reads a configuration document, with the entries it logs. -/
def load (text : String) : Except ConfigError (Config × List Log.Entry) :=
  match (Document.read? text).bind ofDocument? with
  | some c =>
    .ok (c, Log.report c.logSeverity .configLoaded [("log_severity", c.logSeverity.label)])
  | none => .error .malformed

/-- Reads a configuration file; there is no text if the file cannot be read. -/
def loadFile (path : String) : Option String → Except ConfigError (Config × List Log.Entry)
  | some text => load text
  | none => .error (.unreadable path)

end Config

end EntityStore
