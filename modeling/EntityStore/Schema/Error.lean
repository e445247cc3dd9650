/-! What can be wrong with a schema, or with a name that a query looks up in one. -/

namespace EntityStore

/-- A rule that a whole schema breaks. -/
inductive Complaint where
  /-- The name of an entity holds a dollar sign. -/
  | dollarInName (entity : String)
  /-- A pointer names a target that is not declared. -/
  | unknownTarget (entity attr target : String)
  /-- A polymorphic pointer has another name than `entity`. -/
  | polymorphicName (entity attr : String)
  | severalFulltext (entity : String)
  /-- An index covers an attribute that is not declared. -/
  | unknownIndexed (index entity attr : String)
deriving DecidableEq

/-- Why a back-reference is none. -/
inductive BackReferenceFault where
  /-- The polymorphic pointer of `target` does not list `entity`. -/
  | notTargeted (target entity : String)
  /-- The attribute of `target` is no reference to `entity`. -/
  | notReference (target pointer entity : String)
deriving DecidableEq

/-- Why a document is no schema. -/
inductive SchemaFault where
  | unreadable
  | notSchema
  | complaint (c : Complaint)
deriving DecidableEq

/-- An error about a schema. -/
inductive SchemaError where
  | unknownEntity (entity : String)
  | unknownAttribute (entity attr : String)
  | invalidRelation (entity attr : String) (fault : BackReferenceFault)
  | noFulltext (entity : String)
  | malformed (location : String) (fault : SchemaFault)
deriving DecidableEq

/-- The wording of a complaint. -/
def Complaint.message : Complaint → String
  | .dollarInName entity => s!"entity name {entity} must not contain '$'"
  | .unknownTarget entity attr target =>
    s!"{entity}.{attr} references unknown entity {target}"
  | .polymorphicName entity attr =>
    s!"{entity}.{attr}: polymorphic pointers must be named 'entity'"
  | .severalFulltext entity => s!"{entity} declares more than one fulltext index"
  | .unknownIndexed index entity attr =>
    s!"index {index} on {entity} covers unknown attribute {attr}"

/-- The wording of a fault in a back-reference. -/
def BackReferenceFault.message : BackReferenceFault → String
  | .notTargeted target entity => s!"{target}.entity cannot point at {entity}"
  | .notReference target pointer entity => s!"{target}.{pointer} is not a reference to {entity}"

/-- The wording of a fault in a schema document. -/
def SchemaFault.message : SchemaFault → String
  | .unreadable => "Failed to read file"
  | .notSchema => "Invalid JSON"
  | .complaint c => c.message

namespace SchemaError

/-- The stable code of an error. -/
def code : SchemaError → String
  | .unknownEntity _ => "SCHEMA_UNKNOWN_ENTITY"
  | .unknownAttribute _ _ => "SCHEMA_UNKNOWN_ATTRIBUTE"
  | .invalidRelation _ _ _ => "SCHEMA_INVALID_RELATION"
  | .noFulltext _ => "SCHEMA_NO_FULLTEXT_INDEX"
  | .malformed _ _ => "SCHEMA_MALFORMED"

/-- The wording of an error. -/
def message : SchemaError → String
  | .unknownEntity entity => s!"Unknown entity: {entity}"
  | .unknownAttribute entity attr => s!"Unknown attribute {attr} on entity {entity}"
  | .invalidRelation entity attr fault =>
    s!"Invalid relation {attr} on entity {entity}: {fault.message}"
  | .noFulltext entity => s!"Entity {entity} has no fulltext index"
  | .malformed location fault => s!"Malformed schema at {location}: {fault.message}"

end SchemaError

end EntityStore
