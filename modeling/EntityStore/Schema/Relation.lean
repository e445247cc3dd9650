import EntityStore.Schema.Basic

/-! How an attribute relates its row to other rows.

An attribute that a query names is a plain column, a pointer to one row, or a back-reference
`target$pointer` to all the rows of `target` whose pointer leads back to this row. The
classification depends on the schema alone. -/

namespace EntityStore

/-- The column that holds the id of a `ref` attribute. -/
def foreignKeyColumn (attr : String) : String := attr ++ "Id"

/-- A pointer from a row to one row of another entity. -/
inductive Pointer where
  /-- The column `entity` names the target, the column `entityId` its row. -/
  | polymorphic (target : String)
  /-- The column holds the id of a row of the target. -/
  | foreignKey (target column : String)
deriving DecidableEq

namespace Pointer

/-- The entity that the pointer leads to. -/
def target : Pointer → String
  | polymorphic target => target
  | foreignKey target _ => target

end Pointer

/-- How an attribute relates its row to other rows. -/
inductive Relation where
  | column
  /-- A pointer to one row. -/
  | pointer (p : Pointer)
  /-- The rows of `target` that point back through the attribute `backPointer`, or through their
  polymorphic pointer if there is none. -/
  | toMany (target : String) (backPointer : Option String)
deriving DecidableEq

/-- The attribute whose pointer column has this name. -/
def pointerOfColumn? (column : String) : Option String :=
  if "Id".toList.isSuffixOf column.toList then
    some (String.ofList (column.toList.take (column.toList.length - 2)))
  else none

/-- The two names of a back-reference: before and after the first dollar sign, neither empty. -/
def splitBackReference? (attr : String) : Option (String × String) :=
  let target := attr.toList.takeWhile (· ≠ '$')
  match target, attr.toList.dropWhile (· ≠ '$') with
  | _ :: _, _ :: c :: pointer => some (String.ofList target, String.ofList (c :: pointer))
  | _, _ => none

namespace Schema

/-- Classifies the back-reference `target$pointer`. -/
def backReference (s : Schema) (entity attr target pointer : String) :
    Except SchemaError Relation := do
  let declared ← s.entity target
  if pointer = entityColumn then
    match declared.polymorphicTargets? with
    | some targets =>
      if entity ∈ targets then .ok (.toMany target none)
      else .error (.invalidRelation entity attr (.notTargeted target entity))
    | none => .error (.invalidRelation entity attr (.notTargeted target entity))
  else
    let fault : Except SchemaError Relation :=
      .error (.invalidRelation entity attr (.notReference target pointer entity))
    match declared.attributes[pointer]? with
    | some ⟨.ref pointee, _⟩ =>
      if pointee = entity then .ok (.toMany target (some pointer)) else fault
    | _ => fault

/-- Whether `column` holds a part of a pointer that the entity declares. -/
def isPointerColumn (e : Entity) (column : String) : Bool :=
  match pointerOfColumn? column with
  | some pointer =>
    match e.attributes[pointer]? with
    | some ⟨.ref _, _⟩ | some ⟨.entity _, _⟩ => true
    | _ => false
  | none => false

/-- Classifies an attribute of an entity. -/
def relation (s : Schema) (entity attr : String) : Except SchemaError Relation := do
  let e ← s.entity entity
  if attr ∈ implicitColumns then .ok .column
  else match splitBackReference? attr with
    | some (target, pointer) => s.backReference entity attr target pointer
    | none =>
      match e.attributes[attr]? with
      | some ⟨.ref target, _⟩ => .ok (.pointer (.foreignKey target (foreignKeyColumn attr)))
      | some _ => .ok .column
      | none =>
        if isPointerColumn e attr then .ok .column
        else if attr ∈ e.polymorphicTargets?.getD [] then .ok (.pointer (.polymorphic attr))
        else .error (.unknownAttribute entity attr)

end Schema

end EntityStore
