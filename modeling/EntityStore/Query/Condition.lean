import EntityStore.Query.Expression.Evaluate

/-! Conditions: what remains of a filter after a row was checked once, where expressions wait for
labels that were not bound yet. A condition is settled against the final bindings in three values,
since one that reads only obscured labels can be neither proved nor disproved. -/

namespace EntityStore

/-- What a filter still depends on. -/
inductive Condition where
  | expr (e : Expression)
  | all (parts : List Condition)
  | any (parts : List Condition)
  | not (part : Condition)

/-- The result of checking a row once. -/
inductive Outcome where
  | known (passed : Bool)
  | deferred (c : Condition)

namespace Condition

mutual

/-- The truth value of a condition against the final bindings; `none` if it is open. -/
def settle (bindings : Bindings) : Condition → Except QueryError (Option Bool)
  | .expr e =>
    let unbound := e.unbound bindings
    if !unbound.isEmpty && unbound.all bindings.isObscured then .ok none
    else (e.resolve bindings).map fun value => some value.truthy
  | .all parts => settleAll bindings parts
  | .any parts => settleAny bindings parts
  | .not part => (settle bindings part).map (Option.map (!·))

/-- A conjunction, which stops at the first part that is false. -/
def settleAll (bindings : Bindings) : List Condition → Except QueryError (Option Bool)
  | [] => .ok (some true)
  | c :: cs => do
    match ← settle bindings c with
    | some false => return some false
    | some true => settleAll bindings cs
    | none => return if (← settleAll bindings cs) = some false then some false else none

/-- A disjunction, which stops at the first part that is true. -/
def settleAny (bindings : Bindings) : List Condition → Except QueryError (Option Bool)
  | [] => .ok (some false)
  | c :: cs => do
    match ← settle bindings c with
    | some true => return some true
    | some false => settleAny bindings cs
    | none => return if (← settleAny bindings cs) = some true then some true else none

end

end Condition

namespace Outcome

/-- The verdict on a row against the final bindings. What stays open passes. -/
def finish (bindings : Bindings) : Outcome → Except QueryError Bool
  | known passed => .ok passed
  | deferred c => (c.settle bindings).map (·.getD true)

/-- A conjunction in which nothing is false and `parts` are deferred. -/
def ofAll : List Condition → Outcome
  | [] => known true
  | [c] => deferred c
  | parts => deferred (.all parts)

/-- A disjunction in which nothing is true and `parts` are deferred. -/
def ofAny : List Condition → Outcome
  | [] => known false
  | [c] => deferred c
  | parts => deferred (.any parts)

/-- The opposite outcome. -/
def negate : Outcome → Outcome
  | known passed => known !passed
  | deferred c => deferred (.not c)

end Outcome

end EntityStore
