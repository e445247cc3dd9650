import EntityStore.Query.Filter.Basic

/-! Evaluation of a compiled filter on one row.

A row is checked against the labels bound so far, and labels are bound on the way. The clauses of a
filter are checked in order up to the first one known to fail. An uncorrelated subquery of an eager
view is computed at most once for all rows: its keys stay in the memo that is carried from row to
row. -/

namespace EntityStore

/-- The subqueries computed so far for one compiled filter. -/
structure Memo where
  /-- The keys of the subqueries that are computed once, by their sites. -/
  known : List (Site × List String) := []
  /-- The sites of the subqueries that were started, latest first. -/
  started : List Site := []

namespace Memo

/-- How many subqueries were started. -/
def runs (m : Memo) : Nat := m.started.length

/-- Counts the start of the subquery at a site. -/
def start (m : Memo) (site : Site) : Memo := { m with started := site :: m.started }

end Memo

/-- The state of checking one row. -/
structure RowState where
  bindings : Bindings
  memo : Memo := {}

/-- A check of one row. An error keeps the state that it leaves. -/
abbrev Check := ExceptT QueryError (StateM RowState)

namespace Check

variable {α : Type}

/-- Raises the error of a result. -/
def ofExcept (r : Except QueryError α) : Check α := ExceptT.mk (pure r)

/-- Runs a check with its own bindings; whatever it binds is dropped afterwards. -/
def isolated (seed : Bindings) (body : Check α) : Check α :=
  ExceptT.mk fun s =>
    let (result, s') := body.run.run { s with bindings := seed }
    (result, { s' with bindings := s.bindings })

/-- Binds a label to the row at hand. -/
def bind (label : String) (row : Row) : Check Unit := do
  let bindings ← ofExcept ((← get).bindings.bind label row)
  modify fun s => { s with bindings }

/-- Settles an outcome against the bindings at hand. -/
def finish (o : Outcome) : Check Bool := do ofExcept (o.finish (← get).bindings)

/-- The keys of the subquery at a site: those of an attribute over the rows of an entity that pass a
check, each row on its own. -/
def collect (v : View) (site : Site) (entity attr : String) (passes : Row → Check Bool) :
    Check (List String) := do
  modify fun s => { s with memo := s.memo.start site }
  let rows ← (v.scan entity).filterM passes
  return rows.filterMap fun row => (Fields.get? row attr).map Json.memberKey

/-- The keys of the subquery at a site: those in the memo, or else computed and remembered. -/
def remembered (site : Site) (compute : Check (List String)) : Check (List String) := do
  match (← get).memo.known.lookup site with
  | some keys => return keys
  | none =>
    let keys ← compute
    modify fun s => { s with memo := { s.memo with known := (site, keys) :: s.memo.known } }
    return keys

end Check

namespace Filter

mutual

/-- Marks the labels of a filter as obscured. -/
def obscureLabels (bindings : Bindings) : Filter → Bindings
  | .mk label _ clauses =>
    obscureClauses (match label with
      | some label => bindings.obscure label
      | none => bindings) clauses

/-- Marks the labels of clauses as obscured. -/
def obscureClauses (bindings : Bindings) : List Clause → Bindings
  | [] => bindings
  | .and parts :: rest => obscureClauses (obscureParts bindings parts) rest
  | .or parts :: rest => obscureClauses (obscureParts bindings parts) rest
  | .not part :: rest => obscureClauses (obscureLabels bindings part) rest
  | .relation _ part :: rest => obscureClauses (obscureLabels bindings part) rest
  | _ :: rest => obscureClauses bindings rest

/-- Marks the labels of several filters as obscured. -/
def obscureParts (bindings : Bindings) : List Filter → Bindings
  | [] => bindings
  | part :: rest => obscureParts (obscureLabels bindings part) rest

end

/-- Whether a row holds a text in one of the attributes. Where none does, a missing attribute passes
in obscure mode. -/
def findsText (obscure : Bool) (attributes : List String) (search : String) (row : Row) : Bool :=
  let values := attributes.map (Fields.get? row)
  let found := values.any fun
    | some (.str text) => Json.textHolds text.toList search.toList
    | _ => false
  found || (obscure && values.any Option.isNone)

mutual

/-- Checks a row. The label is bound before anything else. -/
def evaluate (v : View) : Filter → Row → Check Outcome
  | .mk label obscure clauses, row => do
    if let some label := label then Check.bind label row
    evaluateClauses v obscure clauses [] row

/-- Checks the clauses of a filter in order; `deferred` holds what is open, latest first. -/
def evaluateClauses (v : View) (obscure : Bool) :
    List Clause → List Condition → Row → Check Outcome
  | [], deferred, _ => return .ofAll deferred.reverse
  | clause :: rest, deferred, row => do
    match ← evaluateClause v obscure clause row with
    | .known false => return .known false
    | .known true => evaluateClauses v obscure rest deferred row
    | .deferred c => evaluateClauses v obscure rest (c :: deferred) row

/-- Checks one clause. -/
def evaluateClause (v : View) (obscure : Bool) : Clause → Row → Check Outcome
  | .and parts, row => evaluateAll v parts [] row
  | .or parts, row => evaluateAny v parts [] row
  | .not part, row => return (← evaluate v part row).negate
  | .expr e, row => do
    match e.evaluate (some row) (← get).bindings with
    | .resolved value => return .known value.truthy
    | .pending rest => return .deferred (.expr rest)
  | .text attributes search, row => return .known (findsText obscure attributes search row)
  | .attribute name tests, row =>
    match Fields.get? row name with
    | none => return .known (obscure || tests.all Test.holdsOfAbsent)
    | some value => return .known (← passesTests v obscure tests value)
  | .relation pointer part, row =>
    match v.follow pointer row with
    | .found target => evaluate v part target
    | .elsewhere => return .known false
    | .unset | .missing => do
      if obscure then modify fun s => { s with bindings := obscureLabels s.bindings part }
      return .known obscure

/-- Checks the parts of a conjunction. -/
def evaluateAll (v : View) : List Filter → List Condition → Row → Check Outcome
  | [], deferred, _ => return .ofAll deferred.reverse
  | part :: rest, deferred, row => do
    match ← evaluate v part row with
    | .known false => return .known false
    | .known true => evaluateAll v rest deferred row
    | .deferred c => evaluateAll v rest (c :: deferred) row

/-- Checks the parts of a disjunction. -/
def evaluateAny (v : View) : List Filter → List Condition → Row → Check Outcome
  | [], deferred, _ => return .ofAny deferred.reverse
  | part :: rest, deferred, row => do
    match ← evaluate v part row with
    | .known true => return .known true
    | .known false => evaluateAny v rest deferred row
    | .deferred c => evaluateAny v rest (c :: deferred) row

/-- Checks a value against tests, up to the first one that fails. -/
def passesTests (v : View) (obscure : Bool) : List Test → Json → Check Bool
  | [], _ => return true
  | test :: rest, value => do
    if ← passes v obscure test value then passesTests v obscure rest value else return false

/-- Checks a value against one test. In obscure mode every value is a candidate. -/
def passes (v : View) (obscure : Bool) : Test → Json → Check Bool
  | .compare op operand, value => return op.test value operand
  | .between low high, value =>
    return Comparison.gte.test value low && Comparison.lte.test value high
  | .startsWith start, value => return Test.begins start value
  | .endsWith ending, value => return Test.ends ending value
  | .includes operand, value => return Test.holds operand value
  | .present expected, value => return value.isNull != expected
  | .isIn candidates, value => if obscure then return true else isCandidate v candidates value
  | .notIn candidates, value => return !(← isCandidate v candidates value)

/-- Whether a value is among the candidates. -/
def isCandidate (v : View) : Candidates → Json → Check Bool
  | .literal keys, value => return keys.contains value.memberKey
  | .subquery site entity attr filter correlated, value => do
    let compute (seed : Bindings) : Check (List String) :=
      Check.collect v site entity attr fun row =>
        Check.isolated seed do Check.finish (← evaluate v filter row)
    let keys ←
      if correlated || !v.eagerSubqueries then compute (← get).bindings
      else Check.remembered site (compute {})
    return keys.contains value.memberKey

end

end Filter

end EntityStore
