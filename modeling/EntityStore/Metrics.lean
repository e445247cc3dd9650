/-! Counters of the work that queries do. They only grow. -/

namespace EntityStore

/-- Counters of the work done for queries. -/
structure Metrics where
  /-- Selects that succeeded, those of nested rows included. -/
  selects : Nat := 0
  /-- Rows that scans have visited. -/
  scanned : Nat := 0
  /-- Subqueries that were started. -/
  subqueries : Nat := 0
deriving DecidableEq

end EntityStore
