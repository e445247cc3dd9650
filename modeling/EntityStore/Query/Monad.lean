import EntityStore.Metrics
import EntityStore.Query.Filter.Evaluate

/-! Queries as computations that count their work and may fail. An error keeps the counters and the
log entries of the work done before it. -/

namespace EntityStore

/-- What a query leaves behind beside its result. -/
structure Work where
  metrics : Metrics := {}
  /-- The log entries written, in order. -/
  journal : List Log.Entry := []

/-- A query. -/
abbrev Query := ExceptT QueryError (StateM Work)

namespace Query

variable {α : Type}

/-- Raises the error of a result. -/
def ofExcept (r : Except QueryError α) : Query α := ExceptT.mk (pure r)

/-- Changes the counters. -/
def count (f : Metrics → Metrics) : Query Unit := modify fun w => { w with metrics := f w.metrics }

/-- Writes log entries. -/
def log (entries : List Log.Entry) : Query Unit :=
  modify fun w => { w with journal := w.journal ++ entries }

/-- The rows that pass a filter, each checked with its own copy of the bindings. All rows share the
subqueries of the filter. -/
def matching (v : View) (filter : Filter) (seed : Bindings) (rows : List Row) : Query (List Row) :=
  ExceptT.mk fun w =>
    let check (row : Row) : Check Bool :=
      Check.isolated seed do Check.finish (← filter.evaluate v row)
    let (result, s) := (rows.filterM check).run.run { bindings := {} }
    let metrics := { w.metrics with subqueries := w.metrics.subqueries + s.memo.runs }
    (result, { w with metrics })

end Query

end EntityStore
