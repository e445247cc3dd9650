import EntityStore.Proofs.Query.Expression

/-! The two phases together. An expression that waits for labels has read everything else, so the
second phase comes to what the first one would have come to with all labels at once
(`Expression.evaluate_twice`). -/

namespace EntityStore

namespace Expression

mutual

/-- Whether an expression reads the row at hand. -/
def readsRow : Expression → Bool
  | .attr _ => true
  | .const _ | .ref .. => false
  | .unary _ arg => readsRow arg
  | .multi _ args => readsRowList args

/-- Whether arguments read the row at hand. -/
def readsRowList : List Expression → Bool
  | [] => false
  | e :: es => readsRow e || readsRowList es

end

variable {row : Option Row} {bindings bindings' : Bindings} {e p : Expression}

theorem residualCases_readsRow : ResidualCases row bindings fun _ rest => rest.readsRow = false where
  bound _ := rfl
  ref _ _ := rfl
  unary _ _ _ ih := ih
  multi op args rests h := by
    rw [readsRow]
    induction h with
    | nil => rfl
    | cons he _ ih => exact Bool.or_eq_false_iff.mpr ⟨he, ih⟩

theorem readsRow_residual (row : Option Row) (bindings : Bindings) (e : Expression) :
    (residual row bindings e).readsRow = false := residualCases_readsRow.residual e

theorem evaluate_eq_resolved_iff {value : Json} : e.evaluate row bindings = .resolved value ↔
    e.unbound bindings = [] ∧ e.value row bindings.get? = value := by
  rcases evaluate_cases row bindings e with ⟨hnil, he⟩ | ⟨hne, rest, he⟩
  · rw [he, Evaluation.resolved.injEq]
    exact ⟨fun hvalue => ⟨hnil, hvalue⟩, And.right⟩
  · rw [he]
    exact ⟨nofun, fun h => absurd h.1 hne⟩

/-- What is left of an expression is resolved like the whole of it, from the row that was at hand
in the first phase. -/
theorem resolve_residual (h : Keeps bindings bindings') (row : Option Row) (e : Expression) :
    (residual row bindings e).resolve bindings' = match e.unbound bindings' with
      | [] => .ok (e.value row bindings'.get?)
      | label :: _ => .error (.unresolved label) := by
  have hresolve := resolve_eq (residual row bindings e) bindings'
  rw [unbound_residual h, value_residual h] at hresolve
  exact hresolve

theorem residual_of_pending (h : e.evaluate row bindings = .pending p) :
    residual row bindings e = p := by
  rw [residual, h]
  rfl

/-- Evaluated against some labels and then against more of them, an expression comes to what it
comes to against all of them at once. A value stays as it is. What waits does not read the row any
more, waits for the same labels, and gets the same value, or else it fails for want of the first
label of the expression that is not bound. -/
theorem evaluate_twice (h : Keeps bindings bindings') (row : Option Row) (e : Expression) :
    (∀ value, e.evaluate row bindings = .resolved value →
      e.evaluate row bindings' = .resolved value) ∧
    ∀ p, e.evaluate row bindings = .pending p →
      p.readsRow = false ∧ p.unbound bindings' = e.unbound bindings' ∧
      (∀ value, p.resolve bindings' = .ok value ↔ e.evaluate row bindings' = .resolved value) ∧
      ((∀ value, e.evaluate row bindings' ≠ .resolved value) → ∃ label,
        e.labels.find? (fun label => !bindings'.contains label) = some label ∧
          p.resolve bindings' = .error (.unresolved label)) := by
  constructor
  · intro value he
    obtain ⟨hnil, hvalue⟩ := evaluate_eq_resolved_iff.mp he
    exact evaluate_eq_resolved_iff.mpr ⟨h.unbound_eq_nil hnil, (value_of_bound h hnil).trans hvalue⟩
  · intro p he
    have hresolve := resolve_residual h row e
    -- What is left has the same open labels as the whole, so it fails for the same one.
    have hfirst : e.labels.find? (fun label => !bindings'.contains label) =
        (e.unbound bindings').head? := by rw [unbound_eq_filter, List.head?_filter]
    rw [← residual_of_pending he]
    refine ⟨readsRow_residual row bindings e, unbound_residual h row e, fun value => ?_,
      fun hwaits => ?_⟩
    · rw [hresolve, evaluate_eq_resolved_iff]
      cases e.unbound bindings' with
      | nil => simp
      | cons label labels => simp
    · rw [hresolve, hfirst]
      cases hunbound : e.unbound bindings' with
      | nil => exact absurd (evaluate_eq_resolved_iff.mpr ⟨hunbound, rfl⟩) (hwaits _)
      | cons label labels => exact ⟨label, rfl, rfl⟩

/-- An expression that reads the row and three labels, of which the second phase has two. -/
theorem evaluate_twice_names :
    let e : Expression := .multi .concat [.attr "name", .ref "a" "name",
      .unary .not (.multi .eq [.ref "b" "name", .ref "c" "name"])]
    let row : Row := [("name", .str "x")]
    let bindings : Bindings := { rows := [("a", [("name", .str "y")])] }
    let bindings' := bindings.set "b" [("name", .str "z")]
    let p : Expression := .multi .concat [.const (.str "x"), .const (.str "y"),
      .unary .not (.multi .eq [.ref "b" "name", .ref "c" "name"])]
    Keeps bindings bindings' ∧ e.evaluate (some row) bindings = .pending p ∧
      p.resolve bindings' = .error (.unresolved "c") := by
  intro e row bindings bindings' p
  have hkeeps : Keeps bindings bindings' := by
    intro label row hl
    by_cases h : label = "a"
    · subst h
      exact hl
    · have hnone : bindings.get? label = none := by
        rw [Bindings.get?, Fields.get?_cons, if_neg h, Fields.get?_nil]
      rw [hnone] at hl
      cases hl
  have hp : e.evaluate (some row) bindings = .pending p := rfl
  obtain ⟨-, -, -, hfails⟩ := (evaluate_twice hkeeps (some row) e).2 p hp
  obtain ⟨label, hlabel, hresolve⟩ := hfails fun value => nofun
  cases hlabel
  exact ⟨hkeeps, hp, hresolve⟩

end Expression

end EntityStore
