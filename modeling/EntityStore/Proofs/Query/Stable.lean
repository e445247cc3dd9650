import EntityStore.Proofs.Query.Sound

/-! Conditions settled against more labels. Binding further labels, obscured or not, refines the
truth value of a condition: what was decided stays as it was, and what was open may become decided
but does not come to fail (`Condition.settle_refines`). So a row that is rejected while some labels
are obscured is rejected whatever rows they stand for (`Condition.settle_extends`). -/

namespace EntityStore

/-- The labels that are bound stay bound to their rows, and the same labels are obscured. -/
structure Bindings.Extends (b b' : Bindings) : Prop where
  keeps : Expression.Keeps b b'
  obscured : ∀ label, b'.isObscured label = b.isObscured label

namespace Bindings.Extends

variable {b b' b'' : Bindings}

theorem refl (b : Bindings) : b.Extends b := ⟨fun _ _ h => h, fun _ => rfl⟩

theorem trans (h : b.Extends b') (h' : b'.Extends b'') : b.Extends b'' :=
  ⟨fun label row hl => h'.keeps label row (h.keeps label row hl),
    fun label => (h'.obscured label).trans (h.obscured label)⟩

/-- A label is bound only where it was not bound before. -/
theorem bind {label : String} {row : Row} (h : b.bind label row = .ok b') : b.Extends b' := by
  unfold Bindings.bind at h
  split at h
  · cases h
  rename_i hfree
  cases h
  refine ⟨fun other bound hother => ?_, fun _ => rfl⟩
  rw [get?_set, if_neg]
  · exact hother
  · rintro rfl
    exact hfree (Option.isSome_iff_exists.mpr ⟨bound, hother⟩)

/-- Rows are bound one after the other, each under its label. -/
theorem bindAll {rows : List (String × Row)}
    (h : rows.foldlM (fun b entry => b.bind entry.1 entry.2) b = .ok b') : b.Extends b' := by
  induction rows generalizing b with
  | nil =>
    cases h
    exact .refl _
  | cons entry rows ih =>
    rw [List.foldlM_cons] at h
    obtain ⟨next, hnext, h⟩ := bind_eq_ok.mp h
    exact (bind hnext).trans (ih h)

end Bindings.Extends

namespace Condition

/-- The second result knows what the first one knows: a truth value that was decided is the same,
and one that was open is no error. -/
def Refines : (r r' : Except QueryError (Option Bool)) → Prop
  | .ok (some passed), r' => r' = .ok (some passed)
  | .ok none, r' => ∃ settled, r' = .ok settled
  | .error _, _ => True

namespace Refines

variable {r r' rest rest' : Except QueryError (Option Bool)} {passed stop : Bool}

theorem of_open (h : Refines (.ok none) r') : ∃ settled, r' = .ok settled := h

theorem negate (h : Refines r r') :
    Refines (r.map (Option.map (!·))) (r'.map (Option.map (!·))) := by
  match r, h with
  | .error _, _ => trivial
  | .ok (some passed), h =>
    cases h
    rfl
  | .ok none, h =>
    obtain ⟨settled, rfl⟩ := of_open h
    exact ⟨settled.map (!·), rfl⟩

/-- The first part of a conjunction or disjunction, and what the others come to. -/
theorem many_cons {b b' : Bindings} {c : Condition} {cs : List Condition}
    (hc : Refines (c.settle b) (c.settle b'))
    (hcs : Refines (settleMany stop b cs) (settleMany stop b' cs)) :
    Refines (settleMany stop b (c :: cs)) (settleMany stop b' (c :: cs)) := by
  rw [settleMany_cons, settleMany_cons]
  generalize c.settle b = r at hc
  generalize c.settle b' = r' at hc
  generalize settleMany stop b cs = rest at hcs
  generalize settleMany stop b' cs = rest' at hcs
  match r, hc with
  | .error _, _ => trivial
  | .ok (some passed), hc =>
    cases hc
    dsimp only [Except.bind]
    split
    · rfl
    · exact hcs
  | .ok none, hc =>
    obtain ⟨settled, rfl⟩ := of_open hc
    -- Whatever the open part turns out to be, the others decide as before.
    match rest, hcs with
    | .error _, _ => trivial
    | .ok (some passed), hcs =>
      cases hcs
      cases settled with
      | none => by_cases hp : passed = stop <;> simp [Refines, Except.bind, Except.map, hp]
      | some found =>
        by_cases hp : passed = stop <;> by_cases hf : found = stop <;>
          simp [Refines, Except.bind, Except.map, hp, hf]
    | .ok none, hcs =>
      obtain ⟨others, rfl⟩ := of_open hcs
      cases settled with
      | none => exact ⟨_, rfl⟩
      | some found => by_cases hf : found = stop <;> simp [Refines, Except.bind, Except.map, hf]

end Refines

variable {b b' : Bindings}

/-- An expression that is open reads obscured labels only, and so it does once some of them are
bound. -/
theorem expr_refines (h : b.Extends b') (e : Expression) :
    Refines ((expr e).settle b) ((expr e).settle b') := by
  rw [Expression.settle_expr, Expression.settle_expr, Expression.settled]
  cases hu : e.unbound b with
  | nil =>
    rw [Expression.settled, h.keeps.unbound_eq_nil hu, Expression.value_of_bound h.keeps hu]
    rfl
  | cons label labels =>
    dsimp only
    split
    · rename_i hobscured
      rw [Expression.settled]
      cases hu' : e.unbound b' with
      | nil => exact ⟨_, rfl⟩
      | cons label' labels' =>
        have hall : (label' :: labels').all b'.isObscured := by
          refine List.all_eq_true.mpr fun l hl => ?_
          obtain ⟨hmem, hfree'⟩ := Expression.mem_unbound.mp (hu' ▸ hl : l ∈ e.unbound b')
          have hfree : b.contains l = false :=
            Bool.eq_false_iff.mpr fun hb => Bool.eq_false_iff.mp hfree' (h.keeps.contains hb)
          rw [h.obscured]
          exact List.all_eq_true.mp hobscured l (hu ▸ Expression.mem_unbound.mpr ⟨hmem, hfree⟩)
        dsimp only
        rw [if_pos hall]
        exact ⟨none, rfl⟩
    · trivial

mutual

/-- Further labels refine the truth value of a condition. -/
theorem settle_refines (h : b.Extends b') : (c : Condition) →
    Refines (c.settle b) (c.settle b')
  | .expr e => expr_refines h e
  | .all parts => settleMany_refines h false parts
  | .any parts => settleMany_refines h true parts
  | .not part => by
    rw [settle, settle]
    exact (settle_refines h part).negate

theorem settleMany_refines (h : b.Extends b') (stop : Bool) : (parts : List Condition) →
    Refines (settleMany stop b parts) (settleMany stop b' parts)
  | [] => by
    rw [settleMany_nil, settleMany_nil]
    rfl
  | c :: cs => (settle_refines h c).many_cons (settleMany_refines h stop cs)

end

/-- Against further labels a condition that was decided is decided in the same way, and one that was
open does not fail. So a row that was rejected stays rejected, in whatever way the labels that are
obscured are bound to rows. -/
theorem settle_extends (h : b.Extends b') :
    (∀ (c : Condition) passed, c.settle b = .ok (some passed) →
      c.settle b' = .ok (some passed)) ∧
    (∀ c : Condition, c.settle b = .ok none → ∃ settled, c.settle b' = .ok settled) ∧
    ∀ o : Outcome, o.finish b = .ok false → o.finish b' = .ok false := by
  have hdecided (c : Condition) (passed : Bool) (hc : c.settle b = .ok (some passed)) :
      c.settle b' = .ok (some passed) := by
    have href := settle_refines h c
    rwa [hc] at href
  refine ⟨hdecided, fun c hc => ?_, fun o ho => ?_⟩
  · have href := settle_refines h c
    rwa [hc] at href
  · cases o with
    | known passed => exact ho
    | deferred c =>
      obtain ⟨settled, hsettled, hrejects⟩ := map_eq_ok.mp ho
      have hfalse : settled = some false := by
        cases settled with
        | none => cases hrejects
        | some passed => exact congrArg some hrejects
      rw [Outcome.finish, hdecided c false (hsettled.trans (congrArg _ hfalse))]
      rfl

/-- A row that is rejected because the name of `a` is found, whoever `o` is. -/
theorem settle_extends_negated :
    let named (label : String) : Condition :=
      .expr (.multi .eq [.ref label "name", .const (.str "x")])
    let row (name : String) : Row := [("name", .str name)]
    let b : Bindings := { rows := [("a", row "x")], obscured := ["o", "p"] }
    let b' := (b.set "o" (row "y")).set "p" (row "x")
    let c : Condition := .not (.any [named "o", named "a", named "p"])
    b.Extends b' ∧ (named "o").settle b = .ok none ∧
      (∃ settled, (named "o").settle b' = .ok settled) ∧ c.settle b = .ok (some false) ∧
        c.settle b' = .ok (some false) ∧ (Outcome.deferred c).finish b = .ok false ∧
          (Outcome.deferred c).finish b' = .ok false := by
  intro named row b b' c
  have hbound : [("o", row "y"), ("p", row "x")].foldlM (fun b entry => b.bind entry.1 entry.2) b =
      .ok b' := rfl
  have hextends : b.Extends b' := .bindAll hbound
  obtain ⟨hdecided, hopen, hrejected⟩ := settle_extends hextends
  have hnamed : (named "o").settle b = .ok none := rfl
  have hc : c.settle b = .ok (some false) := by rfl
  have ho : (Outcome.deferred c).finish b = .ok false := by rfl
  exact ⟨hextends, hnamed, hopen _ hnamed, hc, hdecided c false hc, ho, hrejected _ ho⟩

end Condition

end EntityStore
