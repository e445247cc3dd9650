import EntityStore.Proofs.Query.Sound

/-! Checks that come out alike. Two checks may start from bindings that disagree on hidden labels.
As long as they neither bind nor read those, they fail with the same error or come to the same
outcome, which is settled alike from then on (`Judge.Alike`). Each way to put checks together keeps
this. -/

namespace EntityStore

namespace Bindings

/-- Only labels of the scope are bound or obscured. -/
def Within (b : Bindings) (scope : List String) : Prop :=
  ∀ label, b.contains label ∨ b.isObscured label → label ∈ scope

/-- Both say the same about every label that is not hidden. -/
def Agree (hidden : List String) (b b' : Bindings) : Prop :=
  ∀ label ∉ hidden, b.get? label = b'.get? label ∧ b.isObscured label = b'.isObscured label

variable {b b' : Bindings} {hidden scope scope' : List String} {label other : String} {row : Row}

namespace Within

theorem empty (scope : List String) : Within {} scope := by
  rintro label (hbound | hobscured)
  · cases hbound
  · simp [isObscured] at hobscured

theorem mono (h : b.Within scope) (hs : scope ⊆ scope') : b.Within scope' :=
  fun label hl => hs (h label hl)

theorem set (h : b.Within scope) (hl : label ∈ scope) : (b.set label row).Within scope := by
  intro other ho
  by_cases he : other = label
  · exact he ▸ hl
  · refine h other (ho.imp_left fun hc => ?_)
    unfold contains Fields.contains at hc ⊢
    rwa [← get?, get?_set, if_neg he] at hc

theorem obscure (h : b.Within scope) (hl : label ∈ scope) : (b.obscure label).Within scope := by
  intro other ho
  by_cases he : other = label
  · exact he ▸ hl
  · refine h other (ho.imp (fun hc => ?_) fun hc => ?_)
    · unfold contains Fields.contains at hc ⊢
      rwa [← get?, get?_obscure] at hc
    · rwa [isObscured_obscure, decide_eq_false he, Bool.false_or] at hc

/-- Whoever does not see the labels of the scope takes the bindings for empty. -/
theorem agree_empty (h : b.Within scope) : Agree scope {} b := by
  intro label hl
  have hnot := mt (h label) hl
  rw [not_or] at hnot
  refine ⟨?_, ?_⟩
  · exact (get?_eq_none (Bool.eq_false_iff.mpr hnot.1)).symm
  · rw [Bool.eq_false_iff.mpr hnot.2]
    simp [isObscured]

end Within

namespace Agree

theorem refl (hidden : List String) (b : Bindings) : Agree hidden b b := fun _ _ => ⟨rfl, rfl⟩

theorem contains (h : Agree hidden b b') (hl : label ∉ hidden) :
    b.contains label = b'.contains label := congrArg Option.isSome (h label hl).1

theorem set (h : Agree hidden b b') : Agree hidden (b.set label row) (b'.set label row) := by
  intro other ho
  rw [get?_set, get?_set, (h other ho).1]
  exact ⟨rfl, (h other ho).2⟩

theorem obscure (h : Agree hidden b b') : Agree hidden (b.obscure label) (b'.obscure label) := by
  intro other ho
  rw [get?_obscure, get?_obscure, isObscured_obscure, isObscured_obscure, (h other ho).1,
    (h other ho).2]
  exact ⟨rfl, rfl⟩

end Agree

end Bindings

open Bindings (Agree)

/-! ## Expressions and outcomes -/

namespace Expression

variable {b b' : Bindings} {hidden : List String} {e : Expression}

theorem unbound_of_agree (h : Agree hidden b b') (he : ∀ label ∈ e.labels, label ∉ hidden) :
    e.unbound b = e.unbound b' := by
  rw [unbound_eq_filter, unbound_eq_filter]
  exact List.filter_congr fun label hl => by rw [h.contains (he label hl)]

theorem settled_of_agree (h : Agree hidden b b') (he : ∀ label ∈ e.labels, label ∉ hidden)
    (row : Option Row) : settled row b e = settled row b' e := by
  have hvalue : e.value row b.get? = e.value row b'.get? :=
    value_congr row e fun label hl => (h label (he label hl)).1
  have hobscured (labels : List String) (hl : labels ⊆ e.labels) :
      labels.all b.isObscured = labels.all b'.isObscured := by
    rw [Bool.eq_iff_iff, List.all_eq_true, List.all_eq_true]
    exact forall₂_congr fun label hmem => by rw [(h label (he label (hl hmem))).2]
  rw [settled, settled, unbound_of_agree h he, hvalue]
  have hsub : e.unbound b' ⊆ e.labels := fun label hl => (mem_unbound.mp hl).1
  cases hu : e.unbound b' with
  | nil => rfl
  | cons label labels =>
    dsimp only
    rw [hobscured (label :: labels) (hu ▸ hsub)]

end Expression

/-- The outcome is settled alike by all bindings that agree but for the hidden labels. -/
def Outcome.Steady (hidden : List String) (o : Outcome) : Prop :=
  ∀ b b', Agree hidden b b' → o.settle b = o.settle b'

namespace Outcome.Steady

variable {hidden : List String} {o : Outcome}

theorem known (passed : Bool) : Steady hidden (.known passed) := fun _ _ _ => rfl

theorem negate (h : o.Steady hidden) : o.negate.Steady hidden := by
  intro b b' hb
  rw [settle_negate, settle_negate, h b b' hb]

theorem expr {e : Expression} (h : ∀ label ∈ e.labels, label ∉ hidden) :
    Steady hidden (.deferred (.expr e)) := by
  intro b b' hb
  rw [settle, settle, Expression.settle_expr, Expression.settle_expr]
  exact Expression.settled_of_agree hb h none

theorem cons {stop : Bool} {c : Condition} {cs? : Option (List Condition)}
    (hc : Steady hidden (.deferred c)) (hcs : (Judge.outcome stop cs?).Steady hidden) :
    (Judge.outcome stop (cs?.map (c :: ·))).Steady hidden := by
  cases cs? with
  | none => exact .known stop
  | some cs =>
    intro b b' hb
    have hc := hc b b' hb
    have hcs := hcs b b' hb
    rw [settle, settle] at hc
    rw [Judge.settle_outcome, Judge.settle_outcome] at hcs
    rw [Option.map_some, Judge.settle_outcome, Judge.settle_outcome, Condition.settleMany_cons,
      Condition.settleMany_cons, hc, hcs]

theorem finish (h : o.Steady hidden) {b b' : Bindings} (hb : Agree hidden b b') :
    o.finish b = o.finish b' := by
  rw [finish_eq, finish_eq, h b b' hb]

end Outcome.Steady

/-! ## Checks -/

/-- Where two checks of one filter start: the labels that may be bound or obscured, and those that
the first check may miss. -/
structure Scope where
  known : List String
  hidden : List String := []

/-- The bindings agree but for the hidden labels, and have only labels of the scope. -/
structure Bindings.Alike (s : Scope) (b b' : Bindings) : Prop where
  agree : Agree s.hidden b b'
  within : b'.Within s.known

/-- Two results are the same error, or the same value with bindings that are alike. -/
inductive ResultsAlike {α : Type} (s : Scope) (P : α → Prop) :
    Except QueryError (α × Bindings) → Except QueryError (α × Bindings) → Prop where
  | error (e : QueryError) : ResultsAlike s P (.error e) (.error e)
  | ok {a : α} {b b' : Bindings} (ha : P a) (hb : b.Alike s b') :
    ResultsAlike s P (.ok (a, b)) (.ok (a, b'))

theorem ResultsAlike.map {α β : Type} {s : Scope} {P : α → Prop} {Q : β → Prop} {f : α → β}
    {x y : Except QueryError (α × Bindings)} (h : ResultsAlike s P x y) (hf : ∀ a, P a → Q (f a)) :
    ResultsAlike s Q (x.map fun r => (f r.1, r.2)) (y.map fun r => (f r.1, r.2)) := by
  cases h with
  | error e => exact .error e
  | ok ha hb => exact .ok (hf _ ha) hb

/-- From bindings that are alike both checks do the same. -/
def Judge.Alike (s : Scope) (j j' : Judge) : Prop :=
  ∀ b b', b.Alike s b' → ResultsAlike s (Outcome.Steady s.hidden) (j b) (j' b')

namespace Judge.Alike

variable {s : Scope} {j j' : Judge}

theorem known (passed : Bool) : Alike s (.known passed) (.known passed) :=
  fun _ _ hb => .ok (.known passed) hb

theorem negate (h : Alike s j j') : Alike s j.negate j'.negate :=
  fun b b' hb => (h b b' hb).map fun _ ho => ho.negate

theorem conditions {γ : Type} {stop : Bool} {xs : List γ} {f g : γ → Judge}
    (h : ∀ x ∈ xs, Alike s (f x) (g x)) {b b' : Bindings} (hb : b.Alike s b') :
    ResultsAlike s (fun r => (Judge.outcome stop r).Steady s.hidden)
      (Judge.conditions stop (xs.map f) b) (Judge.conditions stop (xs.map g) b') := by
  induction xs generalizing b b' with
  | nil =>
    refine .ok (fun c c' _ => ?_) hb
    cases stop <;> rfl
  | cons x xs ih =>
    obtain ⟨hx, h⟩ := List.forall_mem_cons.mp h
    have hr := hx b b' hb
    rw [List.map_cons, List.map_cons, Judge.conditions, Judge.conditions]
    generalize f x b = r at hr ⊢
    generalize g x b' = r' at hr ⊢
    cases hr with
    | error e => exact .error e
    | @ok o c c' ho hc =>
      cases o with
      | known passed =>
        by_cases hp : passed = stop
        · simp only [hp, if_true]
          exact .ok (.known stop) hc
        · simp only [hp, if_false]
          exact ih h hc
      | deferred cond => exact (ih h hc).map fun _ hcs => ho.cons hcs

theorem join {γ : Type} (stop : Bool) {xs : List γ} {f g : γ → Judge}
    (h : ∀ x ∈ xs, Alike s (f x) (g x)) :
    Alike s (Judge.join stop (xs.map f)) (Judge.join stop (xs.map g)) :=
  fun _ _ hb => (conditions h hb).map fun _ ho => ho

theorem expr (row : Row) {e : Expression} (h : ∀ label ∈ e.labels, label ∉ s.hidden) :
    let check : Judge := fun b => match e.evaluate (some row) b with
      | .resolved value => .ok (.known value.truthy, b)
      | .pending rest => .ok (.deferred (.expr rest), b)
    Alike s check check := by
  intro check b b' hb
  dsimp only [check]
  rw [Expression.evaluate_congr (some row) e fun label hl => (hb.agree label (h label hl)).1]
  cases he : e.evaluate (some row) b' with
  | resolved value => exact .ok (.known _) hb
  | pending rest =>
    have hrest : Expression.residual (some row) b' e = rest := by
      rw [Expression.residual, he]
      rfl
    refine .ok (.expr fun label hl => h label ?_) hb
    exact Expression.labels_residual (some row) b' e (hrest ▸ hl)

theorem label {label : String} (hk : label ∈ s.known) (hh : label ∉ s.hidden) (row : Row)
    (h : Alike s j j') : Alike s (fun b => (b.bind label row).bind j)
      fun b => (b.bind label row).bind j' := by
  intro b b' hb
  dsimp only
  rw [Bindings.bind, Bindings.bind, hb.agree.contains hh]
  split
  · exact .error _
  · exact h _ _ ⟨hb.agree.set, hb.within.set hk⟩

theorem obscured (passed : Bool) {labels : List String} (h : labels ⊆ s.known) :
    let check : Judge := fun b => .ok (.known passed, labels.foldl Bindings.obscure b)
    Alike s check check := by
  intro check b b' hb
  refine .ok (.known passed) ?_
  induction labels generalizing b b' with
  | nil => exact hb
  | cons label labels ih =>
    obtain ⟨hl, h⟩ := List.cons_subset.mp h
    exact ih h _ _ ⟨hb.agree.obscure, hb.within.obscure hl⟩

/-- The final verdicts are the same. -/
theorem verdict (h : Alike s j j') {b b' : Bindings} (hb : b.Alike s b') :
    j.verdict b = j'.verdict b' := by
  have hr := h b b' hb
  unfold Judge.verdict
  generalize j b = r at hr ⊢
  generalize j' b' = r' at hr ⊢
  cases hr with
  | error e => rfl
  | ok ho hc => exact ho.finish hc.agree

end Judge.Alike

end EntityStore
