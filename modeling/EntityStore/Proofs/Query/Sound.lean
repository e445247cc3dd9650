import EntityStore.Proofs.Query.Memo
import EntityStore.Proofs.Query.Truth

/-! Checks that find the truth. A check is sound for a truth value if whatever it succeeds with,
once its open conditions are settled against later labels, is that value (`Judge.Sound`). The labels
that it has visited are only a part of those that the truth rests on. Each way to put checks
together keeps this. -/

namespace EntityStore

namespace Bindings

variable {b : Bindings} {label other : String} {row : Row}

theorem get?_eq_none (h : b.contains label = false) : b.get? label = none :=
  Option.not_isSome_iff_eq_none.mp (Bool.eq_false_iff.mp h)

theorem get?_set :
    (b.set label row).get? other = if other = label then some row else b.get? other :=
  Fields.get?_insert ..

theorem get?_obscure : (b.obscure label).get? other = b.get? other := by
  unfold obscure
  split <;> rfl

theorem isObscured_obscure :
    (b.obscure label).isObscured other = (decide (other = label) || b.isObscured other) := by
  unfold obscure
  split
  · rename_i h
    by_cases ho : other = label
    · simp [ho, h]
    · simp [ho]
  · simp [isObscured, Bool.or_comm]

theorem env_of_get? (h : b.get? label = some row) : b.env label = .bound row := by rw [env, h]

theorem get?_of_env (h : b.env label = .bound row) : b.get? label = some row := by
  unfold env at h
  split at h
  · cases h
    assumption
  · split at h <;> cases h

theorem env_eq_unvisited (h : b.contains label = false) (h' : b.isObscured label = false) :
    b.env label = .unvisited := by
  rw [env, get?_eq_none h, h']
  rfl

theorem env_eq_obscured (h : b.contains label = false) (h' : b.isObscured label) :
    b.env label = .obscured := by
  rw [env, get?_eq_none h, h']
  rfl

/-- A bound label stands for the same row in an environment that knows more. -/
theorem row?_of_le {env : Env} (h : b.env ≤ env) (hl : b.contains label) :
    env.row? label = b.get? label := by
  obtain ⟨row, hget⟩ := Option.isSome_iff_exists.mp hl
  have henv := env_of_get? hget
  rw [Env.row?, Env.eq_of_le h (by rw [henv]; nofun), henv]
  exact hget.symm

theorem env_set (b : Bindings) (label other : String) (row : Row) :
    (b.set label row).env other = if other = label then .bound row else b.env other := by
  have hobscured : (b.set label row).isObscured other = b.isObscured other := rfl
  rw [env, get?_set, hobscured]
  by_cases h : other = label
  · rw [if_pos h, if_pos h]
  · rw [if_neg h, if_neg h]
    rfl

theorem env_obscure (b : Bindings) (label other : String) : (b.obscure label).env other =
    if other = label ∧ b.env label = .unvisited then .obscured else b.env other := by
  rw [env, get?_obscure, isObscured_obscure]
  by_cases h : other = label
  · subst h
    unfold env
    cases b.get? other <;> cases b.isObscured other <;> simp
  · simp [h, env]

theorem env_foldl_obscure (labels : List String) (b : Bindings) (other : String) :
    (labels.foldl Bindings.obscure b).env other =
      if other ∈ labels ∧ b.env other = .unvisited then .obscured else b.env other := by
  induction labels generalizing b with
  | nil => simp
  | cons label labels ih =>
    rw [List.foldl_cons, ih, env_obscure]
    by_cases ho : other = label
    · subst ho
      by_cases hv : b.env other = .unvisited <;> simp [hv]
    · simp [ho]

end Bindings

/-- What was bound stays bound in an environment that knows more. -/
theorem Expression.Keeps.of_le {b b' : Bindings} (h : b.env ≤ b'.env) :
    Expression.Keeps b b' := by
  intro label row hrow
  have henv := Bindings.env_of_get? hrow
  refine Bindings.get?_of_env ?_
  rw [← henv]
  exact Env.eq_of_le h (by rw [henv]; nofun)

theorem Expression.truth_of_settled {env : Env} {b : Bindings} (h : b.env ≤ env) {row : Row}
    {e : Expression} {x : Option Bool} (hx : Expression.settled (some row) b e = .ok x) :
    e.truth env row = .ofSettled x := by
  have hrow {l : String} (hl : b.contains l) : env.row? l = b.get? l := Bindings.row?_of_le h hl
  unfold Expression.settled at hx
  cases hu : e.unbound b with
  | nil =>
    rw [hu] at hx
    cases hx
    have hall := Expression.unbound_eq_nil_iff.mp hu
    have hrows : ∀ label ∈ e.labels, env.row? label = b.get? label :=
      fun label hl => hrow (hall label hl)
    have hknown : e.labels.all fun label => (env.row? label).isSome :=
      List.all_eq_true.mpr fun label hl => by rw [hrows label hl]; exact hall label hl
    rw [Expression.truth, if_pos hknown, Expression.value_congr (some row) e hrows]
    rfl
  | cons label labels =>
    rw [hu] at hx
    dsimp only at hx
    split at hx
    · rename_i hobscured
      cases hx
      have hopen {l : String} (hl : l ∈ e.unbound b) : env l = .obscured := by
        have hb := Bindings.env_eq_obscured (Expression.mem_unbound.mp hl).2
          (List.all_eq_true.mp hobscured l (hu ▸ hl))
        rw [Env.eq_of_le h (by rw [hb]; nofun), hb]
      have hfirst : label ∈ e.unbound b := hu ▸ List.mem_cons_self
      rw [Expression.truth, if_neg, if_pos]
      · rfl
      · refine List.all_eq_true.mpr fun l hl => decide_eq_true fun hunvisited => ?_
        cases hc : b.contains l with
        | true =>
          have hsome : (env.row? l).isSome := by rw [hrow hc]; exact hc
          rw [Env.row?, hunvisited] at hsome
          cases hsome
        | false =>
          rw [hopen (Expression.mem_unbound.mpr ⟨hl, hc⟩)] at hunvisited
          cases hunvisited
      · intro hall
        have hsome := List.all_eq_true.mp hall label (Expression.mem_unbound.mp hfirst).1
        rw [Env.row?, hopen hfirst] at hsome
        cases hsome
    · cases hx

namespace Condition

/-- The truth value of a conjunction, or of a disjunction if `true` stops. -/
def settleMany (stop : Bool) (b : Bindings) (cs : List Condition) :
    Except QueryError (Option Bool) :=
  if stop then settleAny b cs else settleAll b cs

variable {stop : Bool} {b : Bindings}

theorem settleMany_nil (stop : Bool) (b : Bindings) :
    settleMany stop b [] = .ok (some !stop) := by cases stop <;> rfl

theorem settleMany_cons (stop : Bool) (b : Bindings) (c : Condition) (cs : List Condition) :
    settleMany stop b (c :: cs) = (c.settle b).bind fun x => match x with
      | some passed => if passed = stop then .ok (some stop) else settleMany stop b cs
      | none => (settleMany stop b cs).map fun y => if y = some stop then some stop else none := by
  cases stop
  · change settleAll b (c :: cs) = _
    rw [settleAll]
    cases c.settle b with
    | error e => rfl
    | ok x =>
      cases x with
      | some passed => cases passed <;> rfl
      | none =>
        change _ = (settleAll b cs).map _
        cases settleAll b cs <;> rfl
  · change settleAny b (c :: cs) = _
    rw [settleAny]
    cases c.settle b with
    | error e => rfl
    | ok x =>
      cases x with
      | some passed => cases passed <;> rfl
      | none =>
        change _ = (settleAny b cs).map _
        cases settleAny b cs <;> rfl

/-- A conjunction or disjunction is settled as the truth values of its parts say. -/
theorem join_of_settleMany_cons {c : Condition} {cs : List Condition} {t ts : Truth}
    {x : Option Bool} (hc : ∀ {z}, c.settle b = .ok z → t = .ofSettled z)
    (hcs : ∀ {y}, settleMany stop b cs = .ok y → ts = .ofSettled y)
    (hx : settleMany stop b (c :: cs) = .ok x) : t.join stop ts = .ofSettled x := by
  rw [settleMany_cons] at hx
  obtain ⟨z, hz, hx⟩ := bind_eq_ok.mp hx
  rw [hc hz]
  cases z with
  | some passed =>
    by_cases hp : passed = stop
    · simp only [hp, if_true] at hx
      cases hx
      simp [Truth.ofSettled, Truth.join, hp]
    · simp only [hp, if_false] at hx
      rw [hcs hx]
      simp [Truth.ofSettled, Truth.join, hp]
  | none =>
    obtain ⟨y, hy, rfl⟩ := map_eq_ok.mp hx
    rw [hcs hy]
    cases y with
    | none => rfl
    | some passed => by_cases hp : passed = stop <;> simp [Truth.ofSettled, Truth.join, hp]

end Condition

namespace Outcome

/-- The truth value of an outcome against the final bindings; `none` if it is open. -/
def settle (b : Bindings) : Outcome → Except QueryError (Option Bool)
  | known passed => .ok (some passed)
  | deferred c => c.settle b

end Outcome

theorem filterAuxM_eq_some {ε α : Type} {f : α → Except ε Bool} {g : α → Option Bool}
    {xs acc rev : List α} (h : ∀ x ∈ xs, ∀ passed, f x = .ok passed → g x = some passed)
    (hf : List.filterAuxM f xs acc = .ok rev) : List.filterAuxM g xs acc = some rev := by
  induction xs generalizing acc with
  | nil => exact congrArg some (Except.ok.inj hf)
  | cons x xs ih =>
    obtain ⟨hx, h⟩ := List.forall_mem_cons.mp h
    rw [List.filterAuxM] at hf ⊢
    obtain ⟨passed, hp, hf⟩ := bind_eq_ok.mp hf
    rw [hx passed hp]
    exact ih h hf

theorem filterM_eq_some {ε α : Type} {f : α → Except ε Bool} {g : α → Option Bool} {xs ys : List α}
    (h : ∀ x ∈ xs, ∀ passed, f x = .ok passed → g x = some passed) (hf : xs.filterM f = .ok ys) :
    xs.filterM g = some ys := by
  obtain ⟨rev, hrev, hys⟩ := bind_eq_ok.mp hf
  rw [List.filterM, filterAuxM_eq_some h hrev]
  exact congrArg some (Except.ok.inj hys)

/-- From labels that are some of those of the environment, a check that succeeds visits more of
them, and its outcome is settled as the truth value. -/
def Judge.Sound (env : Env) (t : Truth) (j : Judge) : Prop :=
  ∀ b o b', b.env ≤ env → j b = .ok (o, b') → b.env ≤ b'.env ∧ b'.env ≤ env ∧
    ∀ final x, b'.env ≤ final.env → final.env ≤ env → o.settle final = .ok x → t = .ofSettled x

/-- A conjunction or disjunction is settled as its open parts are. -/
theorem Judge.settle_outcome (stop : Bool) (final : Bindings) (cs : List Condition) :
    (Judge.outcome stop (some cs)).settle final = Condition.settleMany stop final cs := by
  match cs with
  | [] => cases stop <;> rfl
  | [c] =>
    rw [Condition.settleMany_cons, Condition.settleMany_nil]
    have hone : (Judge.outcome stop (some [c])).settle final = c.settle final := by
      cases stop <;> rfl
    rw [hone]
    cases c.settle final with
    | error e => rfl
    | ok x =>
      cases x with
      | none => cases stop <;> rfl
      | some passed => cases stop <;> cases passed <;> rfl
  | c :: c' :: cs => cases stop <;> rfl

theorem Outcome.finish_eq (o : Outcome) (final : Bindings) :
    o.finish final = (o.settle final).map (·.getD true) := by cases o <;> rfl

theorem Outcome.settle_negate (final : Bindings) (o : Outcome) :
    o.negate.settle final = (o.settle final).map (Option.map (!·)) := by
  cases o with
  | known passed => rfl
  | deferred c => rw [negate, settle, settle, Condition.settle]

namespace Judge.Sound

variable {env : Env} {t : Truth} {j : Judge}

theorem known (passed : Bool) : Sound env (.known passed) (Judge.known passed) := by
  intro b o b' hb hj
  cases hj
  refine ⟨Env.le_refl _, hb, fun final x _ _ hx => ?_⟩
  cases hx
  rfl

theorem negate (h : Sound env t j) : Sound env t.negate j.negate := by
  intro b o b' hb hj
  obtain ⟨⟨o, b'⟩, hr, he⟩ := map_eq_ok.mp hj
  cases he
  obtain ⟨hle, hle', hsettle⟩ := h _ _ _ hb hr
  refine ⟨hle, hle', fun final x hfinal hfinal' hx => ?_⟩
  rw [Outcome.settle_negate] at hx
  obtain ⟨y, hy, rfl⟩ := map_eq_ok.mp hx
  rw [hsettle _ _ hfinal hfinal' hy]
  cases y <;> rfl

/-- The conditions that are open after several checks are settled as the conjunction or disjunction
of the truth values. -/
theorem conditions {γ : Type} {stop : Bool} {xs : List γ} {ts : γ → Truth} {js : γ → Judge}
    (h : ∀ x ∈ xs, Sound env (ts x) (js x)) {b b' : Bindings} {r : Option (List Condition)}
    (hb : b.env ≤ env) (hj : Judge.conditions stop (xs.map js) b = .ok (r, b')) :
    b.env ≤ b'.env ∧ b'.env ≤ env ∧ ∀ final x, b'.env ≤ final.env → final.env ≤ env →
      (Judge.outcome stop r).settle final = .ok x → .many stop (xs.map ts) = Truth.ofSettled x := by
  induction xs generalizing b r with
  | nil =>
    cases hj
    refine ⟨Env.le_refl _, hb, fun final x _ _ hx => ?_⟩
    rw [settle_outcome, Condition.settleMany_nil] at hx
    cases hx
    rfl
  | cons y ys ih =>
    obtain ⟨hy, h⟩ := List.forall_mem_cons.mp h
    have hmany : Truth.many stop ((y :: ys).map ts) = .join stop (ts y) (.many stop (ys.map ts)) :=
      rfl
    rw [List.map_cons, Judge.conditions] at hj
    rw [hmany]
    cases hr : js y b with
    | error e => simp [hr] at hj
    | ok first =>
      obtain ⟨o, c⟩ := first
      obtain ⟨hle, hle', hsettle⟩ := hy _ _ _ hb hr
      rw [hr] at hj
      cases o with
      | known passed =>
        have ht := hsettle _ _ (Env.le_refl _) hle' rfl
        by_cases hp : passed = stop
        -- the check has stopped, and the rest is not looked at
        · simp only [hp, if_true] at hj
          cases hj
          refine ⟨hle, hle', fun final x hfinal hfinal' hx => ?_⟩
          cases hx
          simp [ht, Truth.ofSettled, Truth.join, hp]
        · simp only [hp, if_false] at hj
          obtain ⟨hle₂, hle₂', hrest⟩ := ih h hle' hj
          refine ⟨Env.le_trans hle hle₂, hle₂', fun final x hfinal hfinal' hx => ?_⟩
          rw [ht, ← hrest _ _ hfinal hfinal' hx]
          simp [Truth.ofSettled, Truth.join, hp]
      | deferred cond =>
        obtain ⟨⟨cs?, c'⟩, hcs, he⟩ := map_eq_ok.mp hj
        cases he
        obtain ⟨hle₂, hle₂', hrest⟩ := ih h hle' hcs
        refine ⟨Env.le_trans hle hle₂, hle₂', fun final x hfinal hfinal' hx => ?_⟩
        cases cs? with
        | none =>
          cases hx
          rw [hrest _ _ hfinal hfinal' rfl]
          exact Truth.join_stop stop (ts y)
        | some cs =>
          dsimp only [Option.map_some] at hx
          rw [settle_outcome] at hx
          refine Condition.join_of_settleMany_cons (fun hz => ?_) (fun hw => ?_) hx
          · exact hsettle _ _ (Env.le_trans hle₂ hfinal) hfinal' hz
          · exact hrest _ _ hfinal hfinal' (by rw [settle_outcome, hw])

theorem join {γ : Type} (stop : Bool) {xs : List γ} {ts : γ → Truth} {js : γ → Judge}
    (h : ∀ x ∈ xs, Sound env (ts x) (js x)) :
    Sound env (.many stop (xs.map ts)) (Judge.join stop (xs.map js)) := by
  intro b o b' hb hj
  obtain ⟨⟨r, b'⟩, hr, he⟩ := map_eq_ok.mp hj
  cases he
  exact conditions h hb hr

theorem obscured (passed : Bool) {labels : List String}
    (h : ∀ label ∈ labels, env label = .obscured) :
    Sound env (.known passed) fun b => .ok (.known passed, labels.foldl Bindings.obscure b) := by
  intro b o b' hb hj
  cases hj
  have henv (label : String) := Bindings.env_foldl_obscure labels b label
  refine ⟨fun label => ?_, fun label => ?_, fun final x _ _ hx => ?_⟩
  · rw [henv]
    by_cases hl : b.env label = .unvisited
    · exact .inl hl
    · rw [if_neg fun hand => hl hand.2]
      exact .inr rfl
  · rw [henv]
    split
    · rename_i hand
      exact .inr (h label hand.1).symm
    · exact hb label
  · cases hx
    rfl

theorem expr (row : Row) (e : Expression) : Sound env (e.truth env row) fun b =>
    match e.evaluate (some row) b with
    | .resolved value => .ok (.known value.truthy, b)
    | .pending rest => .ok (.deferred (.expr rest), b) := by
  intro b o b' hb hj
  dsimp only at hj
  rcases Expression.evaluate_cases (some row) b e with ⟨hnil, he⟩ | ⟨-, rest, he⟩
  · rw [he] at hj
    cases hj
    refine ⟨Env.le_refl _, hb, fun final x _ _ hx => Expression.truth_of_settled hb ?_⟩
    rw [Expression.settled, hnil]
    exact hx
  · have hrest : Expression.residual (some row) b e = rest := by
      rw [Expression.residual, he]
      rfl
    rw [he] at hj
    cases hj
    refine ⟨Env.le_refl _, hb, fun final x hfinal hfinal' hx => ?_⟩
    refine Expression.truth_of_settled hfinal' ?_
    rw [← Expression.settle_residual (.of_le hfinal) (some row) e, hrest]
    exact hx

theorem label {label : String} {row : Row} (h : Sound env t j) (hl : env label = .bound row) :
    Sound env t fun b => (b.bind label row).bind j := by
  intro b o b' hb hj
  obtain ⟨c, hc, hj⟩ := bind_eq_ok.mp hj
  have hset : b.set label row = c := by
    unfold Bindings.bind at hc
    split at hc
    · cases hc
    · exact Except.ok.inj hc
  have henv (other : String) : c.env other = if other = label then .bound row else b.env other := by
    rw [← hset, Bindings.env_set]
  have hbc : b.env ≤ c.env := by
    intro other
    rw [henv]
    split
    · rename_i he
      rw [he, ← hl]
      exact hb label
    · exact .inr rfl
  have hce : c.env ≤ env := by
    intro other
    rw [henv]
    split
    · rename_i he
      rw [he]
      exact .inr hl.symm
    · exact hb other
  obtain ⟨hle, hle', hsettle⟩ := h _ _ _ hce hj
  exact ⟨Env.le_trans hbc hle, hle', hsettle⟩

/-- A check that is finished against the labels that it leaves finds the verdict. -/
theorem verdict (h : Sound env t j) {seed : Bindings} (hseed : seed.env ≤ env) {passed : Bool}
    (hj : j.verdict seed = .ok passed) : t.verdict? = some passed := by
  obtain ⟨⟨o, b⟩, hr, hfinish⟩ := bind_eq_ok.mp hj
  obtain ⟨-, hle, hsettle⟩ := h _ _ _ hseed hr
  rw [Outcome.finish_eq] at hfinish
  obtain ⟨x, hx, rfl⟩ := map_eq_ok.mp hfinish
  rw [hsettle _ _ (Env.le_refl _) hle hx]
  cases x <;> rfl

/-- The rows of a subquery, each one checked on its own. -/
theorem keys {v : View} {entity attr : String} {js : Row → Judge} {ts : Row → Truth}
    {envs : Row → Env} {seed : Bindings} (h : ∀ row, Sound (envs row) (ts row) (js row))
    (hseed : ∀ row, seed.env ≤ envs row) {keys : List String}
    (hj : Judge.keys v entity attr js seed = .ok keys) :
    ∃ rows, (v.scan entity).filterM (fun row => (ts row).verdict?) = some rows ∧
      keys = rows.filterMap fun row => (Fields.get? row attr).map Json.memberKey := by
  obtain ⟨rows, hrows, rfl⟩ := map_eq_ok.mp hj
  refine ⟨rows, filterM_eq_some (fun row _ passed hp => ?_) hrows, rfl⟩
  exact verdict (h row) (hseed row) hp

end Judge.Sound

end EntityStore
