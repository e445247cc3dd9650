import EntityStore.Proofs.Query.Expression
import EntityStore.Proofs.Query.Judge

/-! The truth of a filter. Whatever the order in which a filter is checked, its labels can only come
to stand for certain rows, or be obscured (`Filter.assigns`). Under these labels the filter has a
truth value (`Filter.truth`) that no order enters, and a check that succeeds finds this value
(`Filter.judge_sound`). -/

namespace EntityStore

/-- The truth value of a part of a filter. One that fails cannot be found by any check. -/
inductive Truth where
  | known (passed : Bool)
  /-- It rests on labels that are obscured. -/
  | unknown
  | fails
deriving DecidableEq

namespace Truth

/-- The truth value that a settled condition shows. -/
def ofSettled : Option Bool → Truth
  | some passed => known passed
  | none => unknown

def negate : Truth → Truth
  | known passed => known !passed
  | t => t

/-- A conjunction, where `false` stops, or a disjunction, where `true` stops. -/
def join (stop : Bool) : Truth → Truth → Truth
  | known passed, t => if passed = stop then known stop else t
  | t, known passed => if passed = stop then known stop else t
  | unknown, unknown => unknown
  | _, _ => fails

/-- The conjunction or disjunction of several truth values. -/
def many (stop : Bool) (ts : List Truth) : Truth := ts.foldr (join stop) (known !stop)

/-- The final verdict, where what is unknown passes. -/
def verdict? : Truth → Option Bool
  | known passed => some passed
  | unknown => some true
  | fails => none

theorem join_left_comm (stop : Bool) (a b c : Truth) :
    join stop a (join stop b c) = join stop b (join stop a c) := by
  cases a <;> cases b <;> cases c <;> simp only [join] <;> grind [join]

theorem join_stop (stop : Bool) (t : Truth) : join stop t (known stop) = known stop := by
  cases t <;> simp [join]

end Truth

/-! ## What labels stand for -/

/-- What a label stands for. -/
inductive Status where
  | unvisited
  | bound (row : Row)
  | obscured
deriving DecidableEq

/-- What all labels stand for. -/
abbrev Env := String → Status

namespace Env

/-- No label was visited. -/
def empty : Env := fun _ => .unvisited

/-- The second environment knows what the first one knows, and maybe more labels. -/
def Le (env env' : Env) : Prop := ∀ label, env label = .unvisited ∨ env label = env' label

instance : LE Env := ⟨Le⟩

/-- The row that a label stands for. -/
def row? (env : Env) (label : String) : Option Row :=
  match env label with
  | .bound row => some row
  | _ => none

/-- The environment in which labels stand for something else. A label that is repeated does not. -/
def extend (env : Env) (assigns : List (String × Status)) : Env := fun label =>
  match assigns.filter fun entry => entry.1 = label with
  | [(_, status)] => status
  | _ => env label

variable {env env' env'' : Env} {assigns assigns' : List (String × Status)} {label : String}
  {status : Status}

theorem le_refl (env : Env) : env ≤ env := fun _ => .inr rfl

theorem le_trans (h : env ≤ env') (h' : env' ≤ env'') : env ≤ env'' := by
  intro label
  rcases h label with hl | hl
  · exact .inl hl
  · rw [hl]
    exact h' label

theorem empty_le (env : Env) : empty ≤ env := fun _ => .inl rfl

theorem eq_of_le (h : env ≤ env') (hl : env label ≠ .unvisited) : env' label = env label :=
  ((h label).resolve_left hl).symm

theorem extend_perm (h : assigns.Perm assigns') : env.extend assigns = env.extend assigns' := by
  funext label
  have h := h.filter fun entry => entry.1 = label
  unfold extend
  generalize assigns.filter _ = xs at h ⊢
  generalize assigns'.filter _ = ys at h ⊢
  match xs, ys, h.length_eq with
  | [], [], _ => rfl
  | [x], [y], _ => rw [List.singleton_perm_singleton.mp h]
  | _ :: _ :: _, _ :: _ :: _, _ => rfl

theorem filter_eq_of_mem (hd : (assigns.map (·.1)).Nodup) (h : (label, status) ∈ assigns) :
    assigns.filter (fun entry => entry.1 = label) = [(label, status)] := by
  induction assigns with
  | nil => cases h
  | cons entry rest ih =>
    obtain ⟨hnot, hd⟩ := List.nodup_cons.mp hd
    rcases List.mem_cons.mp h with he | h
    · subst he
      rw [List.filter_cons_of_pos (by simp)]
      refine congrArg _ (List.filter_eq_nil_iff.mpr fun other hother he => hnot ?_)
      exact List.mem_map.mpr ⟨other, hother, of_decide_eq_true he⟩
    · rw [List.filter_cons_of_neg, ih hd h]
      intro he
      exact hnot (List.mem_map.mpr ⟨_, h, (of_decide_eq_true he).symm⟩)

theorem extend_of_mem (hd : (assigns.map (·.1)).Nodup) (h : (label, status) ∈ assigns) :
    env.extend assigns label = status := by
  rw [extend, filter_eq_of_mem hd h]

theorem extend_of_not_mem (h : label ∉ assigns.map (·.1)) :
    env.extend assigns label = env label := by
  have hnil : assigns.filter (fun entry => entry.1 = label) = [] :=
    List.filter_eq_nil_iff.mpr fun entry hentry he =>
      h (List.mem_map.mpr ⟨entry, hentry, of_decide_eq_true he⟩)
  rw [extend, hnil]

end Env

/-- What the labels stand for so far. A label that is bound is not obscured. -/
def Bindings.env (b : Bindings) : Env := fun label =>
  match b.get? label with
  | some row => .bound row
  | none => if b.isObscured label then .obscured else .unvisited

/-- The truth of an expression: its value where all its labels stand for rows, and open where some
of them are obscured. -/
def Expression.truth (env : Env) (row : Row) (e : Expression) : Truth :=
  if e.labels.all fun label => (env.row? label).isSome then
    .known (e.value (some row) env.row?).truthy
  else if e.labels.all fun label => env label ≠ .unvisited then .unknown
  else .fails

namespace Filter

mutual

/-- The labels of a filter, without those of its subqueries. -/
def ownLabels : Filter → List String
  | .mk label _ clauses => label.toList ++ ownLabelsClauses clauses

/-- The labels of clauses. -/
def ownLabelsClauses : List Clause → List String
  | [] => []
  | clause :: rest => ownLabelsClause clause ++ ownLabelsClauses rest

/-- The labels of one clause. -/
def ownLabelsClause : Clause → List String
  | .and parts | .or parts => ownLabelsParts parts
  | .not part | .relation _ part => ownLabels part
  | .expr _ | .text .. | .attribute .. => []

/-- The labels of several filters. -/
def ownLabelsParts : List Filter → List String
  | [] => []
  | part :: rest => ownLabels part ++ ownLabelsParts rest

end

/-- The labels of the subqueries of a filter. -/
def innerLabels (f : Filter) : List String := f.subqueries.flatMap fun q => q.filter.ownLabels

/-- All labels of a filter, those of its subqueries included. -/
def labels (f : Filter) : List String := f.ownLabels ++ f.innerLabels

mutual

/-- What the labels of a filter come to stand for if every part of it is checked. -/
def assigns (v : View) : Filter → Row → List (String × Status)
  | .mk label obscure clauses, row =>
    label.toList.map (·, .bound row) ++ assignsClauses v obscure clauses row

/-- What the labels of clauses come to stand for. -/
def assignsClauses (v : View) (obscure : Bool) : List Clause → Row → List (String × Status)
  | [], _ => []
  | clause :: rest, row => assignsClause v obscure clause row ++ assignsClauses v obscure rest row

/-- What the labels of one clause come to stand for. -/
def assignsClause (v : View) (obscure : Bool) : Clause → Row → List (String × Status)
  | .and parts, row | .or parts, row => assignsParts v parts row
  | .not part, row => assigns v part row
  | .relation pointer part, row =>
    match v.follow pointer row with
    | .found target => assigns v part target
    | .elsewhere => []
    | .unset | .missing => if obscure then part.ownLabels.map (·, .obscured) else []
  | .expr _, _ | .text .., _ | .attribute .., _ => []

/-- What the labels of several filters come to stand for. -/
def assignsParts (v : View) : List Filter → Row → List (String × Status)
  | [], _ => []
  | part :: rest, row => assigns v part row ++ assignsParts v rest row

end

mutual

/-- The truth of a filter, where its labels stand for what the environment says. -/
def truth (v : View) (env : Env) : Filter → Row → Truth
  | .mk _ obscure clauses, row => .many false (truthClauses v env obscure clauses row)

/-- The truth of clauses. -/
def truthClauses (v : View) (env : Env) (obscure : Bool) : List Clause → Row → List Truth
  | [], _ => []
  | clause :: rest, row =>
    truthClause v env obscure clause row :: truthClauses v env obscure rest row

/-- The truth of one clause. -/
def truthClause (v : View) (env : Env) (obscure : Bool) : Clause → Row → Truth
  | .and parts, row => .many false (truthParts v env parts row)
  | .or parts, row => .many true (truthParts v env parts row)
  | .not part, row => (truth v env part row).negate
  | .expr e, row => e.truth env row
  | .text attributes search, row => .known (findsText obscure attributes search row)
  | .attribute name tests, row =>
    match Fields.get? row name with
    | none => .known (obscure || tests.all Test.holdsOfAbsent)
    | some value => .many false (truthTests v env obscure tests value)
  | .relation pointer part, row =>
    match v.follow pointer row with
    | .found target => truth v env part target
    | .elsewhere => .known false
    | .unset | .missing => .known obscure

/-- The truth of several filters. -/
def truthParts (v : View) (env : Env) : List Filter → Row → List Truth
  | [], _ => []
  | part :: rest, row => truth v env part row :: truthParts v env rest row

/-- The truth of tests. -/
def truthTests (v : View) (env : Env) (obscure : Bool) : List Test → Json → List Truth
  | [], _ => []
  | test :: rest, value => truthTest v env obscure test value :: truthTests v env obscure rest value

/-- The truth of one test. -/
def truthTest (v : View) (env : Env) (obscure : Bool) : Test → Json → Truth
  | .compare op operand, value => .known (op.test value operand)
  | .between low high, value =>
    .known (Comparison.gte.test value low && Comparison.lte.test value high)
  | .startsWith start, value => .known (Test.begins start value)
  | .endsWith ending, value => .known (Test.ends ending value)
  | .includes operand, value => .known (Test.holds operand value)
  | .present expected, value => .known (value.isNull != expected)
  | .isIn candidates, value =>
    if obscure then .known true else truthCandidates v env candidates value
  | .notIn candidates, value => (truthCandidates v env candidates value).negate

/-- Whether a value is among the candidates. A subquery fails if the check of one of its rows
does. -/
def truthCandidates (v : View) (env : Env) : Candidates → Json → Truth
  | .literal keys, value => .known (keys.contains value.memberKey)
  | .subquery _ entity attr filter correlated, value =>
    let outer := if correlated || !v.eagerSubqueries then env else .empty
    let passing := (v.scan entity).filterM fun row =>
      (truth v (outer.extend (assigns v filter row)) filter row).verdict?
    match passing with
    | some rows => .known <|
      (rows.filterMap fun row => (Fields.get? row attr).map Json.memberKey).contains value.memberKey
    | none => .fails

end

end Filter

end EntityStore
