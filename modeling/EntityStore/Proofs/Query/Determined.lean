import EntityStore.Query.Select
import EntityStore.Proofs.Execution

/-! What a select reads. The counters and the journal that queries leave behind have no influence on
their results: a select is determined by the view (`View.select_determined`). -/

namespace EntityStore

theorem Query.ofExcept_determined {α : Type} (r : Except QueryError α) :
    Determined (Query.ofExcept r) := fun _ _ => rfl

theorem Query.matching_determined (v : View) (filter : Filter) (seed : Bindings)
    (rows : List Row) : Determined (Query.matching v filter seed rows) := fun _ _ => rfl

namespace Form

variable {α β : Type}

theorem bind_determined {x : Form α} {f : α → Form β} (hx : ∀ g, Determined (x.run g))
    (hf : ∀ a g, Determined ((f a).run g)) (g : Forming) : Determined ((x >>= f).run g) := by
  rw [StateT.run_bind]
  exact (hx g).bind fun r => hf r.1 r.2

theorem pure_determined (a : α) (g : Forming) : Determined ((pure a : Form α).run g) :=
  determined_pure (a, g)

theorem lift_determined {q : Query α} (h : Determined q) (g : Forming) :
    Determined ((liftM q : Form α).run g) := h.bind fun a => determined_pure (a, g)

theorem label_determined (label : String) (row : Row) (g : Forming) :
    Determined ((Form.bind label row).run g) := by
  refine bind_determined (fun g => determined_pure (g, g)) (fun forming => ?_) g
  exact bind_determined (lift_determined (Query.ofExcept_determined _)) fun _ _ => determined_pure _

end Form

namespace View

theorem matching_determined (v : View) (entity : String) (s : Selection) (option : SelectOption) :
    Determined (v.matching entity s option) := by
  have hcount (matched : List Row) : Determined (do
      Query.count fun m => { m with scanned := m.scanned + (v.scan entity).length }
      return matched) := (determined_modify _).bind fun _ => determined_pure matched
  rw [matching]
  refine (Query.ofExcept_determined _).bind fun _ => ?_
  cases s.filter with
  | none => exact (determined_pure _).bind hcount
  | some document =>
    refine (Query.ofExcept_determined _).bind fun filter => ?_
    exact (Query.matching_determined v filter option.bindings _).bind hcount

theorem finishSelect_determined (v : View) (entity : String) (matched returned : Nat) :
    Determined (v.finishSelect entity matched returned) := by
  refine (determined_modify _).bind fun _ => ?_
  split
  · exact determined_modify _
  · exact determined_pure _

mutual

theorem select_determined (v : View) (entity : String) (s : Selection) (option : SelectOption) :
    Determined (v.select entity s option) := by
  rw [select]
  refine (v.matching_determined entity s option).bind fun matched => ?_
  refine (form_determined v entity matched s option).bind fun rows => ?_
  have hfinish := v.finishSelect_determined entity matched.length rows.length
  exact hfinish.bind fun _ => determined_pure rows
termination_by (Json.nestingFields s.data, 2, 0)

theorem form_determined (v : View) (entity : String) (rows : List Row) (s : Selection)
    (option : SelectOption) : Determined (v.form entity rows s option) := by
  rw [form]
  refine (Query.ofExcept_determined _).bind fun plan => ?_
  refine Determined.bind (.mapM fun row _ => ?_) fun projected => determined_pure _
  refine (project_determined v entity option.obscure [] (v.hoist entity s).2 row _).bind ?_
  exact fun _ => Query.ofExcept_determined _
termination_by (Json.nestingFields s.data, 1, 0)
decreasing_by
  have := nestingFields_hoist_le v entity s
  simp only [Prod.lex_def]
  omega

theorem project_determined (v : View) (entity : String) (obscure : Bool) (path : List String)
    (projection : List (String × Json)) (row : Row) (forming : Forming) :
    Determined ((v.project entity obscure path projection row).run forming) := by
  rw [project]
  refine Form.bind_determined (Form.lift_determined (Query.ofExcept_determined _)) ?_ forming
  intro label g
  cases label with
  | none => exact projectFields_determined v entity obscure path projection [] row g
  | some label =>
    refine Form.bind_determined (Form.label_determined label row) ?_ g
    exact fun _ g => projectFields_determined v entity obscure path projection [] row g
termination_by (Json.nestingFields projection, 0, sizeOf projection + 1)

theorem projectFields_determined (v : View) (entity : String) (obscure : Bool) (path : List String)
    (projection : List (String × Json)) (out row : Row) (forming : Forming) :
    Determined ((v.projectFields entity obscure path projection out row).run forming) := by
  match projection with
  | [] =>
    rw [projectFields]
    exact Form.pure_determined out forming
  | (key, spec) :: rest =>
    have hrest (out : Row) (g : Forming) :
        Determined ((v.projectFields entity obscure path rest out row).run g) :=
      projectFields_determined v entity obscure path rest out row g
    rw [projectFields]
    split
    · exact hrest out forming
    split
    · exact determined_throw _
    · refine Form.bind_determined (fun g => determined_pure (g, g)) (fun s g => ?_) forming
      cases Expression.evaluate (some row) s.bindings _ with
      | resolved value => exact hrest (Fields.insert out key value) g
      | pending e =>
        exact Form.bind_determined (fun g => determined_pure _) (fun _ => hrest out) g
    · exact hrest _ forming
    · rename_i target back selection hfield
      cases Fields.get? row "id" with
      | none => exact Form.bind_determined (Form.pure_determined _) (fun _ => hrest _) forming
      | some id =>
        refine Form.bind_determined (fun g => determined_pure (g, g)) (fun s g => ?_) forming
        refine Form.bind_determined (Form.lift_determined ?_) (fun _ => hrest _) g
        exact select_determined v target (Projected.selectionOf entity id back selection) _
    · rename_i p nested hfield
      cases v.follow p row with
      | found target =>
        refine Form.bind_determined (fun g => ?_) (fun _ => hrest _) forming
        exact project_determined v p.target obscure (path ++ [key]) nested target g
      | unset => cases p <;> exact hrest _ forming
      | elsewhere => cases p <;> exact hrest _ forming
      | missing => exact hrest _ forming
termination_by (Json.nestingFields projection, 0, sizeOf projection)
decreasing_by
  · exact descends_tail ..
  · rename_i hfield _ _ _
    have hlt := Projected.nestingFields_lt_of_children rest hfield
    exact .left _ _ hlt
  · rename_i hfield _
    have hle := Projected.nestingFields_le_of_pointer rest hfield
    cases Projected.eq_obj_of_pointer hfield
    exact descends hle (by
      simp only [List.cons.sizeOf_spec, Prod.mk.sizeOf_spec, Json.obj.sizeOf_spec]; omega)

end

end View

end EntityStore
