import EntityStore.Proofs.Query.Document
import EntityStore.Proofs.Query.Labels
import EntityStore.Proofs.Query.Sites
import EntityStore.Proofs.Query.Verdict

/-! Reordered filters. A filter document may be written in another order: the keys of its filter
objects, the operators of an attribute, and the items of `$and` and `$or`, at any depth. Where all
labels are distinct, both documents give every row the same verdict, if they give it one
(`Filter.verdict_reordered`). -/

namespace EntityStore

/-- Where a document stands in a filter. -/
inductive Place where
  /-- A filter on the rows of an entity. -/
  | filter (entity : String)
  /-- The value under a key of a filter on the rows of an entity. -/
  | field (entity key : String)
  /-- The operand of an operator of an attribute. -/
  | operand (name : String)

/-- The second document is the first one in another order. -/
inductive Reordered (schema : Schema) : Place → Json → Json → Prop where
  | refl {place} (document : Json) : Reordered schema place document document
  | trans {place document document' document''} (h : Reordered schema place document document')
    (h' : Reordered schema place document' document'') : Reordered schema place document document''
  /-- The keys of a filter object. -/
  | keys {entity} {fields fields' : List (String × Json)} (hd : (fields.map (·.1)).Nodup)
    (h : fields.Perm fields') : Reordered schema (.filter entity) (.obj fields) (.obj fields')
  | field {entity key value value'} {before after : List (String × Json)} (hk : key ≠ "#id")
    (h : Reordered schema (.field entity key) value value') :
    Reordered schema (.filter entity) (.obj (before ++ (key, value) :: after))
      (.obj (before ++ (key, value') :: after))
  /-- The items of a conjunction or disjunction. -/
  | items {entity key} {items items' : List Json} (hk : key = "$and" ∨ key = "$or")
    (h : items.Perm items') : Reordered schema (.field entity key) (.arr items) (.arr items')
  | item {entity key document document'} {before after : List Json}
    (hk : key = "$and" ∨ key = "$or") (h : Reordered schema (.filter entity) document document') :
    Reordered schema (.field entity key) (.arr (before ++ document :: after))
      (.arr (before ++ document' :: after))
  | not {entity document document'} (h : Reordered schema (.filter entity) document document') :
    Reordered schema (.field entity "$not") document document'
  | relation {entity key p document document'} (hk : Expression.isOperatorKey key = false)
    (hp : schema.relation entity key = .ok (.pointer p))
    (h : Reordered schema (.filter p.target) document document') :
    Reordered schema (.field entity key) document document'
  /-- The operators of an attribute. -/
  | operators {entity key} {operators operators' : List (String × Json)}
    (hk : Expression.isOperatorKey key = false) (hc : schema.relation entity key = .ok .column)
    (ho : operators.any fun (name, _) => Expression.isOperatorKey name)
    (h : operators.Perm operators') :
    Reordered schema (.field entity key) (.obj operators) (.obj operators')
  | operator {entity key name operand operand'} {before after : List (String × Json)}
    (hk : Expression.isOperatorKey key = false) (hc : schema.relation entity key = .ok .column)
    (hn : name = "$in" ∨ name = "$nin") (h : Reordered schema (.operand name) operand operand') :
    Reordered schema (.field entity key) (.obj (before ++ (name, operand) :: after))
      (.obj (before ++ (name, operand') :: after))
  /-- The filter of a subquery. -/
  | subquery {name target column document document'} {before after : List (String × Json)}
    (ht : Filter.subqueryColumn schema (before ++ ("filter", document) :: after) =
      .ok (target, column))
    (h : Reordered schema (.filter target) document document') :
    Reordered schema (.operand name) (.obj (before ++ ("filter", document) :: after))
      (.obj (before ++ ("filter", document') :: after))

/-! ## Results that carry over -/

/-- If the first computation succeeds, so does the second, with a related result. -/
def Carries {ε α β : Type} (R : α → β → Prop) (x : Except ε α) (y : Except ε β) : Prop :=
  ∀ a, x = .ok a → ∃ b, y = .ok b ∧ R a b

namespace Carries

variable {ε ε' α β γ δ : Type} {R : α → β → Prop} {S : γ → δ → Prop} {x : Except ε α}
  {y : Except ε β}

theorem refl {R : α → α → Prop} (h : ∀ a, R a a) (x : Except ε α) : Carries R x x :=
  fun a ha => ⟨a, ha, h a⟩

theorem trans {x y z : Except ε α} {R : α → α → Prop} (h : Carries R x y)
    (hR : ∀ a b c, R a b → R b c → R a c) (h' : Carries R y z) : Carries R x z := by
  intro a ha
  obtain ⟨b, hb, hab⟩ := h a ha
  obtain ⟨c, hc, hbc⟩ := h' b hb
  exact ⟨c, hc, hR a b c hab hbc⟩

theorem map {f : α → γ} {g : β → δ} (h : Carries R x y) (hf : ∀ a b, R a b → S (f a) (g b)) :
    Carries S (x.map f) (y.map g) := by
  intro c hc
  obtain ⟨a, ha, rfl⟩ := map_eq_ok.mp hc
  obtain ⟨b, hb, hab⟩ := h a ha
  exact ⟨g b, by rw [hb]; rfl, hf a b hab⟩

theorem bind {x : Except ε α} {f : α → Except ε γ} {g : α → Except ε δ}
    (h : ∀ a, x = .ok a → Carries S (f a) (g a)) : Carries S (x.bind f) (x.bind g) := by
  intro c hc
  obtain ⟨a, ha, hc⟩ := bind_eq_ok.mp hc
  obtain ⟨d, hd, hcd⟩ := h a ha c hc
  exact ⟨d, by rw [ha]; exact hd, hcd⟩

theorem mapError {f : ε → ε'} {g : ε → ε'} (h : Carries R x y) :
    Carries R (x.mapError f) (y.mapError g) := by
  intro a ha
  obtain ⟨b, hb, hab⟩ := h a (mapError_eq_ok.mp ha)
  exact ⟨b, mapError_eq_ok.mpr hb, hab⟩

theorem mapM_perm {f : α → Except ε β} {xs ys : List α} (h : xs.Perm ys) :
    Carries List.Perm (xs.mapM f) (ys.mapM f) := by
  induction h with
  | nil => exact refl .refl _
  | cons x _ ih =>
    rw [mapM_cons, mapM_cons]
    exact .bind fun b _ => ih.map fun _ _ h => h.cons b
  | swap x y xs =>
    intro as has
    rw [mapM_cons, mapM_cons] at has
    obtain ⟨b, hb, has⟩ := bind_eq_ok.mp has
    obtain ⟨bs, hbs, rfl⟩ := map_eq_ok.mp has
    obtain ⟨c, hc, hbs⟩ := bind_eq_ok.mp hbs
    obtain ⟨cs, hcs, rfl⟩ := map_eq_ok.mp hbs
    refine ⟨c :: b :: cs, ?_, .swap ..⟩
    rw [mapM_cons, mapM_cons, hb, hc, hcs]
    rfl
  | trans _ _ ih ih' =>
    intro as has
    obtain ⟨bs, hbs, hp⟩ := ih as has
    obtain ⟨cs, hcs, hp'⟩ := ih' bs hbs
    exact ⟨cs, hcs, hp.trans hp'⟩

theorem mapM_replace {α : Type} {f : α → Except ε β} {S : List β → List β → Prop} {x x' : α}
    {R : β → β → Prop} (h : Carries R (f x) (f x')) (before after : List α)
    (hS : ∀ b b' bs cs, R b b' → S (bs ++ b :: cs) (bs ++ b' :: cs)) :
    Carries S ((before ++ x :: after).mapM f) ((before ++ x' :: after).mapM f) := by
  induction before generalizing S with
  | nil =>
    intro as has
    rw [List.nil_append, mapM_cons] at has
    obtain ⟨b, hb, has⟩ := bind_eq_ok.mp has
    obtain ⟨bs, hbs, rfl⟩ := map_eq_ok.mp has
    obtain ⟨b', hb', hR⟩ := h b hb
    refine ⟨b' :: bs, ?_, hS b b' [] bs hR⟩
    rw [List.nil_append, mapM_cons, hb', hbs]
    rfl
  | cons y before ih =>
    rw [List.cons_append, List.cons_append, mapM_cons, mapM_cons]
    refine .bind fun b _ => (ih (S := fun bs bs' => S (b :: bs) (b :: bs')) ?_).map fun _ _ h => h
    exact fun c c' bs cs hR => hS c c' (b :: bs) cs hR

end Carries

namespace Fields

variable {β : Type} {name : String}

theorem get?_perm {fields fields' : Fields β} (h : fields.Perm fields')
    (hd : (fields.map (·.1)).Nodup) : get? fields name = get? fields' name := by
  induction h with
  | nil => rfl
  | cons field _ ih =>
    rw [get?_cons, get?_cons, ih (List.nodup_cons.mp hd).2]
  | swap field field' rest =>
    obtain ⟨hnot, -⟩ := List.nodup_cons.mp hd
    have hne : field'.1 ≠ field.1 := fun he => hnot (List.mem_cons.mpr (.inl he))
    rw [get?_cons, get?_cons, get?_cons, get?_cons]
    by_cases h : name = field.1
    · by_cases h' : name = field'.1
      · exact absurd (h'.symm.trans h) hne
      · rw [if_neg h', if_pos h, if_pos h]
    · rw [if_neg h, if_neg h]
  | trans h _ ih ih' =>
    exact (ih hd).trans (ih' ((h.map _).nodup_iff.mp hd))

theorem get?_replace {key : String} (h : name ≠ key) (value value' : β) (before after : Fields β) :
    get? (before ++ (key, value) :: after) name = get? (before ++ (key, value') :: after) name := by
  induction before with
  | nil => rw [List.nil_append, List.nil_append, get?_cons, get?_cons, if_neg h, if_neg h]
  | cons field before ih => rw [List.cons_append, List.cons_append, get?_cons, get?_cons, ih]

theorem get?_at (key : String) (value : β) (before after : Fields β) :
    get? (before ++ (key, value) :: after) key = (get? before key).or (some value) := by
  induction before with
  | nil => rw [List.nil_append, get?_cons, if_pos rfl, get?_nil, Option.none_or]
  | cons field before ih =>
    rw [List.cons_append, get?_cons, get?_cons, ih]
    split <;> rfl

end Fields

/-! ## The labels of a document -/

namespace Collects

variable {ofFields : List (String × Json) → List String} (hL : Collects ofFields)

include hL

theorem replace_perm {field field' : String × Json}
    (h : (ofFields [field]).Perm (ofFields [field']))
    (before after : List (String × Json)) :
    (ofFields (before ++ field :: after)).Perm (ofFields (before ++ field' :: after)) := by
  rw [hL.eq_flatMap, hL.eq_flatMap, List.flatMap_append, List.flatMap_append, List.flatMap_cons,
    List.flatMap_cons]
  exact (h.append_right _).append_left _

/-- A document has the same labels in another order. -/
theorem perm_of_reordered {schema : Schema} {place : Place} {document document' : Json}
    (h : Reordered schema place document document') (key : String) :
    (ofFields [(key, document)]).Perm (ofFields [(key, document')]) := by
  induction h generalizing key with
  | refl document => exact .refl _
  | trans _ _ ih ih' => exact (ih key).trans (ih' key)
  | keys _ h | operators _ _ _ h =>
    rw [hL.obj, hL.obj, hL.eq_flatMap, hL.eq_flatMap]
    exact h.flatMap_right _
  | field _ _ ih | operator _ _ _ _ ih | subquery _ _ ih =>
    rw [hL.obj, hL.obj]
    exact hL.replace_perm (ih _) _ _
  | items _ h =>
    rw [hL.arr, hL.arr]
    exact h.flatMap_right _
  | item _ _ ih =>
    rw [hL.arr, hL.arr, List.flatMap_append, List.flatMap_append, List.flatMap_cons,
      List.flatMap_cons]
    exact ((ih _).append_right _).append_left _
  | not _ ih | relation _ _ _ ih => exact ih key

end Collects

theorem Filter.isCorrelated_of_reordered {schema : Schema} {place : Place}
    {document document' : Json} (h : Reordered schema place document document') :
    isCorrelated document = isCorrelated document' := by
  have hbound : (labelsBound document).Perm (labelsBound document') := by
    simpa [labelsBoundFields] using Collects.bound.perm_of_reordered h ""
  have hread : (labelsRead document).Perm (labelsRead document') := by
    simpa [labelsReadFields] using Collects.read.perm_of_reordered h ""
  unfold isCorrelated
  rw [Bool.eq_iff_iff, List.any_eq_true, List.any_eq_true]
  simp only [hbound.mem_iff, hread.mem_iff]

/-! ## The meaning of a reordered document -/

namespace Reordered

open EntityStore.Filter

variable {schema : Schema}

/-- The second document is compiled if the first one is, and to the same meaning. -/
def MeansSame (schema : Schema) : Place → Json → Json → Prop
  | .filter entity, document, document' => ∀ obscure,
    Carries Meaning.Same (documentMeaning schema entity obscure document)
      (documentMeaning schema entity obscure document')
  | .field entity key, value, value' => ∀ obscure,
    Carries Meaning.Same (fieldMeaning schema entity obscure (key, value))
      (fieldMeaning schema entity obscure (key, value'))
  | .operand name, operand, operand' => ∀ attr,
    Carries Meaning.Same (operandMeaning schema name attr operand)
      (operandMeaning schema name attr operand')

theorem MeansSame.refl (place : Place) (document : Json) :
    MeansSame schema place document document := by
  cases place <;> exact fun _ => .refl .refl _

theorem MeansSame.trans {place : Place} {document document' document'' : Json}
    (h : MeansSame schema place document document')
    (h' : MeansSame schema place document' document'') :
    MeansSame schema place document document'' := by
  cases place <;> exact fun a => (h a).trans (fun _ _ _ => .trans) (h' a)

theorem many_perm {α β : Type} {f : α → Except QueryError (Meaning β)} {xs ys : List α}
    (stop : Bool) (h : xs.Perm ys) : Carries Meaning.Same ((xs.mapM f).map (Meaning.many stop))
      ((ys.mapM f).map (Meaning.many stop)) :=
  (Carries.mapM_perm h).map fun _ _ hp => .many_perm stop hp

theorem many_replace {α β : Type} {f : α → Except QueryError (Meaning β)} {x x' : α} (stop : Bool)
    (h : Carries Meaning.Same (f x) (f x')) (before after : List α) :
    Carries Meaning.Same (((before ++ x :: after).mapM f).map (Meaning.many stop))
      (((before ++ x' :: after).mapM f).map (Meaning.many stop)) := by
  have hmany : Carries (fun ms ms' => Meaning.Same (.many stop ms) (.many stop ms'))
      ((before ++ x :: after).mapM f) ((before ++ x' :: after).mapM f) :=
    .mapM_replace h before after fun _ _ _ _ h => .many_replace stop h
  exact hmany.map fun _ _ h => h

theorem clauseFields_at {key : String} (hk : key ≠ "#id") (value : Json)
    (before after : List (String × Json)) : clauseFields (before ++ (key, value) :: after) =
      clauseFields before ++ (key, value) :: clauseFields after := by
  simp [clauseFields, hk]

theorem any_operatorKey {name : String} (hn : name = "$in" ∨ name = "$nin") (operand : Json)
    (before after : List (String × Json)) :
    (before ++ (name, operand) :: after).any fun (name, _) => Expression.isOperatorKey name := by
  refine List.any_eq_true.mpr ⟨(name, operand), by simp, ?_⟩
  rcases hn with rfl | rfl <;> rfl

theorem operandMeaning_replace {name target column : String} {document document' : Json}
    {before after : List (String × Json)}
    (ht : subqueryColumn schema (before ++ ("filter", document) :: after) = .ok (target, column))
    (h : Reordered schema (.filter target) document document')
    (ih : MeansSame schema (.filter target) document document') :
    MeansSame schema (.operand name) (.obj (before ++ ("filter", document) :: after))
      (.obj (before ++ ("filter", document') :: after)) := by
  intro attr
  have hget {other : String} (hne : other ≠ "filter") :=
    Fields.get?_replace hne document document' before after
  have hcolumn : subqueryColumn schema (before ++ ("filter", document') :: after) =
      .ok (target, column) := by
    rw [← ht, subqueryColumn, subqueryColumn, hget (by decide), hget (by decide)]
  have hcorrelated : correlated (before ++ ("filter", document) :: after) =
      correlated (before ++ ("filter", document') :: after) := by
    rw [correlated, correlated, Fields.get?_at, Fields.get?_at]
    cases Fields.get? before "filter" with
    | none => exact isCorrelated_of_reordered h
    | some other => rfl
  refine Carries.mapError ?_
  rw [subqueryMeaning, subqueryMeaning, ht, hcolumn, hcorrelated]
  refine Carries.map (R := Meaning.Same) ?_ fun _ _ hsame => hsame.candidates _ _ _
  rw [Fields.get?_at, Fields.get?_at]
  cases Fields.get? before "filter" with
  | none => exact ih false
  | some other => exact .refl .refl _

theorem operatorMeaning_replace {name attr : String} {operand operand' : Json}
    (hn : name = "$in" ∨ name = "$nin") (ih : MeansSame schema (.operand name) operand operand')
    (obscure : Bool) : Carries Meaning.Same (operatorMeaning schema attr obscure (name, operand))
      (operatorMeaning schema attr obscure (name, operand')) := by
  rw [operatorMeaning, operatorMeaning, if_pos hn, if_pos hn]
  exact (ih attr).map fun _ _ h => h.membership _ _

theorem means_same {place : Place} {document document' : Json}
    (h : Reordered schema place document document') :
    MeansSame schema place document document' := by
  induction h with
  | refl document => exact .refl _ document
  | trans _ _ ih ih' => exact ih.trans ih'
  | keys hd h =>
    -- The label is looked up by its key; what remains is a conjunction of the other keys.
    intro obscure
    rw [documentMeaning_obj, documentMeaning_obj, label?, label?, Fields.get?_perm h hd]
    exact .bind fun label _ => (many_perm false (h.filter _)).map fun _ _ h => h.labelled label
  | field hk _ ih =>
    intro obscure
    rw [documentMeaning_obj, documentMeaning_obj, label?, label?, clauseFields_at hk,
      clauseFields_at hk, Fields.get?_replace hk.symm]
    exact .bind fun label _ =>
      (many_replace false (ih obscure) _ _).map fun _ _ h => h.labelled label
  | items hk h =>
    intro obscure
    rw [fieldMeaning, fieldMeaning, clauseForm_junction hk, clauseForm_junction hk]
    exact many_perm _ h
  | item hk _ ih =>
    intro obscure
    rw [fieldMeaning, fieldMeaning, clauseForm_junction hk, clauseForm_junction hk]
    exact many_replace _ (ih obscure) _ _
  | not _ ih => exact fun obscure => (ih obscure).map fun _ _ h => h.negate
  | relation hk hp _ ih =>
    intro obscure
    rw [fieldMeaning, fieldMeaning, clauseForm_pointer hk hp, clauseForm_pointer hk hp]
    exact (ih obscure).map fun _ _ h => h.follow _ obscure
  | operators hk hc ho h =>
    intro obscure
    have ho' := ho
    rw [h.any_eq] at ho'
    rw [fieldMeaning, fieldMeaning, clauseForm_tests hk hc ho, clauseForm_tests hk hc ho']
    exact (many_perm false h).map fun _ _ h => h.ofAttribute _
  | operator hk hc hn _ ih =>
    intro obscure
    rw [fieldMeaning, fieldMeaning, clauseForm_tests hk hc (any_operatorKey hn _ _ _),
      clauseForm_tests hk hc (any_operatorKey hn _ _ _)]
    exact (many_replace false (operatorMeaning_replace hn ih obscure) _ _).map fun _ _ h =>
      h.ofAttribute _
  | subquery ht h ih => exact operandMeaning_replace ht h ih

end Reordered

namespace Filter

variable {schema : Schema} {entity : String} {obscure : Bool} {document document' : Json}

theorem compile_reordered (h : Reordered schema (.filter entity) document document') {f : Filter}
    (hf : compile schema entity obscure [] document = .ok f) :
    ∃ f', compile schema entity obscure [] document' = .ok f' ∧ f.meaning.Same f'.meaning := by
  have hm : documentMeaning schema entity obscure document = .ok f.meaning := by
    rw [documentMeaning, hf]
    rfl
  obtain ⟨m, hm', hsame⟩ := h.means_same obscure _ hm
  obtain ⟨f', hf', rfl⟩ := map_eq_ok.mp hm'
  exact ⟨f', hf', hsame⟩

/-- A filter whose labels are pairwise distinct may be written in any order: the reordered filter
compiles too, and where both give a row a verdict it is the same one. -/
theorem verdict_reordered (h : Reordered schema (.filter entity) document document') {f : Filter}
    (hf : compile schema entity obscure [] document = .ok f) (hd : f.labels.Nodup)
    {seed : Bindings}
    (hseed : ∀ label ∈ f.labels, seed.contains label = false ∧ seed.isObscured label = false) :
    ∃ f', compile schema entity obscure [] document' = .ok f' ∧
      ∀ v earlier earlier' row passed passed', f.verdict v earlier seed row = .ok passed →
        f'.verdict v earlier' seed row = .ok passed' → passed = passed' := by
  obtain ⟨f', hf', hsame⟩ := compile_reordered h hf
  refine ⟨f', hf', fun v earlier earlier' row passed passed' hp hp' => ?_⟩
  have hlabels : f.labels.Perm f'.labels := hsame.own.append hsame.inner
  have hunvisited : ∀ label ∈ f.labels, seed.env label = .unvisited := fun label hl =>
    Bindings.env_eq_unvisited (hseed label hl).1 (hseed label hl).2
  rw [verdict_eq f (distinct_of_compile hf)] at hp
  rw [verdict_eq f' (distinct_of_compile hf')] at hp'
  have htruth := truth_of_verdict hd hunvisited hp
  have htruth' := truth_of_verdict (hlabels.nodup_iff.mp hd)
    (fun label hl => hunvisited label (hlabels.mem_iff.mpr hl)) hp'
  -- Each verdict is read off a truth that rests on all labels, visited or not.
  have hverdict : (f.truth v (seed.env.extend (f.assigns v row)) row).verdict? =
      (f'.truth v (seed.env.extend (f'.assigns v row)) row).verdict? := by
    have henv : seed.env.extend (f.assigns v row) = seed.env.extend (f'.assigns v row) :=
      Env.extend_perm (hsame.assigns v row)
    exact congrArg Truth.verdict? ((hsame.truth v _ row).trans (congrArg (f'.truth v · row) henv))
  exact Option.some.inj (htruth.symm.trans (hverdict.trans htruth'))

/-- An expression that reads a label is written after the relation that binds it, or before. -/
theorem verdict_reordered_label :
    let task : Entity :=
      { attributes := Std.ExtTreeMap.ofList [("owner", { type := .ref "user" })] compare }
    let schema : Schema :=
      { entities := Std.ExtTreeMap.ofList [("task", task), ("user", {})] compare }
    let label : String × Json := ("owner", .obj [("#id", .str "o")])
    let read : String × Json := ("$expr", .obj [("$eq", .arr
      [.obj [("#refId", .str "o"), ("#refAttr", .str "name")], .obj [("#attr", .str "title")]])])
    let f : Filter := .mk none false
      [.relation (.foreignKey "user" "ownerId") (.mk (some "o") false []),
        .expr (.multi .eq [.ref "o" "name", .attr "title"])]
    let user : Row := [("id", .str "u"), ("name", .str "x")]
    let rows : RowMap Row := Std.ExtTreeMap.ofList [(RowKey.mk "user" "u", user)] RowKey.order
    let v : View := { schema, rows }
    let row : Row := [("ownerId", .str "u"), ("title", .str "x")]
    f.verdict v [] {} row = .ok true ∧
      ∃ f', compile schema "task" false [] (.obj [read, label]) = .ok f' ∧
        ∀ earlier passed, f'.verdict v earlier {} row = .ok passed → passed = true := by
  intro task schema label read f user rows v row
  have hf : compile schema "task" false [] (.obj [label, read]) = .ok f := rfl
  have hverdict : f.verdict v [] {} row = .ok true := rfl
  have horder : Reordered schema (.filter "task") (.obj [label, read]) (.obj [read, label]) :=
    .keys (by decide) (.swap ..)
  have hseed (name : String) : Bindings.contains {} name = false ∧
      Bindings.isObscured {} name = false := ⟨rfl, by simp [Bindings.isObscured]⟩
  obtain ⟨f', hf', hsame⟩ := verdict_reordered horder hf (by decide) fun name _ => hseed name
  refine ⟨hverdict, f', hf', fun earlier passed hp => ?_⟩
  exact (hsame v [] earlier row true passed hverdict hp).symm

end Filter

end EntityStore
