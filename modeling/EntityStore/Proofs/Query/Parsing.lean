import Mathlib.Data.List.Forall2
import EntityStore.Proofs.Execution
import EntityStore.Query.Expression.Basic

/-! How documents are read as expressions. `Expression.ParseCases` lists the forms that a document
can have and what it is read as in each of them. A relation that has these cases holds between every
document and the expression read from it (`Expression.ParseCases.parse`). -/

namespace EntityStore

theorem MultiOp.eq_name_of_ofName? {name : String} {op : MultiOp}
    (h : MultiOp.ofName? name = some op) : name = op.name :=
  (of_decide_eq_true (List.find?_some (p := fun op : MultiOp => decide (op.name = name)) h)).symm

theorem UnaryOp.eq_name_of_ofName? {name : String} {op : UnaryOp}
    (h : UnaryOp.ofName? name = some op) : name = op.name :=
  (of_decide_eq_true (List.find?_some (p := fun op : UnaryOp => decide (op.name = name)) h)).symm

namespace Expression

/-- An object that is a reference. -/
theorem reference?_eq_ok {fields : List (String × Json)} {e : Expression}
    (h : reference? fields = some (.ok e)) :
    (∃ name, fields = [("#attr", .str name)] ∧ e = .attr name) ∨
      ∃ label name, Fields.get? fields "#refId" = some (.str label) ∧
        Fields.get? fields "#refAttr" = some (.str name) ∧ e = .ref label name := by
  unfold reference? at h
  split at h
  · rename_i hattr
    split at h
    · rename_i field name
      obtain ⟨key, payload⟩ := field
      rw [Fields.get?_cons] at hattr
      cases h
      by_cases hkey : "#attr" = key
      · rw [if_pos hkey] at hattr
        cases hattr
        exact .inl ⟨name, by rw [hkey], rfl⟩
      · rw [if_neg hkey] at hattr
        cases hattr
    · cases h
  · split at h
    · split at h
      · rename_i label name _ hlabel hname
        cases h
        exact .inr ⟨label, name, hlabel, hname, rfl⟩
      · cases h
    · cases h

/-- The cases of a relation of documents and the expressions read from them. -/
structure ParseCases (P : Json → Expression → Prop) : Prop where
  const : ∀ value, P value (.const value)
  attr : ∀ name, P (.obj [("#attr", .str name)]) (.attr name)
  ref : ∀ {fields label name}, Fields.get? fields "#refId" = some (.str label) →
    Fields.get? fields "#refAttr" = some (.str name) → P (.obj fields) (.ref label name)
  /-- The argument stands in an array of its own or by itself. -/
  unary : ∀ op {payload arg e}, payload = .arr [arg] ∨ payload = arg → P arg e →
    P (.obj [(op.name, payload)]) (.unary op e)
  multi : ∀ op {items args}, op.accepts items.length = true → List.Forall₂ P items args →
    P (.obj [(op.name, .arr items)]) (.multi op args)

namespace ParseCases

variable {P : Json → Expression → Prop}

mutual

theorem parse (H : ParseCases P) {e : Expression} : (document : Json) →
    Expression.parse document = .ok e → P document e
  | .obj fields, h => by
    rw [Expression.parse] at h
    split at h
    · rename_i hreference
      rw [h] at hreference
      rcases reference?_eq_ok hreference with ⟨name, rfl, rfl⟩ | ⟨label, name, hlabel, hname, rfl⟩
      · exact H.attr name
      · exact H.ref hlabel hname
    · exact H.parseFields fields h
  | .null, h | .bool _, h | .num _, h | .str _, h | .arr _, h => by
    cases h
    exact H.const _

theorem parseFields (H : ParseCases P) {e : Expression} : (fields : List (String × Json)) →
    Expression.parseFields fields = .ok e → P (.obj fields) e
  | [], h | _ :: _ :: _, h => by
    cases h
    exact H.const _
  | [(name, payload)], h => by
    unfold Expression.parseFields at h
    split at h
    · rename_i op hop
      rw [MultiOp.eq_name_of_ofName? hop]
      split at h
      · rename_i items
        split at h
        · rename_i hcount
          obtain ⟨args, hargs, rfl⟩ := map_eq_ok.mp h
          exact H.multi op hcount (H.parseList items hargs)
        · cases h
      · cases h
    · split at h
      · rename_i op hop
        rw [UnaryOp.eq_name_of_ofName? hop]
        obtain ⟨arg, harg, rfl⟩ := map_eq_ok.mp h
        split at harg
        · rename_i item
          exact H.unary op (.inl rfl) (H.parse item harg)
        · exact H.unary op (.inr rfl) (H.parse payload harg)
      · split at h <;> cases h
        exact H.const _

theorem parseList (H : ParseCases P) {es : List Expression} : (items : List Json) →
    Expression.parseList items = .ok es → List.Forall₂ P items es
  | [], h => by
    cases h
    exact .nil
  | item :: items, h => by
    rw [Expression.parseList] at h
    obtain ⟨e, he, h⟩ := bind_eq_ok.mp h
    obtain ⟨es, hes, h⟩ := bind_eq_ok.mp h
    cases h
    exact .cons (H.parse item he) (H.parseList items hes)

end

end ParseCases

end Expression

end EntityStore
