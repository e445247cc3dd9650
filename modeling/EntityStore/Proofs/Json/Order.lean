import Std.Data.ExtTreeMap
import EntityStore.Json.Compare

/-! The order used for sorting. Values are compared by the ranks of their kinds, then as numbers and
truth values, then as texts (`Json.compare_eq_compareLex`). Each of the three is a total order, so
the order of values is a total preorder (`Json.instTransCmpCompare`). -/

namespace EntityStore.Json

/-- What numbers and truth values are compared by. -/
def scalarRank : Json → Int
  | .num value => value.rank
  | .bool value => value.toNat
  | _ => 0

/-- What texts are compared by. -/
def scalarText : Json → String
  | .str text => text
  | _ => ""

theorem compare_eq_compareLex : compare =
    compareLex (compareOn kindRank) (compareLex (compareOn scalarRank) (compareOn scalarText)) := by
  have hself (text : String) : Ord.compare text text = .eq := Std.ReflCmp.compare_self
  funext a b
  unfold compare compareLex compareOn
  cases a with
  | bool a =>
    cases b with
    | bool b => cases a <;> cases b <;> rfl
    | _ => rfl
  | num a =>
    cases b with
    | num b =>
      simp only [compareScalar?, Option.getD_some, scalarRank, scalarText, hself]
      cases Ord.compare a.rank b.rank <;> rfl
    | _ => rfl
  | str a =>
    cases b with
    | str b => rfl
    | _ => rfl
  | null | arr a | obj a => cases b <;> rfl

instance instTransCmpCompare : Std.TransCmp compare := by
  rw [compare_eq_compareLex]
  infer_instance

end EntityStore.Json
