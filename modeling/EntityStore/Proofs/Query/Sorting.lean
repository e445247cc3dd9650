import EntityStore.Proofs.Json.Order
import EntityStore.Query.Sort

/-! Sorted results. The rows of a sort plan are compared key by key, each key in its own direction,
which is a total preorder (`SortPlan.orderRows_transCmp`). So sorting puts the projected rows into
the order of their keys, and rows with equal keys stay in the order they were in
(`SortPlan.sort_stable`). -/

namespace EntityStore

/-- Rows compared by a value in a direction. -/
theorem SortDirection.apply_transCmp {α : Type} (direction : SortDirection) (value : α → Json) :
    Std.TransCmp fun a b => direction.apply ((value a).compare (value b)) := by
  have hvalue : Std.TransCmp fun a b => (value a).compare (value b) :=
    { eq_swap := Std.OrientedCmp.eq_swap, isLE_trans := Std.TransCmp.isLE_trans }
  cases direction with
  | asc => exact hvalue
  | desc =>
    have hswap : (fun a b => desc.apply ((value a).compare (value b))) =
        fun a b => (value b).compare (value a) := by
      funext a b
      exact Std.OrientedCmp.eq_swap.symm
    rw [hswap]
    exact Std.TransCmp.opposite

namespace SortPlan

/-- The order of two rows, each with its projected form. -/
def orderRows (plan : SortPlan) (v : View) (a b : Row × Row) : Ordering :=
  plan.order (plan.keysOf v a.1 a.2) (plan.keysOf v b.1 b.2)

theorem orderRows_cons (key : SortKey) (direction : SortDirection)
    (keys : List (SortKey × SortDirection)) (v : View) :
    orderRows ⟨(key, direction) :: keys⟩ v = compareLex
      (fun a b => direction.apply ((key.extract v (some a.1) (some a.2)).compare
        (key.extract v (some b.1) (some b.2)))) (orderRows ⟨keys⟩ v) := rfl

instance orderRows_transCmp (plan : SortPlan) (v : View) : Std.TransCmp (plan.orderRows v) := by
  obtain ⟨keys⟩ := plan
  induction keys with
  | nil => exact { eq_swap := rfl, isLE_trans := fun _ _ => rfl }
  | cons entry keys ih =>
    obtain ⟨key, direction⟩ := entry
    have hfirst := direction.apply_transCmp fun a : Row × Row =>
      key.extract v (some a.1) (some a.2)
    rw [orderRows_cons]
    infer_instance

/-- Whether one row may stand before another one. -/
def mayPrecede (plan : SortPlan) (v : View) (a b : Row × Row) : Bool := (plan.orderRows v a b).isLE

variable {plan : SortPlan} {v : View}

theorem mayPrecede_trans (a b c : Row × Row) (h : plan.mayPrecede v a b)
    (h' : plan.mayPrecede v b c) : plan.mayPrecede v a c :=
  @Std.TransCmp.isLE_trans _ (plan.orderRows v) _ _ _ _ h h'

theorem mayPrecede_swap (a b : Row × Row) :
    plan.mayPrecede v b a = (plan.orderRows v a b).swap.isLE :=
  congrArg Ordering.isLE (@Std.OrientedCmp.eq_swap _ (plan.orderRows v) _ b a)

theorem mayPrecede_total (a b : Row × Row) : plan.mayPrecede v a b || plan.mayPrecede v b a := by
  rw [mayPrecede_swap a b, mayPrecede]
  cases plan.orderRows v a b <;> rfl

theorem sort_eq_map (plan : SortPlan) (v : View) (raw projected : List Row) :
    plan.sort v raw projected = ((raw.zip projected).mergeSort (plan.mayPrecede v)).map (·.2) := by
  have hkeys := List.map_mergeSort (r := plan.mayPrecede v)
    (s := fun a b => (plan.order a.1 b.1).isLE) (f := fun x => (plan.keysOf v x.1 x.2, x.2))
    (l := raw.zip projected) fun _ _ _ _ => rfl
  unfold sort
  dsimp only
  rw [← hkeys, List.map_map]
  rfl

/-- Of two places the first one belongs before the second: its row has the smaller keys, or equal
keys and it was first. -/
theorem precedes_of_zipIdxLE {x y : (Row × Row) × Nat}
    (h : List.zipIdxLE (plan.mayPrecede v) x y) (hne : x.2 ≠ y.2) :
    plan.orderRows v x.1 y.1 = .lt ∨ plan.orderRows v x.1 y.1 = .eq ∧ x.2 < y.2 := by
  rw [List.zipIdxLE, mayPrecede_swap x.1 y.1, mayPrecede] at h
  cases ho : plan.orderRows v x.1 y.1 with
  | lt => exact .inl rfl
  | eq =>
    rw [ho] at h
    have hle : x.2 ≤ y.2 := of_decide_eq_true h
    exact .inr ⟨rfl, Nat.lt_of_le_of_ne hle hne⟩
  | gt =>
    rw [ho] at h
    cases h

/-- Sorting rearranges the projected rows by their keys: each row comes before those with greater
keys, and of rows with equal keys the one that was first comes first. -/
theorem sort_stable (plan : SortPlan) (v : View) {raw projected : List Row}
    (h : raw.length = projected.length) :
    (plan.sort v raw projected).Perm projected ∧
    ∃ placed : List ((Row × Row) × Nat), placed.Perm (raw.zip projected).zipIdx ∧
      plan.sort v raw projected = placed.map (·.1.2) ∧
        placed.Pairwise fun a b =>
          let order := plan.order (plan.keysOf v a.1.1 a.1.2) (plan.keysOf v b.1.1 b.1.2)
          order = .lt ∨ order = .eq ∧ a.2 < b.2 := by
  let places := (raw.zip projected).zipIdx
  let placed := places.mergeSort (List.zipIdxLE (plan.mayPrecede v))
  have hsort : plan.sort v raw projected = placed.map (·.1.2) := by
    rw [sort_eq_map, ← List.mergeSort_zipIdx, List.map_map]
    rfl
  have hperm : placed.Perm places := List.mergeSort_perm _ _
  refine ⟨?_, placed, hperm, hsort, ?_⟩
  · have hprojected : places.map (·.1.2) = projected := by
      have hzip : places.map (·.1) = raw.zip projected := List.zipIdx_map_fst 0 _
      rw [← List.map_snd_zip (Nat.le_of_eq h.symm), ← hzip, List.map_map]
      rfl
    rw [hsort]
    exact hprojected ▸ hperm.map _
  · have hsorted : placed.Pairwise fun x y => List.zipIdxLE (plan.mayPrecede v) x y :=
      List.pairwise_mergeSort (List.zipIdxLE_trans mayPrecede_trans)
        (List.zipIdxLE_total mayPrecede_total) places
    have hdistinct : placed.Pairwise fun x y => x.2 ≠ y.2 := by
      have hnodup : (places.map (·.2)).Nodup := by
        rw [List.zipIdx_map_snd]
        exact List.nodup_range'
      exact List.pairwise_map.mp ((hperm.map _).nodup_iff.mpr hnodup)
    exact (hsorted.and hdistinct).imp fun hxy => precedes_of_zipIdxLE hxy.1 hxy.2

/-- Three rows by their team, the last one first. Two of them are in one team, and one is in
none. -/
theorem sort_stable_team :
    let plan : SortPlan := ⟨[(.column "team", .desc)]⟩
    let v : View := { schema := {}, rows := ∅ }
    let member (name : String) (team : Json) : Row := [("name", .str name), ("team", team)]
    let raw := [member "x" .null, member "y" (.str "a"), member "z" (.str "b"),
      member "w" (.str "a")]
    let projected : List Row := raw.map (·.take 1)
    raw.length = projected.length ∧
      plan.sort v raw projected =
        [[("name", .str "z")], [("name", .str "y")], [("name", .str "w")], [("name", .str "x")]] ∧
      (plan.sort v raw projected).Perm projected ∧
      ∃ placed : List ((Row × Row) × Nat), placed.Perm (raw.zip projected).zipIdx ∧
        plan.sort v raw projected = placed.map (·.1.2) ∧
          placed.Pairwise fun a b =>
            let order := plan.order (plan.keysOf v a.1.1 a.1.2) (plan.keysOf v b.1.1 b.1.2)
            order = .lt ∨ order = .eq ∧ a.2 < b.2 := by
  intro plan v member raw projected
  let place (name : String) (team : Json) : Row × Row := (member name team, [("name", .str name)])
  have hxy : plan.mayPrecede v (place "x" .null) (place "y" (.str "a")) = false := by decide +kernel
  have hxw : plan.mayPrecede v (place "x" .null) (place "w" (.str "a")) = false := by decide +kernel
  have hyz : plan.mayPrecede v (place "y" (.str "a")) (place "z" (.str "b")) = false := by
    decide +kernel
  have hyw : plan.mayPrecede v (place "y" (.str "a")) (place "w" (.str "a")) = true := by
    decide +kernel
  have hzw : plan.mayPrecede v (place "z" (.str "b")) (place "w" (.str "a")) = true := by
    decide +kernel
  have hplaces : raw.zip projected =
      [place "x" .null, place "y" (.str "a"), place "z" (.str "b"), place "w" (.str "a")] := rfl
  have hsorted : (raw.zip projected).mergeSort (plan.mayPrecede v) =
      [place "z" (.str "b"), place "y" (.str "a"), place "w" (.str "a"), place "x" .null] := by
    simp [hplaces, List.mergeSort, List.MergeSort.Internal.splitInTwo, hxy, hxw, hyz, hyw, hzw]
  exact ⟨rfl, by rw [sort_eq_map, hsorted]; rfl, sort_stable plan v rfl⟩

end SortPlan

end EntityStore
