/-! Ordered fields: values under names, in the order in which the names were first written.
Objects, rows and label bindings are all of this shape. Overwriting a name keeps its place and a
new name goes to the end, which `names_insert` states. -/

namespace EntityStore

/-- Named values in the order in which the names were first written. -/
abbrev Fields (β : Type) := List (String × β)

namespace Fields

variable {β γ : Type}

/-- The value under `name`, the first one where a name is repeated. -/
def get? (fields : Fields β) (name : String) : Option β := fields.lookup name

/-- Whether `name` has a value. -/
def contains (fields : Fields β) (name : String) : Bool := (get? fields name).isSome

/-- The names in order. -/
def names (fields : Fields β) : List String := fields.map (·.1)

/-- Puts `value` under `name`: in the place of `name` if it is there, at the end otherwise. -/
def insert : Fields β → String → β → Fields β
  | [], name, value => [(name, value)]
  | (n, v) :: rest, name, value =>
    if n = name then (n, value) :: rest else (n, v) :: insert rest name value

/-- Puts `value` under `name` unless `name` has a value already. -/
def insertNew (fields : Fields β) (name : String) (value : β) : Fields β :=
  if contains fields name then fields else insert fields name value

/-- The fields of `base` overridden by those of `patch`, one after the other. -/
def merge (base patch : Fields β) : Fields β :=
  patch.foldl (fun fields entry => insert fields entry.1 entry.2) base

/-- Every name once, in its first place, with its last value. -/
def ofEntries (entries : List (String × β)) : Fields β := merge [] entries

@[simp] theorem get?_nil (name : String) : get? ([] : Fields β) name = none := rfl

theorem get?_cons (n : String) (v : β) (rest : Fields β) (name : String) :
    get? ((n, v) :: rest) name = if name = n then some v else get? rest name := by
  by_cases h : name = n
  · simp [get?, h]
  · simp [get?, List.lookup_cons, h, beq_eq_false_iff_ne.mpr h]

theorem get?_insert (fields : Fields β) (name : String) (value : β) (other : String) :
    get? (insert fields name value) other =
      if other = name then some value else get? fields other := by
  induction fields with
  | nil => simp [insert, get?_cons]
  | cons entry rest ih =>
    obtain ⟨n, v⟩ := entry
    by_cases hn : n = name
    · subst hn; simp only [insert, if_true, get?_cons]; split <;> rfl
    · simp only [insert, hn, if_false, get?_cons, ih]
      by_cases ho : other = n
      · subst ho; simp [hn]
      · simp [ho]

/-- Overwriting keeps the names as they are; a new name goes to the end. -/
theorem names_insert (fields : Fields β) (name : String) (value : β) :
    names (insert fields name value) =
      if name ∈ names fields then names fields else names fields ++ [name] := by
  induction fields with
  | nil => simp [insert, names]
  | cons entry rest ih =>
    obtain ⟨n, v⟩ := entry
    by_cases hn : n = name
    · subst hn; simp [insert, names]
    · have hn' : name ≠ n := fun h => hn h.symm
      simp only [insert, hn, if_false]
      simp only [names, List.map_cons, List.mem_cons, hn', false_or] at ih ⊢
      rw [ih]; split <;> simp_all

end Fields

end EntityStore
