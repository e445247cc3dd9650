/-! Computations that may fail and that change a state. `exec` runs one from a state; its equations
turn a computation into the steps it takes. A computation is `Determined` when its result does not
depend on the state in which it starts, and two computations `Coincide` when they have the same
result, whatever the state in which each of them starts. -/

namespace EntityStore

variable {ε σ α β : Type}

theorem map_eq_ok {f : α → β} {x : Except ε α} {b : β} :
    x.map f = .ok b ↔ ∃ a, x = .ok a ∧ f a = b := by
  cases x with
  | error e => exact ⟨nofun, nofun⟩
  | ok a =>
    refine ⟨fun h => ⟨a, rfl, Except.ok.inj h⟩, fun ⟨_, h, hb⟩ => ?_⟩
    cases h
    exact congrArg _ hb

theorem bind_eq_ok {f : α → Except ε β} {x : Except ε α} {b : β} :
    x.bind f = .ok b ↔ ∃ a, x = .ok a ∧ f a = .ok b := by
  cases x with
  | error e => exact ⟨nofun, nofun⟩
  | ok a => exact ⟨fun h => ⟨a, rfl, h⟩, fun ⟨_, h, hb⟩ => by cases h; exact hb⟩

theorem map_eq_error {f : α → β} {x : Except ε α} {e : ε} : x.map f = .error e ↔ x = .error e := by
  cases x with
  | error e => exact ⟨fun h => by cases h; rfl, fun h => by cases h; rfl⟩
  | ok a => exact ⟨nofun, nofun⟩

theorem bind_ok (x : Except ε α) : x.bind .ok = x := by cases x <;> rfl

theorem bind_eq_error {f : α → Except ε β} {x : Except ε α} {e : ε} :
    x.bind f = .error e ↔ x = .error e ∨ ∃ a, x = .ok a ∧ f a = .error e := by
  cases x with
  | error e => exact ⟨fun h => by cases h; exact .inl rfl, fun h => by
      rcases h with h | ⟨_, h, -⟩ <;> cases h
      rfl⟩
  | ok a => exact ⟨fun h => .inr ⟨a, rfl, h⟩, fun h => by
      rcases h with h | ⟨_, h, he⟩ <;> cases h
      exact he⟩

theorem mapError_eq_ok {ε' : Type} {f : ε → ε'} {x : Except ε α} {a : α} :
    x.mapError f = .ok a ↔ x = .ok a := by
  cases x with
  | error e => exact ⟨nofun, nofun⟩
  | ok b => exact ⟨fun h => congrArg _ (Except.ok.inj h), fun h => congrArg _ (Except.ok.inj h)⟩

theorem mapError_eq_error {ε' : Type} {f : ε → ε'} {x : Except ε α} {e : ε'} :
    x.mapError f = .error e ↔ ∃ error, x = .error error ∧ f error = e := by
  cases x with
  | error error =>
    refine ⟨fun h => ⟨error, rfl, Except.error.inj h⟩, fun ⟨_, h, he⟩ => ?_⟩
    cases h
    exact congrArg _ he
  | ok a => exact ⟨nofun, nofun⟩

theorem mapM_cons (f : α → Except ε β) (x : α) (xs : List α) :
    (x :: xs).mapM f = (f x).bind fun y => (xs.mapM f).map (y :: ·) := by
  rw [List.mapM_cons]
  cases f x with
  | error e => rfl
  | ok y => cases xs.mapM f <;> rfl

theorem ok_of_mapM {f : α → Except ε β} {xs : List α} {ys : List β} (h : xs.mapM f = .ok ys) :
    ∀ x ∈ xs, ∃ y, f x = .ok y := by
  induction xs generalizing ys with
  | nil => exact nofun
  | cons x xs ih =>
    rw [mapM_cons] at h
    obtain ⟨y, hy, h⟩ := bind_eq_ok.mp h
    obtain ⟨ys, hys, -⟩ := map_eq_ok.mp h
    exact List.forall_mem_cons.mpr ⟨⟨y, hy⟩, ih hys⟩

theorem mem_of_mapM_eq_ok {f : α → Except ε β} {xs : List α} {ys : List β}
    (h : xs.mapM f = .ok ys) {y : β} (hy : y ∈ ys) : ∃ x ∈ xs, f x = .ok y := by
  induction xs generalizing ys with
  | nil =>
    cases h
    cases hy
  | cons x xs ih =>
    rw [mapM_cons] at h
    obtain ⟨z, hx, h⟩ := bind_eq_ok.mp h
    obtain ⟨zs, hxs, rfl⟩ := map_eq_ok.mp h
    rcases List.mem_cons.mp hy with rfl | hy
    · exact ⟨x, List.mem_cons_self, hx⟩
    · obtain ⟨w, hw, he⟩ := ih hxs hy
      exact ⟨w, List.mem_cons_of_mem _ hw, he⟩

theorem eq_ok_of_mem_zip {f : α → Except ε β} {xs : List α} {ys : List β}
    (h : xs.mapM f = .ok ys) {x : α} {y : β} (hmem : (x, y) ∈ xs.zip ys) : f x = .ok y := by
  induction xs generalizing ys with
  | nil =>
    cases h
    cases hmem
  | cons z xs ih =>
    rw [mapM_cons] at h
    obtain ⟨w, hw, h⟩ := bind_eq_ok.mp h
    obtain ⟨ws, hws, rfl⟩ := map_eq_ok.mp h
    rcases List.mem_cons.mp hmem with he | hmem
    · cases he
      exact hw
    · exact ih hws hmem

theorem map_of_mapM_eq_ok {γ : Type} {f : α → Except ε β} {p : β → γ} {q : α → γ} {xs : List α}
    {ys : List β} (hf : ∀ x ∈ xs, ∀ y, f x = .ok y → p y = q x) (h : xs.mapM f = .ok ys) :
    ys.map p = xs.map q := by
  induction xs generalizing ys with
  | nil =>
    cases h
    rfl
  | cons x xs ih =>
    obtain ⟨hx, hxs⟩ := List.forall_mem_cons.mp hf
    rw [mapM_cons] at h
    obtain ⟨y, hy, h⟩ := bind_eq_ok.mp h
    obtain ⟨ys, hys, rfl⟩ := map_eq_ok.mp h
    rw [List.map_cons, List.map_cons, hx y hy, ih hxs hys]

theorem exists_of_mapM_eq_error {f : α → Except ε β} {xs : List α} {e : ε}
    (h : xs.mapM f = .error e) : ∃ x ∈ xs, f x = .error e := by
  induction xs with
  | nil => cases h
  | cons x xs ih =>
    rw [mapM_cons] at h
    rcases bind_eq_error.mp h with hx | ⟨y, -, hxs⟩
    · exact ⟨x, List.mem_cons_self, hx⟩
    · obtain ⟨z, hz, he⟩ := ih (map_eq_error.mp hxs)
      exact ⟨z, List.mem_cons_of_mem _ hz, he⟩

/-- The first item that fails is no later than one that fails. -/
theorem mapM_eq_error_of_append {f : α → Except ε β} {before : List α} {x : α} (after : List α)
    (h : ∀ y, f x ≠ .ok y) :
    ∃ y ∈ before ++ [x], ∃ e, f y = .error e ∧ (before ++ x :: after).mapM f = .error e := by
  induction before with
  | nil =>
    cases hx : f x with
    | ok y => exact absurd hx (h y)
    | error e =>
      refine ⟨x, List.mem_singleton_self x, e, hx, ?_⟩
      rw [List.nil_append, mapM_cons, hx]
      rfl
  | cons first before ih =>
    rw [List.cons_append, List.cons_append, mapM_cons]
    cases hfirst : f first with
    | error e => exact ⟨first, List.mem_cons_self, e, hfirst, rfl⟩
    | ok y =>
      obtain ⟨z, hz, e, hfz, hrest⟩ := ih
      exact ⟨z, List.mem_cons_of_mem _ hz, e, hfz, by rw [hrest]; rfl⟩

/-- The result of a computation, and the state that it leaves. -/
def exec (x : ExceptT ε (StateM σ) α) (s : σ) : Except ε α × σ := x.run.run s

@[simp] theorem exec_pure (a : α) (s : σ) :
    exec (pure a : ExceptT ε (StateM σ) α) s = (.ok a, s) := rfl

@[simp] theorem exec_throw (e : ε) (s : σ) :
    exec (throw e : ExceptT ε (StateM σ) α) s = (.error e, s) := rfl

@[simp] theorem exec_get (s : σ) : exec (get : ExceptT ε (StateM σ) σ) s = (.ok s, s) := rfl

@[simp] theorem exec_modify (f : σ → σ) (s : σ) :
    exec (modify f : ExceptT ε (StateM σ) PUnit) s = (.ok ⟨⟩, f s) := rfl

@[simp] theorem exec_mk (f : σ → Except ε α × σ) (s : σ) :
    exec (ExceptT.mk f : ExceptT ε (StateM σ) α) s = f s := rfl

/-- What follows a computation, from the result and the state that the computation leaves. -/
def continueWith (f : α → ExceptT ε (StateM σ) β) : Except ε α × σ → Except ε β × σ
  | (.ok a, s) => exec (f a) s
  | (.error e, s) => (.error e, s)

@[simp] theorem continueWith_ok (f : α → ExceptT ε (StateM σ) β) (a : α) (s : σ) :
    continueWith f (.ok a, s) = exec (f a) s := rfl

@[simp] theorem continueWith_error (f : α → ExceptT ε (StateM σ) β) (e : ε) (s : σ) :
    continueWith f (.error e, s) = (.error e, s) := rfl

@[simp] theorem exec_bind (x : ExceptT ε (StateM σ) α) (f : α → ExceptT ε (StateM σ) β) (s : σ) :
    exec (x >>= f) s = continueWith f (exec x s) := by
  change ExceptT.bindCont f (exec x s).1 (exec x s).2 = _
  rcases exec x s with ⟨_ | a, s'⟩ <;> rfl

@[simp] theorem exec_map (f : α → β) (x : ExceptT ε (StateM σ) α) (s : σ) :
    exec (f <$> x) s = ((exec x s).1.map f, (exec x s).2) := by
  rw [← bind_pure_comp, exec_bind]
  rcases exec x s with ⟨_ | a, s'⟩ <;> rfl

@[simp] theorem exec_forM_nil (f : α → ExceptT ε (StateM σ) PUnit) (s : σ) :
    exec (([] : List α).forM f) s = (.ok ⟨⟩, s) := rfl

@[simp] theorem exec_forM_cons (x : α) (xs : List α) (f : α → ExceptT ε (StateM σ) PUnit) (s : σ) :
    exec ((x :: xs).forM f) s = continueWith (fun _ => xs.forM f) (exec (f x) s) :=
  exec_bind (f x) (fun _ => xs.forM f) s

/-- A loop that fails has done without failing whatever came before the item at which it fails. -/
theorem exec_forM_eq_error {f : α → ExceptT ε (StateM σ) PUnit} {xs : List α} {e : ε} {s s' : σ}
    (h : exec (xs.forM f) s = (.error e, s')) : ∃ before x after t, xs = before ++ x :: after ∧
      exec (before.forM f) s = (.ok ⟨⟩, t) ∧ exec (f x) t = (.error e, s') := by
  induction xs generalizing s with
  | nil => cases h
  | cons x xs ih =>
    rw [exec_forM_cons] at h
    rcases hx : exec (f x) s with ⟨_ | _, t⟩
    · rw [hx] at h
      cases h
      exact ⟨[], x, xs, s, rfl, rfl, hx⟩
    · rw [hx] at h
      obtain ⟨before, y, after, t', rfl, hbefore, hy⟩ := ih h
      refine ⟨x :: before, y, after, t', rfl, ?_, hy⟩
      rw [exec_forM_cons, hx]
      exact hbefore

theorem continueWith_eq_ok {f : α → ExceptT ε (StateM σ) β} {r : Except ε α × σ} {b : β} {s : σ}
    (h : continueWith f r = (.ok b, s)) : ∃ a, r.1 = .ok a ∧ exec (f a) r.2 = (.ok b, s) := by
  obtain ⟨_ | a, t⟩ := r
  · cases h
  · exact ⟨a, rfl, h⟩

theorem exec_mapM_of_pure {f : α → ExceptT ε (StateM σ) β} {g : α → β} {xs : List α}
    (h : ∀ x s, exec (f x) s = (.ok (g x), s)) (s : σ) :
    exec (xs.mapM f) s = (.ok (xs.map g), s) := by
  induction xs with
  | nil => rfl
  | cons x xs ih =>
    rw [List.mapM_cons, exec_bind, h, continueWith_ok, exec_bind, ih]
    rfl

theorem sublist_of_exec_filterAuxM {f : α → ExceptT ε (StateM σ) Bool} {xs acc out : List α}
    {s s' : σ} (h : exec (List.filterAuxM f xs acc) s = (.ok out, s')) :
    ∃ kept : List α, kept.Sublist xs ∧ out = kept.reverse ++ acc := by
  induction xs generalizing acc s with
  | nil =>
    cases h
    exact ⟨[], .slnil, rfl⟩
  | cons x xs ih =>
    rw [List.filterAuxM, exec_bind] at h
    obtain ⟨b, -, h⟩ := continueWith_eq_ok h
    obtain ⟨kept, hsub, rfl⟩ := ih h
    cases b with
    | false => exact ⟨kept, hsub.cons x, rfl⟩
    | true => exact ⟨x :: kept, hsub.cons_cons x, by simp⟩

/-- What passes a monadic filter is in the order of the list that was filtered. -/
theorem sublist_of_exec_filterM {f : α → ExceptT ε (StateM σ) Bool} {xs out : List α} {s s' : σ}
    (h : exec (xs.filterM f) s = (.ok out, s')) : out.Sublist xs := by
  rw [List.filterM, exec_bind] at h
  obtain ⟨rev, hrev, h⟩ := continueWith_eq_ok h
  obtain ⟨kept, hsub, rfl⟩ := sublist_of_exec_filterAuxM (Prod.ext hrev rfl)
  cases h
  simpa using hsub

/-! ## Results that do not depend on the state -/

/-- The result does not depend on the state in which the computation starts. -/
def Determined (x : ExceptT ε (StateM σ) α) : Prop :=
  ∀ s s', (exec x s).1 = (exec x s').1

theorem determined_pure (a : α) : Determined (pure a : ExceptT ε (StateM σ) α) := fun _ _ => rfl

theorem determined_throw (e : ε) : Determined (throw e : ExceptT ε (StateM σ) α) := fun _ _ => rfl

theorem determined_modify (f : σ → σ) : Determined (modify f : ExceptT ε (StateM σ) PUnit) :=
  fun _ _ => rfl

namespace Determined

theorem bind {x : ExceptT ε (StateM σ) α} {f : α → ExceptT ε (StateM σ) β} (hx : Determined x)
    (hf : ∀ a, Determined (f a)) : Determined (x >>= f) := by
  intro s s'
  have h := hx s s'
  rw [exec_bind, exec_bind]
  rcases hs : exec x s with ⟨r, t⟩
  rcases hs' : exec x s' with ⟨r', t'⟩
  rw [hs, hs'] at h
  cases h
  cases r with
  | error e => rfl
  | ok a => exact hf a t t'

theorem mapM {f : α → ExceptT ε (StateM σ) β} {xs : List α} (h : ∀ x ∈ xs, Determined (f x)) :
    Determined (xs.mapM f) := by
  induction xs with
  | nil => exact determined_pure []
  | cons x xs ih =>
    rw [List.mapM_cons]
    refine (h x List.mem_cons_self).bind fun y => ?_
    have hxs := ih fun z hz => h z (List.mem_cons_of_mem _ hz)
    exact hxs.bind fun ys => determined_pure (y :: ys)

end Determined

/-- Both computations have the same result, whatever the state in which each of them starts. A value
that they give has the property. -/
def Coincide (P : α → Prop) (x y : ExceptT ε (StateM σ) α) : Prop :=
  ∀ s s', (exec x s).1 = (exec y s').1 ∧ ∀ a, (exec x s).1 = .ok a → P a

theorem Determined.coincide {x : ExceptT ε (StateM σ) α} (h : Determined x) :
    Coincide (fun _ => True) x x := fun s s' => ⟨h s s', fun _ _ => trivial⟩

theorem coincide_pure {P : α → Prop} {a : α} (h : P a) :
    Coincide P (pure a : ExceptT ε (StateM σ) α) (pure a) := by
  refine fun s s' => ⟨rfl, fun b hb => ?_⟩
  cases hb
  exact h

theorem coincide_throw {P : α → Prop} (e : ε) :
    Coincide P (throw e : ExceptT ε (StateM σ) α) (throw e) :=
  fun _ _ => ⟨rfl, fun _ h => by cases h⟩

namespace Coincide

variable {P : α → Prop} {Q : β → Prop} {x y : ExceptT ε (StateM σ) α}

theorem bind {f g : α → ExceptT ε (StateM σ) β} (hx : Coincide P x y)
    (hf : ∀ a, P a → Coincide Q (f a) (g a)) : Coincide Q (x >>= f) (y >>= g) := by
  intro s s'
  obtain ⟨he, hp⟩ := hx s s'
  rw [exec_bind, exec_bind]
  rcases hs : exec x s with ⟨r, t⟩
  rcases hs' : exec y s' with ⟨r', t'⟩
  rw [hs, hs'] at he
  rw [hs] at hp
  cases he
  cases r with
  | error e => exact ⟨rfl, fun _ h => by cases h⟩
  | ok a => exact hf a (hp a rfl) t t'

theorem mapM {γ : Type} {f g : γ → ExceptT ε (StateM σ) β} {xs : List γ}
    (h : ∀ x ∈ xs, Coincide Q (f x) (g x)) :
    Coincide (fun _ => True) (xs.mapM f) (xs.mapM g) := by
  induction xs with
  | nil => exact coincide_pure trivial
  | cons x xs ih =>
    rw [List.mapM_cons, List.mapM_cons]
    refine (h x List.mem_cons_self).bind fun y _ => ?_
    have hxs := ih fun z hz => h z (List.mem_cons_of_mem _ hz)
    exact hxs.bind fun ys _ => coincide_pure trivial

end Coincide

end EntityStore
