import EntityStore.Proofs.Row.Overlay
import EntityStore.Proofs.Store.Isolation

/-! Commands beside the work of another transaction. A command that runs on a store, and on the same
store with work of another transaction on top, either is stopped there by a row that the other
transaction owns, or it gives the same answer and makes the same row changes
(`Command.Agrees`, `Command.mutate_agrees`, `Command.sync_agrees`). -/

namespace EntityStore

/-- The second store is the first one with pending changes of the transaction on top; the work done
for queries does not count. -/
structure Store.Overlaid (s : Store) (txn : TxnId) (s' : Store) : Prop where
  schema : s'.schema = s.schema
  config : s'.config = s.config
  stat : s'.stat = s.stat
  storage : s.storage.Overlaid txn s'.storage

/-- The stores are overlaid, and the same changes were made in both. -/
structure Progress.Overlaid (p : Progress) (txn : TxnId) (p' : Progress) : Prop where
  store : p.store.Overlaid txn p'.store
  changes : p'.changes = p.changes

namespace Storage.Overlaid

variable {s s' : Storage} {txn other : TxnId}

/-- The first conflict is about a row that the transaction owns, or it is the same. -/
theorem conflict? (h : s.Overlaid txn s') (hne : other ≠ txn) (keys : List RowKey) :
    (∃ key ∈ keys, s'.conflict? other keys = some (key, txn) ∧ s'.Owns txn key) ∨
      (s'.conflict? other keys = s.conflict? other keys ∧
        (s'.conflict? other keys = none → ∀ key ∈ keys, ¬ s'.Owns txn key)) := by
  induction keys with
  | nil => exact .inr ⟨rfl, fun _ => List.forall_mem_nil _⟩
  | cons key keys ih =>
    by_cases hown : s'.Owns txn key
    · obtain ⟨n, hn, ho⟩ := hown
      refine .inl ⟨key, List.mem_cons_self, ?_, n, hn, ho⟩
      simp [Storage.conflict?, hn, ho, Ne.symm hne]
    · unfold Storage.conflict? at ih ⊢
      rw [List.findSome?_cons, List.findSome?_cons, h.node?_eq hown]
      cases (s.node? key).bind fun n => n.owner.bind fun owner =>
          if owner = other then none else some (key, owner) with
      | some conflict => exact .inr ⟨rfl, fun h => by cases h⟩
      | none =>
        refine ih.imp ?_ ?_
        · rintro ⟨k, hk, hrest⟩
          exact ⟨k, List.mem_cons_of_mem _ hk, hrest⟩
        · rintro ⟨heq, hfree⟩
          refine ⟨heq, fun hnone k hk => ?_⟩
          rcases List.mem_cons.mp hk with rfl | hk
          · exact hown
          · exact hfree hnone k hk

end Storage.Overlaid

namespace Store.Overlaid

variable {s s' : Store} {txn : TxnId}

theorem refl (s : Store) (txn : TxnId) : s.Overlaid txn s := ⟨rfl, rfl, rfl, .refl _ _⟩

theorem view (h : s.Overlaid txn s') {reader : Option TxnId} (hne : reader ≠ some txn) :
    s'.view reader = s.view reader := by
  have hrows := Storage.view_congr (h.storage.visible hne) s.schema
  unfold Store.view
  rw [h.schema, h.config, hrows]

theorem select (h : s.Overlaid txn s') {reader : Option TxnId} (hne : reader ≠ some txn)
    (entity : String) (selection : Selection) (option : SelectOption) :
    (s'.select reader entity selection option).1 = (s.select reader entity selection option).1 :=
  select_eq_of_view_eq (h.view hne) entity selection option

theorem withWork (h : s.Overlaid txn s') (w w' : Work) :
    ({ s with work := w }).Overlaid txn { s' with work := w' } :=
  ⟨h.schema, h.config, h.stat, h.storage⟩

theorem report (h : s.Overlaid txn s') (event : Log.Event)
    (fields fields' : List (String × String)) :
    (s.report event fields).Overlaid txn (s'.report event fields') := h.withWork _ _

/-- A command of the transaction itself. -/
theorem of_makes {α : Type} {c : Command α} {asked : RowKey → RowChange → Prop}
    (h : s.Overlaid txn s') (hc : c.Makes txn asked) : s.Overlaid txn (c.runOn s').2 := by
  obtain ⟨changes, w, htakes, he⟩ := hc { store := s' }
  have hstore : (c.runOn s').2 = (exec c { store := s' }).2.store := rfl
  rw [hstore, he]
  exact ⟨h.schema, h.config, h.stat, h.storage.changeAll htakes.permits⟩

end Store.Overlaid

namespace Progress.Overlaid

variable {p p' : Progress} {txn other : TxnId}

theorem report (h : p.Overlaid txn p') (event : Log.Event) (fields : List (String × String)) :
    (p.report event fields).Overlaid txn (p'.report event fields) :=
  ⟨h.store.report event fields fields, h.changes⟩

theorem change (h : p.Overlaid txn p') (hne : other ≠ txn) {changes : List (RowKey × RowChange)}
    (hown : ∀ entry ∈ changes, ¬ p'.store.storage.Owns txn entry.1) :
    (p.change other changes).Overlaid txn (p'.change other changes) := by
  refine ⟨⟨h.store.schema, h.store.config, h.store.stat, ?_⟩, ?_⟩
  · exact h.store.storage.changeAll_other hne hown
  · exact congrArg (· ++ changes) h.changes

end Progress.Overlaid

namespace Command

variable {α β : Type} {txn other : TxnId} {p p' : Progress}

/-- The second run is stopped by a row that the transaction owns. If the first one succeeds, it
changes this row. -/
def Blocked (txn : TxnId) (r r' : Except StoreError α × Progress) : Prop :=
  ∃ key, r'.1 = .error (.rowLocked key txn) ∧ r'.2.store.storage.Owns txn key ∧
    ∀ a, r.1 = .ok a → ∃ c, (key, c) ∈ r.2.changes

/-- The runs have the same result and make the same changes. -/
structure Alike (txn : TxnId) (r r' : Except StoreError α × Progress) : Prop where
  result : r'.1 = r.1
  progress : r.2.Overlaid txn r'.2

/-- Work of the transaction blocks the command or leaves it as it is. -/
structure Agrees (c : Command α) (txn : TxnId) : Prop where
  grows : ∀ p, p.changes <+: (exec c p).2.changes
  agrees : ∀ {p p'}, p.Overlaid txn p' → Blocked txn (exec c p) (exec c p') ∨
    Alike txn (exec c p) (exec c p')

namespace Agrees

theorem pure (a : α) : Agrees (pure a : Command α) txn :=
  ⟨fun _ => List.prefix_rfl, fun h => .inr ⟨rfl, h⟩⟩

theorem ofExcept (r : Except StoreError α) : Agrees (ofExcept r) txn :=
  ⟨fun _ => List.prefix_rfl, fun h => .inr ⟨rfl, h⟩⟩

theorem report (event : Log.Event) (fields : List (String × String)) :
    Agrees (report event fields) txn :=
  ⟨fun _ => List.prefix_rfl, fun h => .inr ⟨rfl, h.report event fields⟩⟩

/-- What a command reads of the store is not touched by the transaction. -/
theorem read {g : Progress → β} {f : β → Command α}
    (hg : ∀ {p p'}, p.Overlaid txn p' → g p' = g p) (hf : ∀ b, Agrees (f b) txn) :
    Agrees (do f (g (← get))) txn := by
  refine ⟨fun p => (hf (g p)).grows p, fun {p p'} h => ?_⟩
  rw [exec_bind, exec_bind, exec_get, exec_get, continueWith_ok, continueWith_ok, hg h]
  exact (hf (g p)).agrees h

theorem grows_continueWith {f : α → Command β} (hf : ∀ a, Agrees (f a) txn)
    (r : Except StoreError α × Progress) : r.2.changes <+: (continueWith f r).2.changes := by
  obtain ⟨_ | a, q⟩ := r
  · exact List.prefix_rfl
  · exact (hf a).grows q

theorem bind {c : Command α} {f : α → Command β} (hc : Agrees c txn)
    (hf : ∀ a, Agrees (f a) txn) : Agrees (c >>= f) txn := by
  constructor
  · intro p
    rw [exec_bind]
    exact (hc.grows p).trans (grows_continueWith hf _)
  · intro p p' h
    rw [exec_bind, exec_bind]
    rcases hc.agrees h with ⟨key, hlocked, hown, hchanged⟩ | ⟨hresult, hprogress⟩
    -- The first part is blocked: then so is the whole, and a run that goes on keeps its changes.
    · left
      rcases hr' : exec c p' with ⟨r', q'⟩
      rw [hr'] at hlocked hown
      cases hlocked
      refine ⟨key, rfl, hown, fun b hb => ?_⟩
      obtain ⟨a, ha, -⟩ := continueWith_eq_ok (Prod.ext hb rfl)
      obtain ⟨c, hmem⟩ := hchanged a ha
      exact ⟨c, (grows_continueWith hf _).subset hmem⟩
    · rcases hr : exec c p with ⟨r, q⟩
      rcases hr' : exec c p' with ⟨r', q'⟩
      rw [hr, hr'] at hresult hprogress
      cases hresult
      cases r with
      | error e => exact .inr ⟨rfl, hprogress⟩
      | ok a => exact (hf a).agrees hprogress

theorem map {c : Command α} (f : α → β) (hc : Agrees c txn) : Agrees (f <$> c) txn := by
  rw [← bind_pure_comp]
  exact hc.bind fun a => pure (f a)

theorem mapM {f : α → Command β} {xs : List α} (h : ∀ x ∈ xs, Agrees (f x) txn) :
    Agrees (xs.mapM f) txn := by
  induction xs with
  | nil => exact pure []
  | cons x xs ih =>
    rw [List.mapM_cons]
    refine (h x List.mem_cons_self).bind fun y => ?_
    exact (ih fun z hz => h z (List.mem_cons_of_mem _ hz)).bind fun ys => pure (y :: ys)

theorem forM {f : α → Command PUnit} {xs : List α} (h : ∀ x ∈ xs, Agrees (f x) txn) :
    Agrees (xs.forM f) txn := by
  induction xs with
  | nil => exact pure _
  | cons x xs ih =>
    have hxs := ih fun z hz => h z (List.mem_cons_of_mem _ hz)
    exact (h x List.mem_cons_self).bind fun _ => hxs

end Agrees

/-! ## The parts of a mutation -/

theorem claim_grows (p : Progress) (txn : TxnId) (keys : List RowKey) (c : RowChange) :
    p.changes <+: (p.claim txn keys c).2.changes := by
  unfold Progress.claim
  split
  · exact List.prefix_append ..
  · exact List.prefix_rfl

theorem claim_agrees (h : p.Overlaid txn p') (hne : other ≠ txn) (keys : List RowKey)
    (c : RowChange) :
    Blocked txn (p.claim other keys c) (p'.claim other keys c) ∨
      Alike txn (p.claim other keys c) (p'.claim other keys c) := by
  unfold Progress.claim
  rcases h.store.storage.conflict? hne keys with ⟨key, hkey, hconflict, hown⟩ | ⟨heq, hfree⟩
  · left
    rw [hconflict]
    refine ⟨key, rfl, hown, fun n hn => ?_⟩
    cases hc : p.store.storage.conflict? other keys with
    | none => exact ⟨c, List.mem_append_right _ (List.mem_map.mpr ⟨key, hkey, rfl⟩)⟩
    | some conflict =>
      rw [hc] at hn
      cases hn
  · right
    rw [heq] at hfree ⊢
    cases hc : p.store.storage.conflict? other keys with
    | some conflict => exact ⟨rfl, h.report _ _⟩
    | none =>
      refine ⟨rfl, h.change hne fun entry hentry => ?_⟩
      obtain ⟨key, hkey, rfl⟩ := List.mem_map.mp hentry
      exact hfree hc key hkey

theorem updateRows_agrees (hne : other ≠ txn) (entity : String) (ids : List String)
    (patch : Row) : Agrees (updateRows other entity ids patch) txn := by
  constructor
  · intro p
    rw [exec_updateRows]
    split
    · exact List.prefix_rfl
    · exact claim_grows ..
  · intro p p' h
    rw [exec_updateRows, exec_updateRows]
    split
    · exact .inr ⟨rfl, h⟩
    · exact claim_agrees h hne _ _

theorem removeRows_agrees (hne : other ≠ txn) (entity : String) (ids : List String) :
    Agrees (removeRows other entity ids) txn := by
  constructor
  · intro p
    rw [exec_removeRows]
    exact claim_grows ..
  · intro p p' h
    rw [exec_removeRows, exec_removeRows]
    exact claim_agrees h hne _ _

theorem matchingIds_agrees (hne : other ≠ txn) (entity : String) (filter : Option Json) :
    Agrees (matchingIds other entity filter) txn := by
  refine ⟨fun _ => List.prefix_rfl, fun {p p'} h => .inr ⟨?_, ?_⟩⟩
  · have hreader : some other ≠ some txn := fun he => hne (Option.some.inj he)
    have hselect := h.store.select hreader entity (View.idSelection filter) {}
    exact congrArg (Except.map _) hselect
  · exact ⟨h.store.withWork _ _, h.changes⟩

theorem createRow_grows {row : Row} {id : String} (hid : idOf? row = some id) (entity : String)
    (allowExists : Bool) (p : Progress) :
    p.changes <+: (exec (createRow other entity allowExists row) p).2.changes ∧
      ((exec (createRow other entity allowExists row) p).1 = .ok () →
        ∃ c, (⟨entity, id⟩, c) ∈ (exec (createRow other entity allowExists row) p).2.changes) := by
  have hchange (c : RowChange) : (⟨entity, id⟩, c) ∈ p.changes ++ [((⟨entity, id⟩ : RowKey), c)] :=
    List.mem_append_right _ (List.mem_singleton_self _)
  rw [exec_createRow hid]
  dsimp only
  split
  · exact ⟨List.prefix_append .., fun _ => ⟨_, hchange _⟩⟩
  · split
    · exact ⟨List.prefix_rfl, nofun⟩
    · exact ⟨List.prefix_rfl, nofun⟩
    · exact ⟨List.prefix_append .., fun _ => ⟨_, hchange _⟩⟩
    · exact ⟨List.prefix_append .., fun _ => ⟨_, hchange _⟩⟩
    · exact ⟨List.prefix_rfl, nofun⟩

/-- A row that the transaction owns cannot be created. Whether it counts as existing depends on the
committed row, which is the same in both stores. -/
theorem createRow_agrees_of_owns (h : p.Overlaid txn p') (hne : other ≠ txn) {row : Row}
    {id : String} (hid : idOf? row = some id) (entity : String) (allowExists : Bool)
    (hown : p'.store.storage.Owns txn ⟨entity, id⟩) :
    Blocked txn (exec (createRow other entity allowExists row) p)
        (exec (createRow other entity allowExists row) p') ∨
      Alike txn (exec (createRow other entity allowExists row) p)
        (exec (createRow other entity allowExists row) p') := by
  obtain ⟨n, hn, ho⟩ := hown
  have hconflict : p'.store.storage.conflict? other [⟨entity, id⟩] = some (⟨entity, id⟩, txn) := by
    simp [Storage.conflict?, hn, ho, Ne.symm hne]
  have hblocked (hr : exec (createRow other entity allowExists row) p' =
      (.error (.rowLocked ⟨entity, id⟩ txn), p'.reportConflict ⟨entity, id⟩ txn)) :
      Blocked txn (exec (createRow other entity allowExists row) p)
        (exec (createRow other entity allowExists row) p') := by
    refine ⟨⟨entity, id⟩, by rw [hr], ?_, fun _ => (createRow_grows hid entity allowExists p).2⟩
    rw [hr]
    exact ⟨n, hn, ho⟩
  have hr : exec (createRow other entity allowExists row) p' = _ :=
    exec_createRow hid entity allowExists p'
  simp only [hn, hconflict] at hr
  cases hv : n.visible (some other) with
  | none =>
    rw [hv] at hr
    exact .inl (hblocked hr)
  | some existing =>
    rw [hv] at hr
    cases allowExists with
    | true => exact .inl (hblocked hr)
    | false =>
      right
      have hsee := h.store.storage.visible (fun he => hne (Option.some.inj he)) ⟨entity, id⟩
      rw [Storage.visible, hn, Option.bind_some, hv] at hsee
      obtain ⟨m, hm, hvm⟩ := Option.bind_eq_some_iff.mp hsee.symm
      have hr₀ : exec (createRow other entity false row) p = _ := exec_createRow hid entity false p
      simp only [hm, hvm] at hr₀
      rw [hr, hr₀]
      exact ⟨rfl, h⟩

theorem createRow_agrees (hne : other ≠ txn) (entity : String) (allowExists : Bool) (row : Row) :
    Agrees (createRow other entity allowExists row) txn := by
  cases hid : idOf? row with
  | none =>
    refine ⟨fun p => ?_, fun {p p'} h => ?_⟩
    · simpa only [exec_createRow_of_noId hid] using List.prefix_rfl
    · rw [exec_createRow_of_noId hid, exec_createRow_of_noId hid]
      exact .inr ⟨rfl, h⟩
  | some id =>
    refine ⟨fun p => (createRow_grows hid entity allowExists p).1, fun {p p'} h => ?_⟩
    by_cases hown : p'.store.storage.Owns txn ⟨entity, id⟩
    · exact createRow_agrees_of_owns h hne hid entity allowExists hown
    · right
      have hnode := h.store.storage.node?_eq hown
      have hconflict : p'.store.storage.conflict? other [⟨entity, id⟩] =
          p.store.storage.conflict? other [⟨entity, id⟩] := by
        simp only [Storage.conflict?, List.findSome?_cons, hnode]
        rfl
      have hchange (c : RowChange) : (p.change other [(⟨entity, id⟩, c)]).Overlaid txn
          (p'.change other [(⟨entity, id⟩, c)]) :=
        h.change hne fun entry hentry => by rwa [List.mem_singleton.mp hentry]
      rw [exec_createRow hid, exec_createRow hid]
      dsimp only
      rw [hnode, hconflict]
      split
      · exact ⟨rfl, hchange _⟩
      · split
        · exact ⟨rfl, h⟩
        · exact ⟨rfl, h.report _ _⟩
        · exact ⟨rfl, hchange _⟩
        · exact ⟨rfl, hchange _⟩
        · exact ⟨rfl, h⟩

/-! ## Mutations and syncs -/

theorem openTransaction_bind (caller : TxnId) (f : TxnId → Command β) :
    openTransaction (some caller) >>= f = (do
      if ((← get).store.storage.transaction? caller).isSome then f caller
      else throw (.unknownTransaction caller)) := by
  unfold openTransaction
  dsimp only
  rw [bind_assoc]
  refine congrArg (get >>= ·) (funext fun p => ?_)
  split <;> rfl

theorem perform_agrees (hne : other ≠ txn) (entity : String) (op : Operation)
    (allowExists : Bool) : Agrees (perform other entity op allowExists) txn := by
  unfold perform
  cases op.action with
  | create =>
    refine (Agrees.ofExcept _).bind fun rows => Agrees.bind (.forM fun row _ => ?_) fun _ => .pure _
    exact createRow_agrees hne entity allowExists row
  | remove => exact (matchingIds_agrees hne entity op.filter).bind (removeRows_agrees hne entity)
  | update | custom =>
    dsimp only
    cases op.data.obj? with
    | none => exact .ofExcept (.error _)
    | some patch =>
      refine (matchingIds_agrees hne entity op.filter).bind fun ids => ?_
      exact updateRows_agrees hne entity ids patch

/-- A mutation of another caller, beside the transaction. -/
theorem mutate_agrees {caller : Option TxnId} (hne : caller ≠ some txn) (entity : String)
    (op : Operation) (allowExists : Bool) : Agrees (mutate caller entity op allowExists) txn := by
  cases caller with
  | none => exact .ofExcept (.error .noTransaction)
  | some other =>
    have hother : other ≠ txn := fun he => hne (congrArg some he)
    unfold mutate
    rw [openTransaction_bind]
    refine Agrees.read (g := fun p => (p.store.storage.transaction? other).isSome)
      (f := fun isOpen => if isOpen = true then _ else _)
      (fun h => h.store.storage.isSome_transaction? hother) fun isOpen => ?_
    cases isOpen with
    | false => exact .ofExcept (.error (.unknownTransaction other))
    | true =>
      rw [if_pos rfl]
      refine Agrees.read (g := fun p => p.store.schema)
        (f := fun schema => ofExcept ((schema.entity entity).mapError .schema) >>= fun _ => _)
        (fun h => h.store.schema) fun schema => ?_
      refine (Agrees.ofExcept _).bind fun _ => ?_
      refine (perform_agrees hother entity op allowExists).bind fun affected => ?_
      refine Agrees.read (g := fun p => p.store.config.logSeverity)
        (f := fun severity => if severity = .trace then _ else _)
        (fun h => by rw [h.store.config]) fun severity => ?_
      split
      · exact (Agrees.report _ _).bind fun _ => .pure affected
      · exact .pure affected

theorem replay_agrees {caller : Option TxnId} (hne : caller ≠ some txn) (record : SyncRecord) :
    Agrees (replay caller record) txn := by
  cases record with
  | create | update | remove => exact mutate_agrees hne _ _ true
  | snapshot rows =>
    refine (Agrees.mapM fun filed _ => ?_).bind fun counts => .pure (total counts)
    exact mutate_agrees hne filed.1 (.create (.obj filed.2)) true

/-- A sync of another caller, beside the transaction. -/
theorem sync_agrees {caller : Option TxnId} (hne : caller ≠ some txn)
    (records : List SyncRecord) : Agrees (sync caller records) txn :=
  (Agrees.mapM fun record _ => replay_agrees hne record).bind fun _ => .report _ _

end Command

end EntityStore
