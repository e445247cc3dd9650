import EntityStore.Proofs.Row.Commute
import EntityStore.Proofs.Store.Reply
import EntityStore.Proofs.Store.Serial

/-! Writes of different transactions commute. Two mutations or syncs that succeed one after the
other succeed in the other order as well, with the same answers and the same rows
(`Store.writes_commute`). -/

namespace EntityStore

namespace Command

variable {f g : Command Answer} {a b : TxnId} {asked asked' : RowKey → RowChange → Prop}
  {s : Store} {x y : Answer}

theorem Makes.map {α β : Type} {c : Command α} (h : c.Makes a asked) (k : α → β) :
    (k <$> c).Makes a asked := by
  rw [← bind_pure_comp]
  exact h.bind fun x => .pure (k x)

theorem runOn_map {α β : Type} (k : α → β) (c : Command α) (s : Store) :
    (c.runOn s).1.map k = ((k <$> c).runOn s).1 ∧ (c.runOn s).2 = ((k <$> c).runOn s).2 := by
  have h := exec_map k c { store := s }
  exact ⟨congrArg Prod.fst h.symm, congrArg (fun r => r.2.store) h.symm⟩

/-- The rows after a command are the rows before with the changes that the command made. -/
theorem Makes.storage_runOn (h : f.Makes a asked) (s : Store) :
    s.storage.Takes a asked (f.changesOn s) ∧
      (f.runOn s).2.storage = s.storage.changeAll a (f.changesOn s) := by
  obtain ⟨changes, w, htakes, he⟩ := h { store := s }
  have hchanges : f.changesOn s = changes := congrArg Progress.changes he
  rw [hchanges]
  exact ⟨htakes, congrArg (fun p => p.store.storage) he⟩

/-- A command that succeeds after another one of another transaction could have run before it. -/
theorem result_before (hg : g.Agrees a) (hf : f.Makes a asked)
    (hok : (g.runOn (f.runOn s).2).1 = .ok y) :
    (g.runOn s).1 = .ok y ∧ g.changesOn (f.runOn s).2 = g.changesOn s := by
  have hover := (Store.Overlaid.refl s a).of_makes hf
  have hstart : ({ store := s } : Progress).Overlaid a { store := (f.runOn s).2 } := ⟨hover, rfl⟩
  rcases hg.agrees hstart with ⟨key, hlocked, -⟩ | ⟨hresult, hprogress⟩
  · cases hok.symm.trans hlocked
  · exact ⟨hresult.symm.trans hok, hprogress.changes⟩

/-- The command that ran first could have run last: the other one, which was permitted to make its
changes beside it, has left its rows alone. -/
theorem result_after (H : s.storage.Ledger) (K : s.storage.Keyed) (hne : a ≠ b)
    (hf : f.Makes a asked) (hg : g.Makes b asked') (hfb : f.Agrees b) (hga : g.Agrees a)
    (hunique : ∀ {key c}, asked key c → c.Unique) (hok : (f.runOn s).1 = .ok x)
    (hok' : (g.runOn (f.runOn s).2).1 = .ok y) :
    (f.runOn (g.runOn s).2).1 = .ok x ∧
      (f.runOn (g.runOn s).2).2.storage = (g.runOn (f.runOn s).2).2.storage := by
  obtain ⟨htakes, hstorage⟩ := hf.storage_runOn s
  obtain ⟨-, hbeside⟩ := hg.storage_runOn s
  obtain ⟨htakes', hstorage'⟩ := hg.storage_runOn (f.runOn s).2
  obtain ⟨-, hafter⟩ := hf.storage_runOn (g.runOn s).2
  obtain ⟨-, hsame⟩ := result_before hga hf hok'
  rw [hsame, hstorage] at htakes' hstorage'
  have hacc := htakes.accepts H K fun hmem => hunique (htakes.asked hmem)
  have howns {key : RowKey} {c : RowChange} (hmem : (key, c) ∈ f.changesOn s) :
      (s.storage.changeAll a (f.changesOn s)).Owns a key :=
    (Storage.owns_changeAll H K htakes.permits hacc).mpr (.inl ⟨c, hmem⟩)
  have hover := (Store.Overlaid.refl s b).of_makes hg
  have hstart : ({ store := s } : Progress).Overlaid b { store := (g.runOn s).2 } := ⟨hover, rfl⟩
  -- Run last, the first command is stopped by a row of the other one, or it does what it did.
  rcases hfb.agrees hstart with ⟨key, hlocked, hown, hchanged⟩ | ⟨hresult, hprogress⟩
  · -- That row was its own when the other command ran after it, and no change was permitted.
    exfalso
    obtain ⟨c, hmem⟩ := hchanged x hok
    have hown : (f.runOn (g.runOn s).2).2.storage.Owns b key := hown
    rw [hafter] at hown
    have hown := Storage.owns_of_owns_changeAll hne hown
    rw [hbeside] at hown
    rcases Storage.mem_or_owns_of_owns_changeAll hown with ⟨d, hmem'⟩ | hown
    · exact Storage.not_owns_of_permitsAll hne htakes'.permits hmem' (howns hmem)
    · have hkept := hown.changeAll_other hne.symm htakes.permits
      exact hne ((howns hmem).unique hkept)
  · have hchanges : f.changesOn (g.runOn s).2 = f.changesOn s := hprogress.changes
    refine ⟨hresult.trans hok, ?_⟩
    rw [hafter, hbeside, hchanges, hstorage']
    refine (Storage.changeAll_comm hne fun entry hentry entry' hentry' he => ?_).symm
    have hown := howns hentry
    rw [he] at hown
    exact Storage.not_owns_of_permitsAll hne htakes'.permits hentry' hown

end Command

namespace Call

/-- A call that writes rows, as a command. -/
theorem exists_command {c : Call} {txn : TxnId} (hc : c.writer? = some txn) :
    ∃ f : Command Answer, f.Makes txn (c.Asks txn) ∧ (∀ other, txn ≠ other → f.Agrees other) ∧
      ∀ s : Store, s.reply c = (f.runOn s).1 ∧ s.call c = (f.runOn s).2 := by
  have hcaller : some txn = none ∨ some txn = some txn := .inr rfl
  cases c with
  | mutate caller entity op allowExists =>
    cases hc
    refine ⟨.count <$> Command.mutate (some txn) entity op allowExists, ?_, fun other hne => ?_,
      Command.runOn_map _ _⟩
    · exact (Command.mutate_makes hcaller entity op allowExists).map _
    · exact (Command.mutate_agrees (fun he => hne (Option.some.inj he)) entity op allowExists).map _
  | sync caller records =>
    cases hc
    refine ⟨(fun _ => .done) <$> Command.sync (some txn) records, ?_, fun other hne => ?_,
      Command.runOn_map _ _⟩
    · exact (Command.sync_makes hcaller records).map _
    · exact (Command.sync_agrees (fun he => hne (Option.some.inj he)) records).map _
  | _ => cases hc

end Call

namespace Store

variable {a b : TxnId} {calls : List Call} {c d : Call}

/-- Two writes of different transactions that succeed one after the other succeed in the other order
too. Both give the same answers, and in the end the rows and the records of the open transactions
are the same. -/
theorem writes_commute (schema : Schema) (config : Config) (hfresh : Call.Fresh calls)
    (hunique : ∀ call ∈ c :: calls, call.Unique) (hne : a ≠ b) (hc : c.writer? = some a)
    (hd : d.writer? = some b) :
    let s := ({ schema, config } : Store).run calls
    ∀ {x y}, s.reply c = .ok x → (s.call c).reply d = .ok y →
      s.reply d = .ok y ∧ (s.call d).reply c = .ok x ∧
        ((s.call d).call c).storage = ((s.call c).call d).storage := by
  intro s x y hx hy
  have S := serial_run schema config hfresh fun call hmem =>
    hunique call (List.mem_cons_of_mem _ hmem)
  obtain ⟨f, hf, hfb, hrun⟩ := Call.exists_command hc
  obtain ⟨g, hg, hga, hrun'⟩ := Call.exists_command hd
  rw [(hrun s).1] at hx
  rw [(hrun' _).1, (hrun s).2] at hy
  have hbefore := Command.result_before (hga a hne.symm) hf hy
  have hafter := Command.result_after S.ledger S.keyed hne hf hg (hfb b hne) (hga a hne.symm)
    (fun ha => ha.unique (hunique c List.mem_cons_self)) hx hy
  simp only [hrun, hrun']
  exact ⟨hbefore.1, hafter⟩

/-- One transaction patches the row that it has created, and another one creates a row. -/
theorem update_commutes_with_create :
    let schema : Schema := { entities := Std.ExtTreeMap.ofList [("note", {})] compare }
    let create (txn : TxnId) (id : String) : Call :=
      .mutate (some txn) "note" (.create (.obj [("id", .str id)])) true
    let a : TxnId := ⟨1, "a"⟩
    let b : TxnId := ⟨2, "b"⟩
    let s := ({ schema } : Store).run [.begin a, .begin b, create a "x"]
    let c := create a "x"
    let d := create b "y"
    s.reply c = .ok (.count 1) ∧ s.reply d = .ok (.count 1) ∧
      ((s.call d).call c).storage = ((s.call c).call d).storage := by
  intro schema create a b s c d
  have hfresh : Call.Fresh [.begin a, .begin b, create a "x"] := by decide
  have hunique : ∀ call ∈ [c, .begin a, .begin b, create a "x"], call.Unique := by
    simp [c, create, Call.Unique, Operation.Unique, Operation.create, Json.UniqueRows, Json.rows,
      Fields.names]
  have hne : a ≠ b := by decide
  have answers {r : Except StoreError Answer} (h : r.toOption = some (.count 1)) :
      r = .ok (.count 1) := by
    cases r <;> cases h
    rfl
  have hx : s.reply c = .ok (.count 1) := answers (by decide)
  have hy : (s.call c).reply d = .ok (.count 1) := answers (by decide)
  obtain ⟨hd, -, hstorage⟩ := writes_commute schema {} hfresh hunique hne rfl rfl hx hy
  exact ⟨hx, hd, hstorage⟩

end Store

end EntityStore
