import OreoTxn.Durability

/-!
# The goroutines run to completion

No schedule of the goroutines the coordinator launches runs forever, and none of them
blocks for good. Every goroutine that runs lowers `Sys.load` by one: the commit phase of
`AsyncLevelTwo` weighs one more than the goroutines it launches (`load_run`), so every
schedule ends (`goroutines_terminate`); a goroutine that panics on the nil `tsrMaintainer`
is taken off too (`load_runPanics`). While a goroutine is pending one of them can run: the
`DeleteTSR` that waits in `wg.Wait()` waits only for participant `Commit`s, which can always
run (`exists_goroutineStep`).

So a schedule ends in a state with no goroutine pending, and if the commit point has been
reached there, every participant the transaction prepared has had its `Commit` return and
the TSR has been deleted (`stuck_after_commit_point`). `CompleteInv` carries this through
the run: after the commit point, each of these calls has been made or is owed by a pending
goroutine. Before the commit point, `RollbackInv` says the same of the `Abort`s, in a run
where no call has panicked: a `Commit` that panics at `CreateTSR` launches no `Abort`
(`stuck_without_commit_point`).
-/

namespace OreoTxn

/-! ## Goroutine steps -/

/-- One launched goroutine runs, or panics on the nil `tsrMaintainer`, with answers of the
collaborators that fit the state. -/
def GoroutineStep (s s' : Sys) : Prop :=
  ∃ i task env, s.pending[i]? = some task ∧ task.Ready s ∧ env.Fits s ∧
    (¬s.txn.Panics (s.taskEvents env task) ∧ s' = s.run env i task ∨
      s.txn.Panics (s.taskEvents env task) ∧ s' = s.runPanics env i task)

theorem GoroutineStep.step {cfg : Config} {s s' : Sys} (h : GoroutineStep s s') :
    Step cfg s s' := by
  obtain ⟨i, task, env, hget, hready, hfit, ⟨hp, rfl⟩ | ⟨hp, rfl⟩⟩ := h
  · exact .run i task env hget hready hfit hp
  · exact .runPanics i task env hget hready hfit hp

/-- What a pending goroutine weighs, in a transaction of `n` participants: the commit phase
launches one goroutine per participant and the `DeleteTSR`. -/
def Task.weight (n : Nat) : Task → Nat
  | .commitPhase => n + 2
  | _ => 1

/-- The goroutines still to run, each by its weight. -/
def Sys.load (s : Sys) : Nat :=
  (s.pending.map (Task.weight s.txn.dataStoreMap.names.length)).sum

section Load

variable {s : Sys} {env : Env} {i : Nat} {task : Task}

/-- The load is that of the goroutine at `i` and of the others. -/
theorem load_eq_of_getElem? (h : s.pending[i]? = some task) :
    s.load = task.weight s.txn.dataStoreMap.names.length +
      ((s.pending.eraseIdx i).map (Task.weight s.txn.dataStoreMap.names.length)).sum := by
  rw [Sys.load, ((perm_cons_eraseIdx h).map _).sum_eq, List.map_cons, List.sum_cons]

/-- Every goroutine that runs lowers the load by one. -/
theorem load_run (h : s.pending[i]? = some task) : (s.run env i task).load + 1 = s.load := by
  rw [load_eq_of_getElem? h]
  cases task <;> simp [Sys.run, Sys.load, Task.weight, abort_dataStoreMap, Function.comp_def] <;>
    omega

/-- A goroutine that panics lowers the load: it launches nothing. -/
theorem load_runPanics (h : s.pending[i]? = some task) : (s.runPanics env i task).load < s.load := by
  have hw : 0 < task.weight s.txn.dataStoreMap.names.length := by
    cases task <;> simp [Task.weight]
  have hn : (s.runPanics env i task).txn.dataStoreMap = s.txn.dataStoreMap := by
    simp only [Sys.runPanics]
    split_ifs <;> simp [abort_dataStoreMap]
  rw [load_eq_of_getElem? h, Sys.load, hn, runPanics_pending]
  omega

end Load

/-- No schedule of the goroutines runs forever. -/
theorem goroutines_terminate : WellFounded fun s' s : Sys => GoroutineStep s s' :=
  Subrelation.wf (fun h => by
    obtain ⟨i, task, env, hget, -, -, ⟨-, rfl⟩ | ⟨-, rfl⟩⟩ := h
    · exact (load_run hget).le
    · exact load_runPanics hget) (measure Sys.load).wf

/-- Collaborators that fit any state: `CreateTSR` finds the slot taken. -/
def Env.fitting (s : Sys) : Env :=
  { Env.nil s.txn.dataStoreMap.names with createTSR := some "exists" }

theorem Env.fitting_fits (s : Sys) : (Env.fitting s).Fits s :=
  ⟨.refl _, .refl _, fun h => absurd h (by simp [Env.fitting])⟩

/-- A pending goroutine that is ready runs or panics. -/
theorem exists_goroutineStep_of_ready {s : Sys} {i : Nat} {task : Task}
    (hget : s.pending[i]? = some task) (hready : task.Ready s) : ∃ s', GoroutineStep s s' := by
  by_cases hp : s.txn.Panics (s.taskEvents (Env.fitting s) task)
  · exact ⟨_, i, task, _, hget, hready, Env.fitting_fits s, .inr ⟨hp, rfl⟩⟩
  · exact ⟨_, i, task, _, hget, hready, Env.fitting_fits s, .inl ⟨hp, rfl⟩⟩

/-- While a goroutine is pending, one of them can run. -/
theorem exists_goroutineStep {s : Sys} (h : s.pending ≠ []) : ∃ s', GoroutineStep s s' := by
  by_cases hc : ∃ ds, Task.commit ds ∈ s.pending
  · obtain ⟨ds, hds⟩ := hc
    obtain ⟨i, hi⟩ := List.getElem?_of_mem hds
    exact exists_goroutineStep_of_ready hi trivial
  · obtain ⟨task, ht⟩ := List.exists_mem_of_ne_nil _ h
    obtain ⟨i, hi⟩ := List.getElem?_of_mem ht
    refine exists_goroutineStep_of_ready hi ?_
    cases task with
    | deleteTSR => exact fun ds hds => hc ⟨ds, hds⟩
    | _ => trivial

/-! ## The invariant -/

/-- What holds in every reachable state. -/
structure CompleteInv (s : Sys) : Prop where
  /-- After the commit point, a prepared participant's `Commit` has returned or is owed by a
  pending goroutine. -/
  commits : CommitPoint s.log → ∀ ds, Prepared s.log ds →
    CommitReturned s.log ds ∨ Task.commit ds ∈ s.pending ∨ Task.commitPhase ∈ s.pending
  /-- After the commit point, the TSR has been deleted or a pending goroutine will delete it. -/
  deleted : CommitPoint s.log → (∃ a id ok, (a, Event.deleteTSR id ok) ∈ s.log) ∨
    Task.deleteTSR ∈ s.pending ∨ Task.commitPhase ∈ s.pending

theorem completeInv_init : CompleteInv Sys.init :=
  ⟨fun h => by simp [Sys.init, CommitPoint] at h, fun h => by simp [Sys.init, CommitPoint] at h⟩

section Steps

variable {s : Sys} {cfg : Config} {env : Env}

/-- A step that reaches no new commit point, prepares nothing, extends the log, and keeps
every pending goroutine but an `Abort` keeps the invariant. -/
theorem CompleteInv.of_frame (hi : CompleteInv s) {s' : Sys}
    (hcp : CommitPoint s'.log → CommitPoint s.log)
    (hprep : ∀ ds, Prepared s'.log ds → Prepared s.log ds) (hlog : s.log ⊆ s'.log)
    (hpend : ∀ task ∈ s.pending, task ≠ .abort → task ∈ s'.pending) : CompleteInv s' := by
  refine ⟨fun h ds hds => ?_, fun h => ?_⟩
  · rcases hi.commits (hcp h) ds (hprep ds hds) with ⟨a, ok, hr⟩ | hr | hr
    · exact .inl ⟨a, ok, hlog hr⟩
    · exact .inr (.inl (hpend _ hr (by simp)))
    · exact .inr (.inr (hpend _ hr (by simp)))
  · rcases hi.deleted (hcp h) with ⟨a, id, ok, hd⟩ | hd | hd
    · exact .inl ⟨a, id, ok, hlog hd⟩
    · exact .inr (.inl (hpend _ hd (by simp)))
    · exact .inr (.inr (hpend _ hd (by simp)))

/-- The owner's call keeps the invariant. A `Commit` from STARTED that reaches the commit
point calls every participant's `Commit` or launches the commit phase, and deletes the TSR
or launches a goroutine that will; any other call reaches no commit point and prepares
nothing. -/
theorem completeInv_call (hi : CompleteInv s) (ha : AbortInv s) (hdel : DeleteInv s)
    (hfit : env.Fits s) (c : Call) : CompleteInv (s.call cfg env c) := by
  by_cases hact : c = .commit ∧ s.txn.state = .started
  · obtain ⟨rfl, hs⟩ := hact
    have hno : ¬CommitPoint s.log := fun h => by
      rcases (ha.point h).2 with h' | h' <;> rw [hs] at h' <;> cases h'
    have hnp : ∀ ds, ¬Prepared s.log ds := fun ds h => by
      rcases (hdel.prepared ds h).2 with h' | h' <;> rw [hs] at h' <;> cases h'
    have hsync : CommitPoint (s.call cfg env .commit).log →
        Event.createTSR s.txn.txnId .committed true ∈ (s.txn.commit cfg env).events := fun h => by
      obtain ⟨id, h⟩ := commitPoint_map.1 ((commitPoint_append.1 h).resolve_left hno)
      obtain ⟨rfl, -⟩ := commit_createTSR_mem h
      exact h
    refine ⟨fun h ds hds => ?_, fun h => ?_⟩
    · have hp := prepared_map.1 ((prepared_append.1 hds).resolve_left (hnp ds))
      rcases (commit_completes (hsync h)).1 with hc | hc
      · obtain ⟨ok, hok⟩ := hc ds (commit_prepare_mem hfit hp).2
        exact .inl ⟨.owner, ok, List.mem_append_right _ (List.mem_map_of_mem _ hok)⟩
      · exact .inr (.inr (List.mem_append_right _ hc))
    · rcases (commit_completes (hsync h)).2 with ⟨ok, hd⟩ | hd | hd
      · exact .inl ⟨.owner, _, ok, List.mem_append_right _ (List.mem_map_of_mem _ hd)⟩
      · exact .inr (.inl (List.mem_append_right _ hd))
      · exact .inr (.inr (List.mem_append_right _ hd))
  have hev : ∀ e ∈ (s.txn.call cfg env c).events, ¬e.OfCommit := fun e he hk =>
    hact (call_commit_of_mem he hk)
  refine hi.of_frame (fun h => ?_) (fun ds h => ?_) (List.subset_append_left _ _)
    fun task h _ => List.mem_append_left _ h
  · refine (commitPoint_append.1 h).resolve_right fun h => ?_
    obtain ⟨id, h⟩ := commitPoint_map.1 h
    exact hev _ h trivial
  · exact (prepared_append.1 h).resolve_right fun h => hev _ (prepared_map.1 h) trivial

/-- A launched goroutine keeps the invariant: the commit phase launches a `Commit` for every
participant, so for every prepared one, and the `DeleteTSR`; a participant `Commit` and a
`DeleteTSR` make the call they owed. -/
theorem completeInv_run (hi : CompleteInv s) (hdel : DeleteInv s) {i : Nat} {task : Task}
    (hget : s.pending[i]? = some task) : CompleteInv (s.run env i task) := by
  have hkeep : ∀ t ∈ s.pending, t ≠ task → t ∈ s.pending.eraseIdx i := fun _ ht hne =>
    mem_eraseIdx_of_ne hget ht hne
  cases task with
  | abort =>
    refine hi.of_frame (fun h => ?_) (fun ds h => ?_) (List.subset_append_left _ _) hkeep
    · refine (commitPoint_append.1 h).resolve_right fun h => ?_
      obtain ⟨id, h⟩ := commitPoint_map.1 h
      obtain ⟨-, ⟨_, h'⟩ | ⟨_, _, h'⟩⟩ := abort_events h <;> cases h'
    · refine (prepared_append.1 h).resolve_right fun h => ?_
      obtain ⟨-, ⟨_, h'⟩ | ⟨_, _, h'⟩⟩ := abort_events (prepared_map.1 h) <;> cases h'
  | commitPhase =>
    refine ⟨fun _ ds hds => .inr (.inl ?_), fun _ => .inr (.inl (by simp [Sys.run]))⟩
    simp only [Sys.run, List.mem_append, List.mem_map, List.mem_singleton]
    exact .inl (.inr ⟨ds, (hdel.prepared ds hds).1, rfl⟩)
  | commit ds =>
    have hcp : CommitPoint (s.run env i (.commit ds)).log → CommitPoint s.log := fun h =>
      (commitPoint_append.1 h).resolve_right (by simp [CommitPoint])
    refine ⟨fun h d hd => ?_, fun h => ?_⟩
    · have hd' := (prepared_append.1 hd).resolve_right (by simp [Prepared])
      rcases hi.commits (hcp h) d hd' with hr | hr | hr
      · exact .inl (hr.append _)
      · by_cases hdd : d = ds
        · subst hdd
          exact .inl ⟨.goroutine, _, List.mem_append_right _ (List.mem_singleton_self _)⟩
        · exact .inr (.inl (hkeep _ hr (by simpa using hdd)))
      · exact .inr (.inr (hkeep _ hr (by simp)))
    · rcases hi.deleted (hcp h) with ⟨a, id, ok, hd⟩ | hd | hd
      · exact .inl ⟨a, id, ok, List.mem_append_left _ hd⟩
      · exact .inr (.inl (hkeep _ hd (by simp)))
      · exact .inr (.inr (hkeep _ hd (by simp)))
  | deleteTSR =>
    refine ⟨fun h d hd => ?_,
      fun _ => .inl ⟨.goroutine, _, _, List.mem_append_right _ (List.mem_singleton_self _)⟩⟩
    have hd' := (prepared_append.1 hd).resolve_right (by simp [Prepared])
    rcases hi.commits ((commitPoint_append.1 h).resolve_right (by simp [CommitPoint])) d hd' with
      hr | hr | hr
    · exact .inl (hr.append _)
    · exact .inr (.inl (hkeep _ hr (by simp)))
    · exact .inr (.inr (hkeep _ hr (by simp)))

/-- An owner's call that panics keeps the invariant: a `Commit` from STARTED panics before
the commit point, and an `Abort` makes no call. -/
theorem completeInv_callPanics (hi : CompleteInv s) (ha : AbortInv s) {c : Call}
    (hp : s.txn.Panics (s.txn.call cfg env c).events) : CompleteInv (s.callPanics cfg env c) := by
  rcases (callPanics_cases hp).2 with ⟨-, hs, -, -⟩ | ⟨-, -, -, hlog⟩
  · have hno : ¬CommitPoint (s.callPanics cfg env c).log := fun h => by
      rcases (ha.point ((commitPoint_callPanics hp).1 h)).2 with h' | h' <;> rw [hs] at h' <;>
        cases h'
    exact ⟨fun h => absurd h hno, fun h => absurd h hno⟩
  · exact hi.of_frame (hlog ▸ id) (hlog ▸ fun _ => id) (hlog ▸ List.Subset.refl _) fun _ h _ => h

/-- A goroutine that panics keeps the invariant: it is an `Abort`, which nothing waits for;
a `DeleteTSR` runs after the commit point, when a global datastore is set, and cannot
panic. -/
theorem completeInv_runPanics (hi : CompleteInv s) (hap : AfterPointInv s)
    (hm : CommitPoint s.log → s.txn.tsrMaintainer.isSome = true) {i : Nat} {task : Task}
    (hget : s.pending[i]? = some task) (hp : s.txn.Panics (s.taskEvents env task)) :
    CompleteInv (s.runPanics env i task) := by
  obtain ⟨hn, ⟨rfl, -, -⟩ | ⟨rfl, -⟩⟩ := runPanics_cases (i := i) hp
  · exact hi.of_frame id (fun _ => id) (List.Subset.refl _)
      fun _ ht hne => mem_eraseIdx_of_ne hget ht hne
  · have h := hm (hap.pending ⟨_, List.getElem?_mem hget, by simp⟩)
    simp [hn] at h

end Steps

theorem completeInv_reachable {cfg : Config} {s : Sys} (h : Reachable cfg s) : CompleteInv s := by
  induction h with
  | init => exact completeInv_init
  | step hr hs ih =>
    cases hs with
    | call c env hfit =>
      exact completeInv_call ih (abortInv_reachable hr) (deleteInv_reachable hr) hfit c
    | callPanics c env _ hp => exact completeInv_callPanics ih (abortInv_reachable hr) hp
    | run i task env hget _ _ => exact completeInv_run ih (deleteInv_reachable hr) hget
    | runPanics i task env hget _ _ hp =>
      exact completeInv_runPanics ih (afterPointInv_reachable hr) (tsrMaintainer_of_commitPoint hr)
        hget hp
    | race _ => exact ⟨ih.commits, ih.deleted⟩

/-! ## The rollback side -/

/-- `ds` has been told to abort in the trace `l`, whatever it was told and answered. -/
def AbortSent (l : List (Actor × Event)) (ds : String) : Prop :=
  ∃ a hc ok, (a, Event.abort ds hc ok) ∈ l

/-- The other half of `CompleteInv`: what holds in every reachable state about the
participants to roll back. -/
structure RollbackInv (s : Sys) : Prop where
  /-- Once ABORTED with no panic, every prepared participant has been told to abort. -/
  aborted : s.panicked = false → s.txn.state = .aborted → ∀ ds, Prepared s.log ds →
    AbortSent s.log ds
  /-- Before the commit point and with no panic, a prepared participant has been told to
  abort, or an `Abort` is pending. -/
  owed : s.panicked = false → ¬CommitPoint s.log → ∀ ds, Prepared s.log ds →
    AbortSent s.log ds ∨ Task.abort ∈ s.pending

theorem rollbackInv_init : RollbackInv Sys.init :=
  ⟨fun _ _ _ h => by simp [Sys.init, Prepared] at h,
    fun _ _ _ h => by simp [Sys.init, Prepared] at h⟩

/-- The invariant says nothing once a panic has happened. -/
theorem RollbackInv.of_panicked {s : Sys} (h : s.panicked = true) : RollbackInv s :=
  ⟨fun h' => absurd (h.symm.trans h') (by decide), fun h' => absurd (h.symm.trans h') (by decide)⟩

/-- `Abort` prepares nothing. -/
theorem prepared_append_abort {l : List (Actor × Event)} {a : Actor} {t : Transaction}
    {env : Env} {ds : String} :
    Prepared (l ++ (t.abort env).events.map (a, ·)) ds ↔ Prepared l ds := by
  refine ⟨fun h => (prepared_append.1 h).resolve_right fun h => ?_,
    fun h => prepared_append.2 (.inl h)⟩
  obtain ⟨-, ⟨_, h'⟩ | ⟨_, _, h'⟩⟩ := abort_events (prepared_map.1 h) <;> cases h'

section Rollback

variable {s : Sys} {cfg : Config} {env : Env}

/-- An `Abort` the state machine accepts tells every prepared participant to abort. -/
theorem abortSent_of_abort (hdel : DeleteInv s) (hfit : env.Fits s)
    (hm : s.txn.state.canMoveTo .aborted = true) {a : Actor} {ds : String}
    (hds : Prepared (s.log ++ (s.txn.abort env).events.map (a, ·)) ds) :
    AbortSent (s.log ++ (s.txn.abort env).events.map (a, ·)) ds := by
  have hmem := (hdel.prepared ds (prepared_append_abort.1 hds)).1
  obtain ⟨hc, ok, h⟩ := abort_sends_all hm (hfit.order.mem_iff.2 hmem)
  exact ⟨a, hc, ok, List.mem_append_right _ (List.mem_map_of_mem _ h)⟩

/-- A step that prepares nothing, extends the log, keeps a pending `Abort`, and reaches
ABORTED only from ABORTED keeps the invariant. -/
theorem RollbackInv.of_frame (hi : RollbackInv s) {s' : Sys} (hpan : s'.panicked = s.panicked)
    (hprep : ∀ ds, Prepared s'.log ds → Prepared s.log ds) (hlog : s.log ⊆ s'.log)
    (hstate : s'.txn.state = .aborted → s.txn.state = .aborted)
    (hpend : Task.abort ∈ s.pending → Task.abort ∈ s'.pending) : RollbackInv s' := by
  have hsent : ∀ {ds}, AbortSent s.log ds → AbortSent s'.log ds :=
    fun ⟨a, hc, ok, h⟩ => ⟨a, hc, ok, hlog h⟩
  refine ⟨fun hn h ds hds => hsent (hi.aborted (hpan ▸ hn) (hstate h) ds (hprep ds hds)),
    fun hn h ds hds => ?_⟩
  have hcp : ¬CommitPoint s.log := fun ⟨a, id, hc⟩ => h ⟨a, id, hlog hc⟩
  exact (hi.owed (hpan ▸ hn) hcp ds (hprep ds hds)).imp hsent hpend

/-- The owner's call keeps the invariant. A `Commit` from STARTED that prepares a
participant and makes no commit point launches `Abort`; an `Abort` the state machine
accepts tells every participant to abort; any other call prepares nothing and reaches
ABORTED only from ABORTED. -/
theorem rollbackInv_call (hi : RollbackInv s) (hdel : DeleteInv s) (hfit : env.Fits s)
    (c : Call) : RollbackInv (s.call cfg env c) := by
  by_cases hcs : c = .commit ∧ s.txn.state = .started
  · obtain ⟨rfl, hs⟩ := hcs
    have hnp : ∀ ds, ¬Prepared s.log ds := fun ds h => by
      rcases (hdel.prepared ds h).2 with h' | h' <;> rw [hs] at h' <;> cases h'
    have hst : (s.txn.commit cfg env).txn.state = .committed := by
      simp only [commit_txn, hs, if_true]
      split_ifs <;> rfl
    refine ⟨fun _ h => absurd (hst.symm.trans h) (by decide), fun _ hcp ds hds => .inr ?_⟩
    have hp := prepared_map.1 ((prepared_append.1 hds).resolve_left (hnp ds))
    have hsync : Event.createTSR s.txn.txnId .committed true ∉ (s.txn.commit cfg env).events :=
      fun h => hcp (commitPoint_append.2 (.inr (commitPoint_map.2 ⟨_, h⟩)))
    exact List.mem_append_right _ (commit_abort_launched hp hsync)
  by_cases hca : c = .abort ∧ s.txn.state.canMoveTo .aborted = true
  · obtain ⟨rfl, hm⟩ := hca
    have hsent := fun ds => @abortSent_of_abort s env hdel hfit hm .owner ds
    exact ⟨fun _ _ => hsent, fun _ _ ds hds => .inl (hsent ds hds)⟩
  refine hi.of_frame rfl (fun ds h => ?_) (List.subset_append_left _ _) (fun h => ?_)
    (List.mem_append_left _)
  · exact (prepared_append.1 h).resolve_right fun h => hcs (call_commit_of_mem (prepared_map.1 h) trivial)
  · by_cases hc : c = .abort
    · subst hc
      have hm : s.txn.state.canMoveTo .aborted = false :=
        Bool.eq_false_iff.2 fun h => hca ⟨rfl, h⟩
      simpa [Sys.call, Transaction.call, abort_txn, hm] using h
    · exact call_state_aborted hc h

/-- A launched goroutine keeps the invariant. A pending `Abort` runs from COMMITTED, and
tells every participant to abort, or from ABORTED, when they have all been told already. -/
theorem rollbackInv_run (hi : RollbackInv s) (ha : AbortInv s) (hdel : DeleteInv s)
    (hfit : env.Fits s) {i : Nat} {task : Task} (hget : s.pending[i]? = some task) :
    RollbackInv (s.run env i task) := by
  have hmem : task ∈ s.pending := List.getElem?_mem hget
  have hkeep : task ≠ .abort → Task.abort ∈ s.pending → Task.abort ∈ s.pending.eraseIdx i :=
    fun hne h => mem_eraseIdx_of_ne hget h (Ne.symm hne)
  cases task with
  | abort =>
    by_cases hm : s.txn.state.canMoveTo .aborted = true
    · have hsent := fun ds => @abortSent_of_abort s env hdel hfit hm .goroutine ds
      exact ⟨fun _ _ => hsent, fun _ _ ds hds => .inl (hsent ds hds)⟩
    have hab : s.txn.state = .aborted :=
      (ha.pending hmem).resolve_left fun h => hm (by rw [h]; rfl)
    have hlog : (s.run env i .abort).log = s.log := by simp [Sys.run, abort_eq, hm]
    refine ⟨fun hn _ ds hds => ?_, fun hn _ ds hds => .inl ?_⟩ <;> rw [hlog] at hds ⊢ <;>
      exact hi.aborted hn hab ds hds
  | commitPhase =>
    exact hi.of_frame rfl (fun _ => id) (List.Subset.refl _) id
      fun h => List.mem_append_left _ (List.mem_append_left _ (hkeep (by simp) h))
  | commit ds =>
    exact hi.of_frame rfl (fun d h => (prepared_append.1 h).resolve_right (by simp [Prepared]))
      (List.subset_append_left _ _) id (hkeep (by simp))
  | deleteTSR =>
    exact hi.of_frame rfl (fun d h => (prepared_append.1 h).resolve_right (by simp [Prepared]))
      (List.subset_append_left _ _) id (hkeep (by simp))

end Rollback

theorem rollbackInv_reachable {cfg : Config} {s : Sys} (h : Reachable cfg s) : RollbackInv s := by
  induction h with
  | init => exact rollbackInv_init
  | step hr hs ih =>
    cases hs with
    | call c env hfit => exact rollbackInv_call ih (deleteInv_reachable hr) hfit c
    | callPanics => exact .of_panicked rfl
    | run i task env hget _ hfit =>
      exact rollbackInv_run ih (abortInv_reachable hr) (deleteInv_reachable hr) hfit hget
    | runPanics => exact .of_panicked rfl
    | race _ => exact ih.of_frame rfl (fun _ => id) (List.Subset.refl _) id id

/-! ## Where every schedule ends -/

/-- When no launched goroutine can run, none is pending; and if the commit point has been
reached, every participant the transaction prepared has had its `Commit` return, and the TSR
has been deleted. -/
theorem stuck_after_commit_point {cfg : Config} {s : Sys} (h : Reachable cfg s)
    (hstuck : ∀ s', ¬GoroutineStep s s') :
    s.pending = [] ∧ (CommitPoint s.log →
      CommitsReturned s.log ∧ ∃ a id ok, (a, Event.deleteTSR id ok) ∈ s.log) := by
  have hnil : s.pending = [] :=
    Classical.byContradiction fun hne => (exists_goroutineStep hne).elim hstuck
  refine ⟨hnil, fun hcp => ⟨fun ds hds => ?_, ?_⟩⟩
  · simpa [hnil] using (completeInv_reachable h).commits hcp ds hds
  · simpa [hnil] using (completeInv_reachable h).deleted hcp

theorem stuck_after_commit_point_committed :
    let s := (writingRun ⟨.default, .zero⟩).call ⟨.default, .zero⟩ (Env.nil ["r"]) .commit
    (∀ s', ¬GoroutineStep s s') ∧ s.pending = [] ∧ (CommitPoint s.log →
      CommitsReturned s.log ∧ ∃ a id ok, (a, Event.deleteTSR id ok) ∈ s.log) := by
  intro s
  have hp : s.pending = [] := rfl
  have hstuck : ∀ s', ¬GoroutineStep s s' := fun _ ⟨i, _, _, hget, _⟩ => by simp [hp] at hget
  exact ⟨hstuck, stuck_after_commit_point
    ((reachable_writingRun _).step (.call .commit _ ⟨.refl _, .refl _, fun _ => rfl⟩
      (not_panics_of_isSome (by rfl) _))) hstuck⟩

/-- When no launched goroutine can run, no call has panicked and the commit point has not
been reached, every participant that answered `nil` to `Prepare` has been told to abort: no
participant is left PREPARED with no decision on its way. -/
theorem stuck_without_commit_point {cfg : Config} {s : Sys} (h : Reachable cfg s)
    (hstuck : ∀ s', ¬GoroutineStep s s') (hok : s.panicked = false) (hnp : ¬CommitPoint s.log) :
    ∀ ds, Prepared s.log ds → ∃ a hc ok, (a, Event.abort ds hc ok) ∈ s.log := by
  have hnil : s.pending = [] :=
    Classical.byContradiction fun hne => (exists_goroutineStep hne).elim hstuck
  exact fun ds hds =>
    ((rollbackInv_reachable h).owed hok hnp ds hds).resolve_right (by simp [hnil])

/-- A reader seizes the empty TSR slot, so the sync point of `Commit` fails after the
participant was prepared; the `Abort` it launches runs, and nothing is left to run. -/
theorem stuck_without_commit_point_raced :
    let env : Env := { Env.nil ["r"] with createTSR := some "exists" }
    let s := ({ writingRun ⟨.default, .zero⟩ with tsr := some .aborted }.call
      ⟨.default, .zero⟩ env .commit).run env 0 .abort
    (∀ s', ¬GoroutineStep s s') ∧ s.panicked = false ∧ ¬CommitPoint s.log ∧
      Prepared s.log "r" ∧
      ∀ ds, Prepared s.log ds → ∃ a hc ok, (a, Event.abort ds hc ok) ∈ s.log := by
  intro env s
  have hr : Reachable ⟨.default, .zero⟩ s :=
    (((reachable_writingRun _).step (.race (by decide) rfl)).step
      (.call .commit env ⟨.refl _, .refl _, nofun⟩ (not_panics_of_isSome (by rfl) _))).step
      (.run 0 .abort env rfl trivial ⟨.refl _, .refl _, nofun⟩ (not_panics_of_isSome (by rfl) _))
  have hp : s.pending = [] := rfl
  have hlog : s.log = [(.owner, .start "r" true), (.owner, .write "r" "k" true),
      (.owner, .prepare "r" true), (.owner, .createTSR "txn" .committed false),
      (.goroutine, .writeTSR "txn" .aborted true), (.goroutine, .abort "r" true true)] := rfl
  have hstuck : ∀ s', ¬GoroutineStep s s' := fun _ ⟨i, _, _, hget, _⟩ => by simp [hp] at hget
  have hnp : ¬CommitPoint s.log := fun ⟨a, id, h⟩ => by simp [hlog] at h
  exact ⟨hstuck, rfl, hnp, ⟨.owner, by simp [hlog]⟩, stuck_without_commit_point hr hstuck rfl hnp⟩

end OreoTxn
