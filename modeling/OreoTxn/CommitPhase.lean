import OreoTxn.Run

/-!
# The commit phase and `DeleteTSR`

After the sync point the participants' records are PREPARED until their `Commit` runs, and
a reader that finds no TSR for them past their lease rolls them back. So the TSR must stay
until every participant the transaction prepared has been told to commit. Every
`AsyncLevel` waits for that before `DeleteTSR`: level 0 and 1 in `wg.Wait()` before
deleting, level 2 in the goroutine it launches. None of them looks at what `ds.Commit()`
returned: `DeleteInv.log` says that every `DeleteTSR` comes after the `Commit` of every
prepared participant has returned, with `nil` or with an error, and
`deleteTSR_despite_failed_commit` (`Atomicity.lean`) that a failed one is not retried.

`DeleteInv` holds in the initial state and is kept by every kind of step, hence in every
reachable state (`deleteInv_reachable`).
-/

namespace OreoTxn

/-! ## Prepared and committed participants in a trace -/

/-- `ds` answered `nil` to a `Prepare` in the trace `l`. -/
def Prepared (l : List (Actor × Event)) (ds : String) : Prop :=
  ∃ a, (a, Event.prepare ds true) ∈ l

/-- `ds.Commit()` has been called and has returned in `l`, whatever it answered. -/
def CommitReturned (l : List (Actor × Event)) (ds : String) : Prop :=
  ∃ a ok, (a, Event.commit ds ok) ∈ l

/-- Every participant prepared in `l` has had its `Commit` return in `l`. -/
def CommitsReturned (l : List (Actor × Event)) : Prop :=
  ∀ ds, Prepared l ds → CommitReturned l ds

/-- A `DeleteTSR`. -/
def IsDeleteTSR (x : Actor × Event) : Prop :=
  ∃ id ok, x.2 = .deleteTSR id ok

theorem prepared_append {l m : List (Actor × Event)} {ds : String} :
    Prepared (l ++ m) ds ↔ Prepared l ds ∨ Prepared m ds := by
  simp only [Prepared, List.mem_append, exists_or]

theorem prepared_map {a : Actor} {es : List Event} {ds : String} :
    Prepared (es.map (a, ·)) ds ↔ Event.prepare ds true ∈ es := by
  simp [Prepared]

theorem CommitReturned.append {l : List (Actor × Event)} {ds : String} (h : CommitReturned l ds)
    (m : List (Actor × Event)) : CommitReturned (l ++ m) ds :=
  let ⟨a, ok, h⟩ := h
  ⟨a, ok, List.mem_append_left m h⟩

/-! ## The invariant -/

/-- What holds in every reachable state. -/
structure DeleteInv (s : Sys) : Prop where
  log : OnlyAfter IsDeleteTSR CommitsReturned s.log
  /-- A pending `DeleteTSR` waits for the pending `Commit` of every prepared participant
  whose `Commit` has not returned. -/
  waiting : Task.deleteTSR ∈ s.pending →
    ∀ ds, Prepared s.log ds → CommitReturned s.log ds ∨ Task.commit ds ∈ s.pending
  /-- A prepared participant is in the map, and the transaction has left STARTED. -/
  prepared : ∀ ds, Prepared s.log ds →
    ds ∈ s.txn.dataStoreMap.names ∧ (s.txn.state = .committed ∨ s.txn.state = .aborted)
  /-- The commit phase runs after STARTED. -/
  launched : Task.deleteTSR ∈ s.pending ∨ Task.commitPhase ∈ s.pending →
    s.txn.state = .committed ∨ s.txn.state = .aborted

theorem deleteInv_init : DeleteInv Sys.init where
  log := onlyAfter_of_forall_not (by simp [Sys.init])
  waiting h := by simp [Sys.init] at h
  prepared _ h := by simp [Sys.init, Prepared] at h
  launched h := by simp [Sys.init] at h

section Steps

variable {s : Sys} {cfg : Config} {env : Env}

/-- A participant that a `Commit` prepares is in the map and in `commitOrder`. -/
theorem commit_prepare_mem (hfit : env.Fits s) {ds : String}
    (h : Event.prepare ds true ∈ (s.txn.commit cfg env).events) :
    ds ∈ s.txn.dataStoreMap.names ∧ ds ∈ env.commitOrder := by
  rcases commit_events_kind h with ⟨_, hds, _, h'⟩ | ⟨_, h'⟩ | ⟨_, _, h'⟩ | ⟨_, h'⟩ <;> cases h'
  exact ⟨hfit.order.mem_iff.1 hds, hfit.commitOrder.mem_iff.2 (hfit.order.mem_iff.1 hds)⟩

/-- Once a part `pre` of a `Commit`'s calls holds a participant `Commit` for every participant
of `commitOrder`, every participant prepared so far has had its `Commit` return, when none
had been prepared before. -/
theorem commitsReturned_of_commitOrder (hfit : env.Fits s) (hno : ∀ ds, ¬Prepared s.log ds)
    {pre : List Event} (hsub : ∀ e ∈ pre, e ∈ (s.txn.commit cfg env).events)
    (hc : ∀ ds ∈ env.commitOrder, ∃ ok, Event.commit ds ok ∈ pre) :
    CommitsReturned (s.log ++ pre.map (Actor.owner, ·)) := fun ds h => by
  rcases prepared_append.1 h with h | h
  · exact absurd h (hno ds)
  · obtain ⟨ok, hok⟩ := hc ds (commit_prepare_mem hfit (hsub _ (prepared_map.1 h))).2
    exact ⟨.owner, ok, List.mem_append_right _ (List.mem_map_of_mem _ hok)⟩

/-- A `Commit` from STARTED prepares participants of the map only, and deletes the TSR only
after the `Commit` of each of them has returned. -/
theorem deleteInv_call_commit (hi : DeleteInv s) (hfit : env.Fits s) (hs : s.txn.state = .started) :
    DeleteInv (s.call cfg env .commit) := by
  have hno : ∀ ds, ¬Prepared s.log ds := fun ds h => by
    rcases (hi.prepared ds h).2 with h' | h' <;> rw [hs] at h' <;> cases h'
  have hnd : Task.deleteTSR ∉ s.pending := fun h => by
    rcases hi.launched (.inl h) with h' | h' <;> rw [hs] at h' <;> cases h'
  have htxn : (s.txn.commit cfg env).txn.dataStoreMap = s.txn.dataStoreMap ∧
      (s.txn.commit cfg env).txn.state = .committed := by
    simp only [commit_txn, hs, if_true]
    split_ifs <;> simp
  refine ⟨hi.log.append ?_, fun h ds hds => ?_, fun ds hds => ?_, fun _ => .inl htxn.2⟩
  · exact OnlyAfter.map (commit_deleteTSR_after_commits.and_subset.mono (fun _ h => h)
      fun pre ⟨hc, hsub⟩ => commitsReturned_of_commitOrder hfit hno hsub hc)
  · rcases List.mem_append.1 h with h | h
    · exact absurd h hnd
    · exact .inl (commitsReturned_of_commitOrder hfit hno (fun _ h => h)
        (commit_deleteTSR_launched h) ds hds)
  · rcases prepared_append.1 hds with h | h
    · exact absurd h (hno ds)
    · exact ⟨htxn.1 ▸ (commit_prepare_mem hfit (prepared_map.1 h)).1, .inl htxn.2⟩

/-- A step that prepares nothing, deletes no TSR, launches no commit phase, takes a
participant's `Commit` from `pending` only when it runs, and keeps the map and a decided
state keeps the invariant. -/
theorem DeleteInv.of_frame (hi : DeleteInv s) {s' : Sys}
    (hnames : s.txn.dataStoreMap.names ⊆ s'.txn.dataStoreMap.names)
    (hdec : s.txn.state = .committed ∨ s.txn.state = .aborted →
      s'.txn.state = .committed ∨ s'.txn.state = .aborted)
    (hpend : ∀ task ∈ s'.pending, task = .deleteTSR ∨ task = .commitPhase → task ∈ s.pending)
    (hcommit : ∀ ds, Task.commit ds ∈ s.pending →
      CommitReturned s'.log ds ∨ Task.commit ds ∈ s'.pending)
    (hlog : ∃ m, s'.log = s.log ++ m ∧ ∀ x ∈ m, (∀ ds, x.2 ≠ .prepare ds true) ∧ ¬IsDeleteTSR x) :
    DeleteInv s' := by
  obtain ⟨m, hl, hm⟩ := hlog
  have hprep : ∀ ds, Prepared s'.log ds → Prepared s.log ds := fun ds h => by
    rw [hl] at h
    exact (prepared_append.1 h).resolve_right fun ⟨_, h'⟩ => (hm _ h').1 ds rfl
  refine ⟨?_, fun h ds hds => ?_, fun ds hds => ?_, fun h => hdec (hi.launched ?_)⟩
  · rw [hl]
    exact hi.log.append fun m₁ x m₂ h hx => absurd hx (hm x (by rw [h]; simp)).2
  · rcases hi.waiting (hpend _ h (.inl rfl)) ds (hprep ds hds) with h | h
    · rw [hl]
      exact .inl (h.append m)
    · exact hcommit ds h
  · obtain ⟨hn, hd⟩ := hi.prepared ds (hprep ds hds)
    exact ⟨hnames hn, hdec hd⟩
  · exact h.imp (hpend _ · (.inl rfl)) (hpend _ · (.inr rfl))

/-- The owner's call keeps the invariant: a call other than a `Commit` from STARTED
prepares nothing, deletes no TSR and launches nothing. -/
theorem deleteInv_call (hi : DeleteInv s) (hfit : env.Fits s) (c : Call) :
    DeleteInv (s.call cfg env c) := by
  by_cases hact : c = .commit ∧ s.txn.state = .started
  · obtain ⟨rfl, hs⟩ := hact
    exact deleteInv_call_commit hi hfit hs
  have hl : ∀ task ∈ (s.txn.call cfg env c).launched, False := fun _ h =>
    hact ⟨(call_launched h).1, (call_launched h).2.1⟩
  refine hi.of_frame (@call_names_tsrMaintainer s.txn cfg env c).1 (@call_decided s.txn cfg env c)
    (fun task h _ => (List.mem_append.1 h).resolve_right (hl task))
    (fun _ h => .inr (List.mem_append_left _ h)) ⟨_, rfl, fun x hx => ?_⟩
  obtain ⟨e, he, rfl⟩ := List.mem_map.1 hx
  exact ⟨fun ds h => hact (call_commit_of_mem he (by obtain rfl : e = _ := h; trivial)),
    fun ⟨id, ok, h⟩ => hact (call_commit_of_mem he (by obtain rfl : e = _ := h; trivial))⟩

/-- A launched goroutine keeps the invariant. The commit phase of `AsyncLevelTwo` launches
a `Commit` for every participant, so for every prepared one; a `DeleteTSR` runs once no
`Commit` is pending. -/
theorem deleteInv_run (hi : DeleteInv s) {i : Nat} {task : Task} (hget : s.pending[i]? = some task)
    (hready : task.Ready s) : DeleteInv (s.run env i task) := by
  have hmem : task ∈ s.pending := List.getElem?_mem hget
  cases task with
  | abort =>
    refine hi.of_frame (abort_dataStoreMap ▸ List.Subset.refl _) abort_decided
      (fun _ h _ => List.mem_of_mem_eraseIdx h)
      (fun ds h => .inr (mem_eraseIdx_of_ne hget h (by simp))) ⟨_, rfl, fun x hx => ?_⟩
    obtain ⟨e, he, rfl⟩ := List.mem_map.1 hx
    obtain ⟨-, ⟨_, rfl⟩ | ⟨_, _, rfl⟩⟩ := abort_events he <;> simp [IsDeleteTSR]
  | commitPhase =>
    refine ⟨hi.log, fun _ ds hds => .inr ?_, hi.prepared, fun _ => hi.launched (.inr hmem)⟩
    simp only [Sys.run, List.mem_append, List.mem_map, List.mem_singleton]
    exact .inl (.inr ⟨ds, (hi.prepared ds hds).1, rfl⟩)
  | commit ds =>
    refine hi.of_frame (List.Subset.refl _) id (fun _ h _ => List.mem_of_mem_eraseIdx h)
      (fun d h => ?_) ⟨_, rfl, fun x hx => ?_⟩
    · by_cases hd : d = ds
      · subst hd
        exact .inl ⟨.goroutine, _, List.mem_append_right _ (List.mem_singleton_self _)⟩
      · exact .inr (mem_eraseIdx_of_ne hget h (by simpa using hd))
    · obtain rfl := List.mem_singleton.1 hx
      simp [IsDeleteTSR]
  | deleteTSR =>
    have hw : CommitsReturned s.log := fun ds hds =>
      (hi.waiting hmem ds hds).resolve_right (hready ds)
    have hprep : ∀ ds, Prepared (s.run env i .deleteTSR).log ds → Prepared s.log ds := fun ds h =>
      (prepared_append.1 h).resolve_right (by simp [Prepared])
    exact ⟨hi.log.append_singleton fun _ => hw,
      fun _ ds hds => .inl ((hw ds (hprep ds hds)).append _),
      fun ds hds => hi.prepared ds (hprep ds hds),
      fun h => hi.launched (h.imp List.mem_of_mem_eraseIdx List.mem_of_mem_eraseIdx)⟩

/-- An owner's call that panics keeps the invariant: a `Commit` has prepared participants of
the map only, launched nothing and left COMMITTED, and an `Abort` has made no call. -/
theorem deleteInv_callPanics (hi : DeleteInv s) (hfit : env.Fits s) {c : Call}
    (hp : s.txn.Panics (s.txn.call cfg env c).events) : DeleteInv (s.callPanics cfg env c) := by
  rcases (callPanics_cases hp).2 with ⟨-, hs, htxn, hlog⟩ | ⟨-, -, htxn, hlog⟩
  · have hnd : Task.deleteTSR ∉ s.pending := fun h => by
      rcases hi.launched (.inl h) with h' | h' <;> rw [hs] at h' <;> cases h'
    refine ⟨?_, fun h => absurd h hnd, fun ds hds => ?_, fun _ => .inl (by rw [htxn])⟩
    · rw [hlog]
      refine hi.log.append fun m₁ x m₂ h ⟨id, ok, hx⟩ => ?_
      obtain ⟨d, -, rfl⟩ := List.mem_map.1 (h ▸ List.mem_append_right m₁ (List.mem_cons_self x m₂))
      cases hx
    · rw [htxn]
      rw [hlog] at hds
      rcases prepared_append.1 hds with h | ⟨a, h⟩
      · exact ⟨(hi.prepared ds h).1, .inl rfl⟩
      · obtain ⟨d, hd, heq⟩ := List.mem_map.1 h
        obtain rfl := (Event.prepare.inj (Prod.mk.inj heq).2).1
        exact ⟨hfit.order.mem_iff.1 hd, .inl rfl⟩
  · exact hi.of_frame (htxn ▸ List.Subset.refl _) (fun _ => .inr (by rw [htxn]))
      (fun _ h _ => h) (fun _ h => .inr h) ⟨[], hlog.trans (List.append_nil _).symm, nofun⟩

/-- A goroutine that panics keeps the invariant: it is an `Abort` or a `DeleteTSR`, and makes
no call. -/
theorem deleteInv_runPanics (hi : DeleteInv s) {i : Nat} {task : Task}
    (hget : s.pending[i]? = some task) (hp : s.txn.Panics (s.taskEvents env task)) :
    DeleteInv (s.runPanics env i task) := by
  have hcases := (runPanics_cases (i := i) hp).2
  have hne : ∀ ds, Task.commit ds ≠ task := by
    rcases hcases with ⟨rfl, -⟩ | ⟨rfl, -⟩ <;> simp
  have hframe : s.txn.dataStoreMap = (s.runPanics env i task).txn.dataStoreMap ∧
      (s.txn.state = .committed ∨ s.txn.state = .aborted →
        (s.runPanics env i task).txn.state = .committed ∨
          (s.runPanics env i task).txn.state = .aborted) := by
    rcases hcases with ⟨-, -, htxn⟩ | ⟨-, htxn⟩ <;> rw [htxn]
    · exact ⟨rfl, fun _ => .inr rfl⟩
    · exact ⟨rfl, id⟩
  exact hi.of_frame (hframe.1 ▸ List.Subset.refl _) hframe.2
    (fun _ h _ => List.mem_of_mem_eraseIdx h) (fun ds h => .inr (mem_eraseIdx_of_ne hget h (hne ds)))
    ⟨[], (List.append_nil s.log).symm, nofun⟩

end Steps

theorem deleteInv_reachable {cfg : Config} {s : Sys} (h : Reachable cfg s) : DeleteInv s := by
  induction h with
  | init => exact deleteInv_init
  | step _ hs ih =>
    cases hs with
    | call c env hfit => exact deleteInv_call ih hfit c
    | callPanics c env hfit hp => exact deleteInv_callPanics ih hfit hp
    | run i task env hget hready _ => exact deleteInv_run ih hget hready
    | runPanics i task env hget _ _ hp => exact deleteInv_runPanics ih hget hp
    | race _ => exact ⟨ih.log, ih.waiting, ih.prepared, ih.launched⟩

end OreoTxn
