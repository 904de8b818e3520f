import OreoTxn.Run

/-!
# Each participant commits once

A participant's `Commit()` is called at most once in a run, whatever the `AsyncLevel` and
the order in which the goroutines run (`participant_commit_at_most_once`). At levels 0 and 1
`Commit` makes the calls itself, over `commitOrder`, a permutation of the participants; at
level 2 the commit phase launches one goroutine per participant. Only one `Commit` gets past
its state check, so at most one commit phase is ever launched.

`CommitOnceInv` counts the calls made and those owed together: the participants committed in
the trace and those the pending `Commit()` goroutines are for form a list without
repetition, and while the commit phase is pending both are empty.
-/

namespace OreoTxn

/-! ## Committed and owed participants -/

/-- The participant a `Commit()` call is made on. -/
def Event.commitOf : Event → Option String
  | .commit ds _ => some ds
  | _ => none

/-- The participant a pending `Commit()` goroutine is for. -/
def Task.commitOf : Task → Option String
  | .commit ds => some ds
  | _ => none

/-- The participants committed in a trace, in order. -/
def committedIn (l : List (Actor × Event)) : List String :=
  l.filterMap fun x => x.2.commitOf

/-- The participants the pending goroutines owe a `Commit()`. -/
def owedCommits (pending : List Task) : List String :=
  pending.filterMap Task.commitOf

@[simp] theorem committedIn_append (l m : List (Actor × Event)) :
    committedIn (l ++ m) = committedIn l ++ committedIn m :=
  List.filterMap_append ..

@[simp] theorem committedIn_map (a : Actor) (es : List Event) :
    committedIn (es.map (a, ·)) = es.filterMap Event.commitOf := by
  simp [committedIn, List.filterMap_map, Function.comp_def]

@[simp] theorem owedCommits_append (l m : List Task) :
    owedCommits (l ++ m) = owedCommits l ++ owedCommits m :=
  List.filterMap_append ..

/-- Taking the goroutine at `i` out of `pending` takes its participant out of the owed ones. -/
theorem owedCommits_eraseIdx {pending : List Task} {i : Nat} {task : Task}
    (h : pending[i]? = some task) :
    (owedCommits pending).Perm (task.commitOf.toList ++ owedCommits (pending.eraseIdx i)) := by
  have := (perm_cons_eraseIdx h).filterMap Task.commitOf
  cases hc : task.commitOf <;> simpa [owedCommits, List.filterMap_cons, hc] using this

/-- Taking the goroutine at `i` out of `pending` takes one commit phase out when it is one. -/
theorem count_commitPhase_eraseIdx {pending : List Task} {i : Nat} {task : Task}
    (h : pending[i]? = some task) : pending.count .commitPhase =
      (pending.eraseIdx i).count .commitPhase + if task = .commitPhase then 1 else 0 := by
  rw [(perm_cons_eraseIdx h).count_eq, List.count_cons]
  simp

/-! ## The calls of the owner -/

section Calls

variable {t : Transaction} {cfg : Config} {env : Env} {c : Call}

/-- The participants a `Commit` calls `Commit()` on itself: none, or those of `commitOrder`
when its sync point succeeded and it does not leave them to the commit phase. -/
theorem commit_committed :
    (t.commit cfg env).events.filterMap Event.commitOf = [] ∨
      (t.commit cfg env).events.filterMap Event.commitOf = env.commitOrder ∧
        Task.commitPhase ∉ (t.commit cfg env).launched := by
  by_cases hsync : Event.createTSR t.txnId .committed true ∈ (t.commit cfg env).events
  · obtain ⟨t', ht⟩ := commit_synced hsync
    rw [ht]
    cases cfg.asyncLevel <;>
      simp [commitDatastores, List.filterMap_map, Function.comp_def, Event.commitOf]
  · refine .inl (List.filterMap_eq_nil_iff.2 fun e he => ?_)
    cases e <;> first | rfl | exact absurd he ((commit_unsynced hsync).1 _ _)

/-- Only a `Commit` from STARTED calls `Commit()` on participants, on those of `commitOrder`,
and it then launches no commit phase. -/
theorem call_committed :
    (t.call cfg env c).events.filterMap Event.commitOf = [] ∨
      c = .commit ∧ t.state = .started ∧
      (t.call cfg env c).events.filterMap Event.commitOf = env.commitOrder ∧
      Task.commitPhase ∉ (t.call cfg env c).launched := by
  by_cases h : (t.call cfg env c).events.filterMap Event.commitOf = []
  · exact .inl h
  obtain ⟨e, he, hne⟩ := not_forall₂.1 (mt List.filterMap_eq_nil_iff.2 h)
  cases e <;> simp only [Event.commitOf, not_true_eq_false] at hne
  obtain ⟨rfl, hs⟩ := call_commit_of_mem he trivial
  exact .inr ⟨rfl, hs, (commit_committed.resolve_left h)⟩

end Calls

/-! ## The invariant -/

/-- What holds in every reachable state. -/
structure CommitOnceInv (s : Sys) : Prop where
  /-- No participant is committed twice, committed and owed a `Commit()`, or owed two. -/
  nodup : (committedIn s.log ++ owedCommits s.pending).Nodup
  /-- While the commit phase is pending it is the only one, and no `Commit()` has been made
  or is owed. -/
  phase : Task.commitPhase ∈ s.pending →
    s.pending.count .commitPhase = 1 ∧ committedIn s.log = [] ∧ owedCommits s.pending = []
  /-- Once a `Commit()` has been made or is owed, or the commit phase is pending, the
  transaction has left STARTED. -/
  decided : Task.commitPhase ∈ s.pending ∨ committedIn s.log ++ owedCommits s.pending ≠ [] →
    s.txn.state = .committed ∨ s.txn.state = .aborted

theorem commitOnceInv_init : CommitOnceInv Sys.init where
  nodup := by simp [Sys.init, committedIn, owedCommits]
  phase h := by simp [Sys.init] at h
  decided h := by simp [Sys.init, committedIn, owedCommits] at h

section Steps

variable {s : Sys} {cfg : Config} {env : Env}

/-- A step that commits no participant, owes the same ones, keeps the number of commit
phases pending, and keeps a decided state keeps the invariant. -/
theorem CommitOnceInv.of_frame (hi : CommitOnceInv s) {s' : Sys}
    (hlog : committedIn s'.log = committedIn s.log)
    (howed : (owedCommits s'.pending).Perm (owedCommits s.pending))
    (hphase : s'.pending.count .commitPhase = s.pending.count .commitPhase)
    (hdec : s.txn.state = .committed ∨ s.txn.state = .aborted →
      s'.txn.state = .committed ∨ s'.txn.state = .aborted) :
    CommitOnceInv s' := by
  have hmem : Task.commitPhase ∈ s'.pending ↔ Task.commitPhase ∈ s.pending := by
    rw [← List.count_pos_iff, hphase, List.count_pos_iff]
  have hall : (committedIn s'.log ++ owedCommits s'.pending).Perm
      (committedIn s.log ++ owedCommits s.pending) := hlog ▸ howed.append_left _
  refine ⟨hall.nodup_iff.2 hi.nodup, fun h => ?_, fun h => hdec (hi.decided ?_)⟩
  · obtain ⟨hc, hl, ho⟩ := hi.phase (hmem.1 h)
    exact ⟨hphase.trans hc, hlog.trans hl, List.Perm.eq_nil (ho ▸ howed)⟩
  · refine h.imp hmem.1 fun hne hnil => hne ?_
    exact List.Perm.eq_nil (hnil ▸ hall)

/-- The owner's call keeps the invariant: only a `Commit` from STARTED commits participants
or launches goroutines, when none has been committed or owed and no commit phase is
pending, and it calls `Commit()` once on each participant of `commitOrder` or launches the
one commit phase. -/
theorem commitOnceInv_call (hi : CommitOnceInv s) (hfit : env.Fits s) (c : Call) :
    CommitOnceInv (s.call cfg env c) := by
  by_cases hact : c = .commit ∧ s.txn.state = .started
  · obtain ⟨rfl, hs⟩ := hact
    have hdec : ¬(s.txn.state = .committed ∨ s.txn.state = .aborted) := by rw [hs]; simp
    have hph : Task.commitPhase ∉ s.pending := fun h => hdec (hi.decided (.inl h))
    have hnil : committedIn s.log ++ owedCommits s.pending = [] :=
      Classical.byContradiction fun h => hdec (hi.decided (.inr h))
    rw [List.append_eq_nil] at hnil
    have howed : owedCommits (s.txn.commit cfg env).launched = [] :=
      List.filterMap_eq_nil_iff.2 fun _ h => by
        rcases commit_launched_kind h with rfl | rfl | rfl <;> rfl
    have hst : (s.txn.commit cfg env).txn.state = .committed := by
      simp only [commit_txn, hs, if_true]
      split_ifs <;> rfl
    have hlog : committedIn (s.call cfg env .commit).log =
        (s.txn.commit cfg env).events.filterMap Event.commitOf := by
      simp [Sys.call, Transaction.call, hnil.1]
    have hown : owedCommits (s.call cfg env .commit).pending = [] := by
      simp [Sys.call, Transaction.call, hnil.2, howed]
    refine ⟨?_, fun h => ?_, fun _ => .inl hst⟩
    · rw [hlog, hown, List.append_nil]
      rcases @commit_committed s.txn cfg env with h | ⟨h, -⟩ <;> rw [h]
      · exact List.nodup_nil
      · exact hfit.commitOrder.nodup_iff.2 s.txn.dataStoreMap.nodup
    · have hl : Task.commitPhase ∈ (s.txn.commit cfg env).launched :=
        (List.mem_append.1 h).resolve_left hph
      refine ⟨?_, hlog.trans (commit_committed.resolve_right fun ⟨_, h'⟩ => h' hl), hown⟩
      simp only [Sys.call, Transaction.call, List.count_append, List.count_eq_zero_of_not_mem hph,
        zero_add]
      exact le_antisymm ((List.count_le_length _ _).trans commit_launched_length)
        (List.count_pos_iff.2 hl)
  · have hnone : (s.txn.call cfg env c).events.filterMap Event.commitOf = [] :=
      call_committed.resolve_right fun ⟨hc, hs, _⟩ => hact ⟨hc, hs⟩
    have hl : (s.txn.call cfg env c).launched = [] := List.eq_nil_iff_forall_not_mem.2
      fun _ h => hact ⟨(call_launched h).1, (call_launched h).2.1⟩
    exact hi.of_frame (by simp [Sys.call, hnone]) (by simp [Sys.call, hl])
      (by simp [Sys.call, hl]) call_decided

/-- A launched goroutine keeps the invariant. The commit phase, the only one pending, owes
each participant one `Commit()`; a participant's `Commit()` goroutine turns what it owes
into a call made. -/
theorem commitOnceInv_run (hi : CommitOnceInv s) {i : Nat} {task : Task}
    (hget : s.pending[i]? = some task) : CommitOnceInv (s.run env i task) := by
  have hmem : task ∈ s.pending := List.getElem?_mem hget
  have howed := owedCommits_eraseIdx hget
  have hcount := count_commitPhase_eraseIdx hget
  cases task with
  | abort =>
    refine hi.of_frame ?_ (by simpa [Sys.run, Task.commitOf] using howed.symm)
      (by simpa [Sys.run] using hcount.symm) abort_decided
    simp only [Sys.run, committedIn_append, committedIn_map, List.append_right_eq_self]
    exact List.filterMap_eq_nil_iff.2 fun e he => by
      obtain ⟨-, ⟨_, rfl⟩ | ⟨_, _, rfl⟩⟩ := abort_events he <;> rfl
  | deleteTSR =>
    exact hi.of_frame (by simp [Sys.run, committedIn, Event.commitOf])
      (by simpa [Sys.run, Task.commitOf] using howed.symm) (by simpa [Sys.run] using hcount.symm) id
  | commitPhase =>
    obtain ⟨hc, hl, ho⟩ := hi.phase hmem
    have hrest : owedCommits (s.pending.eraseIdx i) = [] :=
      List.Perm.eq_nil (by simpa [Task.commitOf, ho] using howed.symm)
    have hnone : Task.commitPhase ∉ s.pending.eraseIdx i := by
      rw [← List.count_pos_iff]
      simp only [if_true] at hcount
      omega
    have hnames : owedCommits (s.txn.dataStoreMap.names.map Task.commit) =
        s.txn.dataStoreMap.names := by
      simp [owedCommits, List.filterMap_map, Function.comp_def, Task.commitOf]
    refine ⟨?_, fun h => ?_, fun _ => hi.decided (.inl hmem)⟩
    · have hdel : owedCommits [Task.deleteTSR] = [] := rfl
      simpa [Sys.run, hl, hrest, hnames, hdel] using s.txn.dataStoreMap.nodup
    · simp [Sys.run, hnone] at h
  | commit ds =>
    have hds : ds ∈ owedCommits s.pending := List.mem_filterMap.2 ⟨_, hmem, rfl⟩
    have hperm : (committedIn s.log ++ [ds] ++ owedCommits (s.pending.eraseIdx i)).Perm
        (committedIn s.log ++ owedCommits s.pending) := by
      rw [List.append_assoc]
      exact howed.symm.append_left _
    refine ⟨?_, fun h => ?_, fun _ => hi.decided (.inr (List.ne_nil_of_mem
      (List.mem_append_right _ hds)))⟩
    · simpa [Sys.run, committedIn, Event.commitOf] using hperm.nodup_iff.2 hi.nodup
    · exact absurd hds (by rw [(hi.phase (List.mem_of_mem_eraseIdx h)).2.2]; simp)

/-- An owner's call that panics keeps the invariant: it commits no participant, launches
nothing, and leaves COMMITTED or ABORTED. -/
theorem commitOnceInv_callPanics (hi : CommitOnceInv s) {c : Call}
    (hp : s.txn.Panics (s.txn.call cfg env c).events) : CommitOnceInv (s.callPanics cfg env c) := by
  rcases (callPanics_cases hp).2 with ⟨-, -, htxn, hlog⟩ | ⟨-, -, htxn, hlog⟩ <;>
    refine hi.of_frame ?_ (.refl _) rfl fun _ => by rw [htxn]; simp
  · rw [hlog, committedIn_append, List.append_right_eq_self]
    exact List.filterMap_eq_nil_iff.2 fun x hx => by obtain ⟨_, -, rfl⟩ := List.mem_map.1 hx; rfl
  · rw [hlog]

/-- A goroutine that panics keeps the invariant: it is an `Abort` or a `DeleteTSR`, and
commits no participant. -/
theorem commitOnceInv_runPanics (hi : CommitOnceInv s) {i : Nat} {task : Task}
    (hget : s.pending[i]? = some task) (hp : s.txn.Panics (s.taskEvents env task)) :
    CommitOnceInv (s.runPanics env i task) := by
  have howed := owedCommits_eraseIdx hget
  have hcount := count_commitPhase_eraseIdx hget
  rcases (runPanics_cases (i := i) hp).2 with ⟨rfl, -, htxn⟩ | ⟨rfl, htxn⟩ <;>
    refine hi.of_frame rfl (by simpa [Task.commitOf] using howed.symm)
      (by simpa using hcount.symm) ?_ <;> rw [htxn]
  · exact fun _ => .inr rfl
  · exact id

end Steps

theorem commitOnceInv_reachable {cfg : Config} {s : Sys} (h : Reachable cfg s) :
    CommitOnceInv s := by
  induction h with
  | init => exact commitOnceInv_init
  | step _ hs ih =>
    cases hs with
    | call c env hfit => exact commitOnceInv_call ih hfit c
    | callPanics c env _ hp => exact commitOnceInv_callPanics ih hp
    | run i task env hget _ _ => exact commitOnceInv_run ih hget
    | runPanics i task env hget _ _ hp => exact commitOnceInv_runPanics ih hget hp
    | race _ => exact ⟨ih.nodup, ih.phase, ih.decided⟩

/-! ## Each participant's `Commit()` once -/

/-- In every run, under every `AsyncLevel` and every order of the goroutines, no
participant has its `Commit()` called twice. -/
theorem participant_commit_at_most_once {cfg : Config} {s : Sys} (h : Reachable cfg s) :
    (committedIn s.log).Nodup :=
  (commitOnceInv_reachable h).nodup.sublist (List.sublist_append_left _ _)

/-- At `AsyncLevelTwo`, `Commit` launches the commit phase, which launches the `Commit()` of
the participant, which runs. -/
theorem participant_commit_at_most_once_two :
    let env : Env := { Env.nil ["r"] with createTSR := some "exists" }
    let s := (((writingRun ⟨.default, .two⟩).call ⟨.default, .two⟩ (Env.nil ["r"]) .commit).run
      env 0 .commitPhase).run env 0 (.commit "r")
    Reachable ⟨.default, .two⟩ s ∧ committedIn s.log = ["r"] ∧ (committedIn s.log).Nodup := by
  intro env s
  have hr : Reachable ⟨.default, .two⟩ s :=
    (((reachable_writingRun ⟨.default, .two⟩).step
      (.call .commit (Env.nil ["r"]) ⟨.refl _, .refl _, fun _ => rfl⟩
        (not_panics_of_isSome (by rfl) _))).step
      (.run 0 .commitPhase env rfl trivial ⟨.refl _, .refl _, nofun⟩
        (not_panics_of_isSome (by rfl) _))).step
      (.run 0 (.commit "r") env rfl trivial ⟨.refl _, .refl _, nofun⟩
        (not_panics_of_isSome (by rfl) _))
  exact ⟨hr, rfl, participant_commit_at_most_once hr⟩

end OreoTxn
