import OreoTxn.CommitPoint
import OreoTxn.CommitPhase
import OreoTxn.Protocol

/-!
# The coordinator refines the commit protocol

`Protocol.lean` states what the coordinator is for as a rule over the calls it makes. Every
run keeps to it: the trace of every reachable state is accepted (`reachable_accepts`).

The invariant `RefineInv` carries the acceptance of the trace, together with two facts
that make the next step acceptable. Until the transaction is decided, the protocol has
recorded nothing of the trace: the owner's calls from EMPTY or STARTED are then judged as if
they were the whole trace, and a `Commit` from STARTED is accepted on its own
(`commit_accepted`): its `Prepare` calls come first, the sync point only after all of them
succeeded, a participant `Commit` only after the sync point succeeded, and the `DeleteTSR`
after every participant's `Commit`. Once the transaction is decided, the owner's calls make
only what the rule always allows: the `Abort()` from COMMITTED tells every participant
`hasCommitted`. A goroutine's `Abort` runs before the commit point (`AbortInv`), a
goroutine's participant `Commit` after it, and its `DeleteTSR` after every prepared
participant's `Commit` has returned (`DeleteInv`).

With `Protocol.accepts_not_committed_rolledBack`, no participant of a run is told both to
commit and to roll back (`commit_excludes_rollback`).
-/

namespace OreoTxn

/-- `ds` has been told to roll back in `l`: an `Abort` with `hasCommitted = false`. -/
def RolledBack (l : List (Actor × Event)) (ds : String) : Prop :=
  ∃ a ok, (a, Event.abort ds false ok) ∈ l

theorem not_undecided_of_decided {st : State} (h : st = .committed ∨ st = .aborted) :
    ¬(st = .empty ∨ st = .started) := by
  rcases h with rfl | rfl <;> simp

/-! ## The protocol's record of a trace -/

section View

variable {l : List (Actor × Event)}

/-- After `Prepare` calls only, the protocol is undecided, and no `Prepare` has failed when
all of them succeeded. -/
theorem view_of_prepares (h : ∀ x ∈ l, ∃ ds ok, x.2 = .prepare ds ok) :
    (Protocol.view l).undecided = true ∧
      ((∀ x ∈ l, ∃ ds, x.2 = .prepare ds true) → (Protocol.view l).failed = false) := by
  refine ⟨?_, fun h' => Bool.eq_false_iff.2 fun hf => ?_⟩
  · simp only [Protocol.undecided, Bool.and_eq_true, Bool.not_eq_true', List.isEmpty_iff]
    refine ⟨Bool.eq_false_iff.2 fun hp => ?_, List.eq_nil_iff_forall_not_mem.2 fun ds hds => ?_⟩
    · obtain ⟨a, id, hm⟩ := Protocol.point_view.1 hp
      obtain ⟨_, _, h''⟩ := h _ hm
      cases h''
    · obtain ⟨a, ok, hm⟩ := Protocol.mem_rolledBack_view.1 hds
      obtain ⟨_, _, h''⟩ := h _ hm
      cases h''
  · obtain ⟨a, ds, hm⟩ := Protocol.failed_view.1 hf
    obtain ⟨_, h''⟩ := h' _ hm
    cases h''

/-- The rule for `DeleteTSR` is `CommitsReturned`. -/
theorem allows_deleteTSR_view {a : Actor} {id : String} {ok : Bool} :
    (Protocol.view l).allows (a, .deleteTSR id ok) = true ↔ CommitsReturned l := by
  show (Protocol.view l).prepared.all (· ∈ (Protocol.view l).committed) = true ↔ _
  rw [List.all_eq_true]
  exact forall_congr' fun ds => imp_congr Protocol.mem_prepared_view
    (decide_eq_true_iff.trans Protocol.mem_committed_view)

end View

/-! ## The owner's calls, read by the protocol -/

section Calls

variable {s : Sys} {t : Transaction} {cfg : Config} {env : Env} {c : Call} {e : Event}

/-- A `Commit` is accepted on its own. -/
theorem commit_accepted (hfit : env.Fits s) :
    Protocol.accepts ((s.txn.commit cfg env).events.map (Actor.owner, ·)) = true := by
  have hkind : ∀ y ∈ (s.txn.commit cfg env).events, y.OfCommit := fun y hy => by
    rcases commit_events_kind hy with ⟨_, _, _, rfl⟩ | ⟨_, rfl⟩ | ⟨_, _, rfl⟩ | ⟨_, rfl⟩ <;> trivial
  refine Protocol.accepts_iff.2 fun ⟨a, e⟩ => OnlyAfter.map ?_
  cases a
  case goroutine => exact onlyAfter_of_forall_not fun y _ h => by cases h
  cases e with
  | prepare ds ok =>
    exact commit_prepares_first.mono (fun y hy => ⟨ds, ok, (Prod.mk.inj hy).2⟩)
      fun pre h => (view_of_prepares (List.forall_mem_map.2 h)).1
  | createTSR id st ok =>
    refine commit_sync_after_prepares.mono (fun y hy => ⟨id, st, ok, (Prod.mk.inj hy).2⟩)
      fun pre h => ?_
    have hp : ∀ x ∈ pre.map (Actor.owner, ·), ∃ ds, x.2 = .prepare ds true :=
      List.forall_mem_map.2 h
    obtain ⟨hu, hf⟩ := view_of_prepares fun x hx => (hp x hx).imp fun ds h => ⟨true, h⟩
    show ((Protocol.view _).undecided && !(Protocol.view _).failed) = true
    rw [hu, hf hp]
    rfl
  | commit ds ok =>
    exact commit_commits_after_sync.mono (fun y hy => ⟨ds, ok, (Prod.mk.inj hy).2⟩)
      fun pre h => Protocol.point_view.2 ⟨.owner, _, List.mem_map_of_mem _ h⟩
  | deleteTSR id ok =>
    refine commit_deleteTSR_after_commits.and_subset.mono (fun y hy => ⟨id, ok, (Prod.mk.inj hy).2⟩)
      fun pre ⟨h, hsub⟩ => allows_deleteTSR_view.2 fun d hd => ?_
    obtain ⟨ok', hok⟩ := h d (commit_prepare_mem hfit (hsub _ (prepared_map.1 hd))).2
    exact ⟨.owner, ok', List.mem_map_of_mem _ hok⟩
  | _ =>
    exact onlyAfter_of_forall_not fun y hy h => by
      obtain rfl := (Prod.mk.inj h).2
      exact (hkind _ hy : False).elim

/-- A call makes a call on a participant before the commit phase only from EMPTY or
STARTED. -/
theorem call_undecided_of_isData (he : e ∈ (t.call cfg env c).events) (hd : e.isData = true) :
    t.state = .empty ∨ t.state = .started := by
  have h := makes_of_mem_call he
  cases c with
  | start => exact .inl (start_active (List.ne_nil_of_mem he))
  | read => exact .inr (dispatch_active (List.ne_nil_of_mem he))
  | write => exact .inr (dispatch_active (List.ne_nil_of_mem he))
  | delete => exact .inr (dispatch_active (List.ne_nil_of_mem he))
  | commit => rcases h with ⟨_, _, rfl⟩ | ⟨_, _, rfl⟩ | ⟨_, _, rfl⟩ | ⟨_, _, rfl⟩ <;> cases hd
  | abort => rcases h with ⟨_, _, rfl⟩ | ⟨_, _, _, rfl⟩ <;> cases hd
  | _ => exact h.elim

/-- A call other than `Commit` and `Abort` makes only calls on participants before the
commit phase. -/
theorem call_isData (hc : c ≠ .commit) (ha : c ≠ .abort) (he : e ∈ (t.call cfg env c).events) :
    e.isData = true := by
  have h := makes_of_mem_call he
  cases c with
  | start => obtain ⟨_, _, rfl⟩ := h; rfl
  | read => obtain ⟨_, _, _, rfl⟩ := h; rfl
  | write => obtain ⟨_, _, _, rfl⟩ := h; rfl
  | delete => obtain ⟨_, _, _, rfl⟩ := h; rfl
  | commit => exact absurd rfl hc
  | abort => exact absurd rfl ha
  | _ => exact h.elim

/-- A call that leaves the transaction EMPTY or STARTED makes only calls on participants
before the commit phase. -/
theorem call_isData_of_undecided
    (hs : (t.call cfg env c).txn.state = .empty ∨ (t.call cfg env c).txn.state = .started)
    (he : e ∈ (t.call cfg env c).events) : e.isData = true := by
  by_cases hc : c = .commit
  · subst hc
    obtain ⟨hst, -⟩ := commit_active (.inl (List.ne_nil_of_mem he))
    have h : (t.commit cfg env).txn.state = .committed := by
      simp only [commit_txn, hst, if_true]
      split_ifs <;> rfl
    exact absurd hs (not_undecided_of_decided (.inl h))
  by_cases ha : c = .abort
  · subst ha
    obtain ⟨hm, -⟩ := abort_events he
    have h : (t.abort env).txn.state = .aborted := by rw [abort_txn, if_pos hm]
    exact absurd hs (not_undecided_of_decided (.inr h))
  exact call_isData hc ha he

/-- From EMPTY or STARTED, the trace of a call is accepted on its own. -/
theorem call_accepted (hs : s.txn.state = .empty ∨ s.txn.state = .started) (hfit : env.Fits s) :
    Protocol.accepts ((s.txn.call cfg env c).events.map (Actor.owner, ·)) = true := by
  by_cases hc : c = .commit
  · subst hc
    exact commit_accepted hfit
  by_cases ha : c = .abort
  · subst ha
    refine Protocol.foldlM_step_isSome_of_inv (I := fun p => p.point = false)
      (fun x hx p hp => ?_) rfl
    obtain ⟨e, he, rfl⟩ := List.mem_map.1 hx
    obtain ⟨hm, ⟨ok, rfl⟩ | ⟨ds, ok, rfl⟩⟩ := abort_events he
    · exact ⟨rfl, by simp [Protocol.record, Event.isCommitPoint, hp]⟩
    · have hnc : (s.txn.state == .committed) = false := by rcases hs with h | h <;> simp [h]
      exact ⟨by simp [Protocol.allows, hnc, hp], by simp [Protocol.record, Event.isCommitPoint, hp]⟩
  exact Protocol.foldlM_step_isSome_of_inv (I := (· = Protocol.init))
    (fun x hx p hp => by
      obtain ⟨e, he, rfl⟩ := List.mem_map.1 hx
      subst hp
      exact ⟨Protocol.init_allows_of_isData (call_isData hc ha he),
        Protocol.record_of_isData (call_isData hc ha he)⟩) rfl

/-- Once the transaction is decided, the rule allows every call of the owner: these are only
the calls of an `Abort()` from COMMITTED, which tells every participant `hasCommitted`. -/
theorem call_allowed_of_decided (hd : t.state = .committed ∨ t.state = .aborted)
    (he : e ∈ (t.call cfg env c).events) (p : Protocol) : p.allows (.owner, e) = true := by
  have hnd := not_undecided_of_decided hd
  cases e with
  | abort ds hc ok =>
    obtain ⟨-, rfl, hm⟩ := call_abort_event he
    have hs : t.state = .committed := by
      rcases canMoveTo_aborted.1 hm with h | h
      · exact absurd (.inr h) hnd
      · exact h
    simp [Protocol.allows, hs]
  | writeTSR => rfl
  | prepare => exact absurd (.inr (call_commit_of_mem he trivial).2) hnd
  | createTSR => exact absurd (.inr (call_commit_of_mem he trivial).2) hnd
  | commit => exact absurd (.inr (call_commit_of_mem he trivial).2) hnd
  | deleteTSR => exact absurd (.inr (call_commit_of_mem he trivial).2) hnd
  | _ => exact absurd (call_undecided_of_isData he rfl) hnd

end Calls

/-! ## The invariant -/

/-- What holds in every reachable state. -/
structure RefineInv (s : Sys) : Prop where
  accepts : Protocol.accepts s.log = true
  /-- Until the transaction is decided the protocol has recorded nothing of the trace. -/
  clean : s.txn.state = .empty ∨ s.txn.state = .started → Protocol.view s.log = Protocol.init
  /-- A pending commit phase or participant `Commit` was launched after the commit point. -/
  pending : Task.commitPhase ∈ s.pending ∨ (∃ ds, Task.commit ds ∈ s.pending) → CommitPoint s.log

theorem refineInv_init : RefineInv Sys.init where
  accepts := rfl
  clean _ := rfl
  pending h := by simp [Sys.init] at h

section Steps

variable {s : Sys} {cfg : Config} {env : Env}

/-- The owner's call keeps the invariant. -/
theorem refineInv_call (hi : RefineInv s) (hfit : env.Fits s) (c : Call) :
    RefineInv (s.call cfg env c) := by
  have hdec : ¬(s.txn.state = .empty ∨ s.txn.state = .started) →
      s.txn.state = .committed ∨ s.txn.state = .aborted := by
    cases s.txn.state <;> simp
  refine ⟨?_, fun hs' => ?_, fun h => ?_⟩
  · by_cases hs : s.txn.state = .empty ∨ s.txn.state = .started
    · exact (Protocol.accepts_append_of_view_eq_init (hi.clean hs)).2
        ⟨hi.accepts, call_accepted hs hfit⟩
    · refine Protocol.accepts_append_of_inv (I := fun _ => True) hi.accepts trivial
        fun x hx p _ => ⟨?_, trivial⟩
      obtain ⟨e, he, rfl⟩ := List.mem_map.1 hx
      exact call_allowed_of_decided (hdec hs) he p
  · have hs : s.txn.state = .empty ∨ s.txn.state = .started :=
      not_not.1 fun hs => not_undecided_of_decided (call_decided (hdec hs)) hs'
    show Protocol.view (s.log ++ _) = _
    rw [Protocol.view_append, hi.clean hs]
    exact Protocol.foldl_record_of_isData fun x hx => by
      obtain ⟨e, he, rfl⟩ := List.mem_map.1 hx
      exact call_isData_of_undecided hs' he
  · have hlaunch : ∀ task ∈ (s.txn.call cfg env c).launched, task = .commitPhase →
        CommitPoint (s.call cfg env c).log := by
      rintro _ hl rfl
      obtain ⟨rfl, -⟩ := call_launched hl
      exact commitPoint_append.2 (.inr (commitPoint_map.2 ⟨_, commit_commitPhase_launched hl⟩))
    rcases h with h | ⟨ds, h⟩ <;> rcases List.mem_append.1 h with h | h
    · exact (hi.pending (.inl h)).append _
    · exact hlaunch _ h rfl
    · exact (hi.pending (.inr ⟨ds, h⟩)).append _
    · obtain ⟨rfl, -⟩ := call_launched h
      rcases commit_launched_kind h with h' | h' | h' <;> cases h'

/-- A launched goroutine keeps the invariant. -/
theorem refineInv_run (hi : RefineInv s) (ha : AbortInv s) (hdel : DeleteInv s) {i : Nat}
    {task : Task} (hget : s.pending[i]? = some task) (hready : task.Ready s) :
    RefineInv (s.run env i task) := by
  have hmem : task ∈ s.pending := List.getElem?_mem hget
  have herase : ∀ {p : Task → Prop}, (∃ task, p task ∧ task ∈ s.pending.eraseIdx i) →
      ∃ task, p task ∧ task ∈ s.pending :=
    fun ⟨task, hp, h⟩ => ⟨task, hp, List.mem_of_mem_eraseIdx h⟩
  cases task with
  | abort =>
    have hnp : ¬CommitPoint s.log := fun h => (ha.point h).1 hmem
    refine ⟨Protocol.accepts_append_of_inv (I := fun p => p.point = false) hi.accepts
      (Bool.eq_false_iff.2 (mt Protocol.point_view.1 hnp)) fun x hx p hp => ?_,
      fun hs' => absurd hs' (not_undecided_of_decided (abort_decided (ha.pending hmem))),
      fun h => (hi.pending ?_).append _⟩
    · obtain ⟨e, he, rfl⟩ := List.mem_map.1 hx
      obtain ⟨-, ⟨ok, rfl⟩ | ⟨ds, ok, rfl⟩⟩ := abort_events he <;>
        exact ⟨by simp [Protocol.allows, hp], by simp [Protocol.record, Event.isCommitPoint, hp]⟩
    · exact h.imp List.mem_of_mem_eraseIdx fun ⟨ds, h⟩ => ⟨ds, List.mem_of_mem_eraseIdx h⟩
  | commitPhase => exact ⟨hi.accepts, hi.clean, fun _ => hi.pending (.inl hmem)⟩
  | commit ds =>
    have hcp := hi.pending (.inr ⟨ds, hmem⟩)
    exact ⟨Protocol.accepts_append_singleton.2 ⟨hi.accepts, Protocol.point_view.2 hcp⟩,
      fun hs' => absurd hs' (not_undecided_of_decided (ha.point hcp).2), fun _ => hcp.append _⟩
  | deleteTSR =>
    have hw : CommitsReturned s.log := fun ds hds =>
      (hdel.waiting hmem ds hds).resolve_right (hready ds)
    refine ⟨Protocol.accepts_append_singleton.2 ⟨hi.accepts, allows_deleteTSR_view.2 hw⟩,
      fun hs' => absurd hs' (not_undecided_of_decided (hdel.launched (.inl hmem))),
      fun h => (hi.pending ?_).append _⟩
    exact h.imp List.mem_of_mem_eraseIdx fun ⟨ds, h⟩ => ⟨ds, List.mem_of_mem_eraseIdx h⟩

/-- A step that makes no call, leaves the state as it was or decided, and keeps only pending
goroutines keeps the invariant. -/
theorem RefineInv.of_silent (hi : RefineInv s) {s' : Sys} (hlog : s'.log = s.log)
    (hst : s'.txn.state = s.txn.state ∨ s'.txn.state = .committed ∨ s'.txn.state = .aborted)
    (hpend : ∀ task ∈ s'.pending, task ∈ s.pending) : RefineInv s' := by
  refine ⟨hlog ▸ hi.accepts, fun hs' => ?_, fun h => hlog ▸ hi.pending ?_⟩
  · rcases hst with h | h
    · exact hlog ▸ hi.clean (h ▸ hs')
    · exact absurd hs' (not_undecided_of_decided h)
  · exact h.imp (hpend _) fun ⟨ds, h⟩ => ⟨ds, hpend _ h⟩

/-- An owner's call that panics keeps the invariant: a `Commit` from STARTED has only made
its `Prepare`s, which the protocol allows while undecided, and an `Abort` no call. -/
theorem refineInv_callPanics (hi : RefineInv s) {c : Call}
    (hp : s.txn.Panics (s.txn.call cfg env c).events) : RefineInv (s.callPanics cfg env c) := by
  rcases (callPanics_cases hp).2 with ⟨-, hs, htxn, hlog⟩ | ⟨-, -, htxn, hlog⟩
  · have hdec : ¬((s.callPanics cfg env c).txn.state = .empty ∨
        (s.callPanics cfg env c).txn.state = .started) := by rw [htxn]; simp
    refine ⟨?_, fun h => absurd h hdec, fun h => ?_⟩
    · rw [hlog]
      refine Protocol.accepts_append_of_inv (I := fun p => p.undecided = true) hi.accepts
        (by rw [hi.clean (.inr hs)]; rfl) fun x hx p hp => ?_
      obtain ⟨ds, -, rfl⟩ := List.mem_map.1 hx
      exact ⟨hp, by simpa [Protocol.record, Protocol.undecided, Event.isCommitPoint,
        Event.rolledBackDs] using hp⟩
    · exact (commitPoint_callPanics hp).2 (hi.pending h)
  · exact hi.of_silent hlog (.inr (.inr (by rw [htxn]))) fun _ h => h

/-- A goroutine that panics keeps the invariant: it makes no call. -/
theorem refineInv_runPanics (hi : RefineInv s) {i : Nat} {task : Task}
    (hp : s.txn.Panics (s.taskEvents env task)) : RefineInv (s.runPanics env i task) := by
  refine hi.of_silent rfl ?_ fun _ h => List.mem_of_mem_eraseIdx h
  rcases (runPanics_cases (i := i) hp).2 with ⟨-, -, htxn⟩ | ⟨-, htxn⟩ <;> rw [htxn]
  · exact .inr (.inr rfl)
  · exact .inl rfl

end Steps

theorem refineInv_reachable {cfg : Config} {s : Sys} (h : Reachable cfg s) : RefineInv s := by
  induction h with
  | init => exact refineInv_init
  | step hr hs ih =>
    cases hs with
    | call c env hfit => exact refineInv_call ih hfit c
    | callPanics c env _ hp => exact refineInv_callPanics ih hp
    | run i task env hget hready _ =>
      exact refineInv_run ih (abortInv_reachable hr) (deleteInv_reachable hr) hget hready
    | runPanics i task env _ _ _ hp => exact refineInv_runPanics ih hp
    | race _ => exact ⟨ih.accepts, ih.clean, ih.pending⟩

/-! ## Runs keep to the protocol -/

/-- The trace of every run is accepted by the commit protocol. -/
theorem reachable_accepts {cfg : Config} {s : Sys} (h : Reachable cfg s) :
    Protocol.accepts s.log = true :=
  (refineInv_reachable h).accepts

theorem reachable_accepts_committed :
    Protocol.accepts
      ((writingRun ⟨.default, .zero⟩).call ⟨.default, .zero⟩ (Env.nil ["r"]) .commit).log = true :=
  reachable_accepts
    ((reachable_writingRun _).step (.call .commit _ ⟨.refl _, .refl _, fun _ => rfl⟩
      (not_panics_of_isSome (by rfl) _)))

/-- No participant is both told to commit and told to roll back. -/
theorem commit_excludes_rollback {cfg : Config} {s : Sys} (h : Reachable cfg s) (ds : String) :
    ¬(CommitReturned s.log ds ∧ RolledBack s.log ds) := fun ⟨hc, hr⟩ =>
  Protocol.accepts_not_committed_rolledBack (refineInv_reachable h).accepts ds
    ⟨Protocol.mem_committed_view.2 hc, Protocol.mem_rolledBack_view.2 hr⟩

theorem commit_excludes_rollback_committed :
    ¬(CommitReturned ((writingRun ⟨.default, .zero⟩).call ⟨.default, .zero⟩ (Env.nil ["r"]) .commit).log "r" ∧
      RolledBack ((writingRun ⟨.default, .zero⟩).call ⟨.default, .zero⟩ (Env.nil ["r"]) .commit).log "r") :=
  commit_excludes_rollback
    ((reachable_writingRun _).step (.call .commit _ ⟨.refl _, .refl _, fun _ => rfl⟩
      (not_panics_of_isSome (by rfl) _))) "r"

end OreoTxn
