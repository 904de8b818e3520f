import OreoTxn.Run

/-!
# The commit point

The sync point `CreateTSR(TxnId, COMMITTED)` of `Commit` is the commit point: once it has
succeeded in a run (`CommitPoint`), the decision is taken. No `go t.Abort()` is pending
then, and none is launched later: `Commit` launches one only when its prepare phase or its
sync point fails, and only one `Commit` gets past its state check (`AbortInv`, which holds
in every reachable state, `abortInv_reachable`).

The owner's own `Abort()` is another matter. The state machine accepts COMMITTED →
ABORTED, which the launched `Abort` needs, whoever asks. `CreateTSR` went through a global
datastore, which stays set (`tsrMaintainer_of_commitPoint`), so from every reachable state
past the commit point in which the transaction is COMMITTED, the owner's `Abort()` runs to
its end: it writes the TSR ABORTED and calls `Abort` on every participant
(`owner_abort_accepted_after_commit_point`).

`Commit` moves the transaction to COMMITTED before it prepares, so a launched `Abort` always
tells the participants `hasCommitted = true` (`goroutine_abort_hasCommitted`), also when the
prepare phase failed and no sync point was made.

The owner is told what the run did (`commit_answer_agrees`): the one `Commit` that gets past
its state check returns `nil` exactly when the commit point is reached or the transaction is
read-only, and one that returned an error never sees the commit point afterwards
(`VerdictInv`).
-/

namespace OreoTxn

/-! ## The commit point in a trace -/

/-- The sync point has succeeded in the trace `l`. -/
def CommitPoint (l : List (Actor × Event)) : Prop :=
  ∃ a id, (a, Event.createTSR id .committed true) ∈ l

/-- A `WriteTSR(TxnId, ABORTED)` made by a goroutine. -/
def AsyncAbortTSR (x : Actor × Event) : Prop :=
  x.1 = .goroutine ∧ ∃ id ok, x.2 = .writeTSR id .aborted ok

/-- A participant `Abort` made by a goroutine, or told that the transaction had not
committed. -/
def UncommittedAbort (x : Actor × Event) : Prop :=
  ∃ ds hc ok, x.2 = .abort ds hc ok ∧ (x.1 = .goroutine ∨ hc = false)

theorem commitPoint_append {l m : List (Actor × Event)} :
    CommitPoint (l ++ m) ↔ CommitPoint l ∨ CommitPoint m := by
  simp only [CommitPoint, List.mem_append, exists_or]

theorem CommitPoint.append {l : List (Actor × Event)} (h : CommitPoint l)
    (m : List (Actor × Event)) :
    CommitPoint (l ++ m) :=
  commitPoint_append.2 (.inl h)

theorem commitPoint_map {a : Actor} {es : List Event} :
    CommitPoint (es.map (a, ·)) ↔ ∃ id, Event.createTSR id .committed true ∈ es := by
  simp [CommitPoint]

/-- An owner's call that panics reaches no commit point: it stops at `CreateTSR`. -/
theorem commitPoint_callPanics {s : Sys} {cfg : Config} {env : Env} {c : Call}
    (hp : s.txn.Panics (s.txn.call cfg env c).events) :
    CommitPoint (s.callPanics cfg env c).log ↔ CommitPoint s.log := by
  rcases (callPanics_cases hp).2 with ⟨-, -, -, hlog⟩ | ⟨-, -, -, hlog⟩ <;> rw [hlog]
  exact commitPoint_append.trans (or_iff_left fun ⟨_, _, h⟩ => by simp at h)

/-- A trace extended by `m` keeps a law that forbids `q` after the commit point when every
`q`-element of `m` comes while neither the trace nor `m` has reached it. -/
theorem OnlyAfter.append_before_commitPoint {q : Actor × Event → Prop}
    {l m : List (Actor × Event)} (hl : OnlyAfter q (fun pre => ¬CommitPoint pre) l)
    (hm : (∃ x ∈ m, q x) → ¬CommitPoint l ∧ ¬CommitPoint m) :
    OnlyAfter q (fun pre => ¬CommitPoint pre) (l ++ m) :=
  hl.append fun m₁ x m₂ h hq => by
    subst h
    obtain ⟨hl', hm'⟩ := hm ⟨x, by simp, hq⟩
    simp only [commitPoint_append, not_or] at hm' ⊢
    exact ⟨hl', hm'.1⟩

/-! ## The invariant -/

/-- What holds in every reachable state. -/
structure AbortInv (s : Sys) : Prop where
  /-- A pending `Abort` was launched by a `Commit`, which left STARTED. -/
  pending : Task.abort ∈ s.pending → s.txn.state = .committed ∨ s.txn.state = .aborted
  /-- After the commit point no `Abort` is pending and the transaction has left STARTED. -/
  point : CommitPoint s.log →
    Task.abort ∉ s.pending ∧ (s.txn.state = .committed ∨ s.txn.state = .aborted)
  tsr : OnlyAfter AsyncAbortTSR (fun pre => ¬CommitPoint pre) s.log
  participants : OnlyAfter UncommittedAbort (fun pre => ¬CommitPoint pre) s.log

theorem abortInv_init : AbortInv Sys.init where
  pending h := by simp [Sys.init] at h
  point h := by simp [Sys.init, CommitPoint] at h
  tsr := onlyAfter_of_forall_not (by simp [Sys.init])
  participants := onlyAfter_of_forall_not (by simp [Sys.init])

section Steps

variable {s : Sys} {cfg : Config} {env : Env}

/-- A step that keeps a decided state, launches no `Abort`, and logs only `Prepare`s,
participant `Commit`s and `DeleteTSR`s keeps the invariant. -/
theorem AbortInv.of_quiet (hi : AbortInv s) {s' : Sys}
    (hdec : s.txn.state = .committed ∨ s.txn.state = .aborted →
      s'.txn.state = .committed ∨ s'.txn.state = .aborted)
    (hpend : Task.abort ∈ s'.pending → Task.abort ∈ s.pending)
    (hlog : ∃ m, s'.log = s.log ++ m ∧ ∀ x ∈ m, ∃ ds ok,
      x.2 = .prepare ds ok ∨ x.2 = .commit ds ok ∨ x.2 = .deleteTSR ds ok) :
    AbortInv s' := by
  obtain ⟨m, hl, hm⟩ := hlog
  have hq : ∀ {q : Actor × Event → Prop}, (∀ x ∈ m, ¬q x) →
      OnlyAfter q (fun pre => ¬CommitPoint pre) s.log →
      OnlyAfter q (fun pre => ¬CommitPoint pre) s'.log := fun hn h => by
    rw [hl]
    exact h.append_before_commitPoint fun ⟨x, hx, hqx⟩ => absurd hqx (hn x hx)
  have hnp : ¬CommitPoint m := fun ⟨a, id, h⟩ => by
    obtain ⟨ds, ok, h' | h' | h'⟩ := hm _ h <;> cases h'
  refine ⟨fun h => hdec (hi.pending (hpend h)), fun h => ?_, hq ?_ hi.tsr, hq ?_ hi.participants⟩
  · rw [hl, commitPoint_append, or_iff_left hnp] at h
    exact ⟨mt hpend (hi.point h).1, hdec (hi.point h).2⟩
  · rintro x hx ⟨-, id, ok, h⟩
    obtain ⟨ds, ok, h' | h' | h'⟩ := hm x hx <;> rw [h] at h' <;> cases h'
  · rintro x hx ⟨ds, hc, ok, h, -⟩
    obtain ⟨ds, ok, h' | h' | h'⟩ := hm x hx <;> rw [h] at h' <;> cases h'

/-- The owner's call keeps the invariant: only `Commit` from STARTED launches an `Abort` or
makes the sync point, and only `Abort` from STARTED tells a participant that the
transaction had not committed. -/
theorem abortInv_call (hi : AbortInv s) (c : Call) : AbortInv (s.call cfg env c) := by
  have hcp : CommitPoint ((s.txn.call cfg env c).events.map (Actor.owner, ·)) →
      c = .commit ∧ s.txn.state = .started ∧ Task.abort ∉ (s.txn.call cfg env c).launched ∧
        (s.txn.call cfg env c).txn.state = .committed := by
    rw [commitPoint_map]
    rintro ⟨id, h⟩
    exact call_commitPoint h
  have hnot : ¬(s.txn.state = .committed ∨ s.txn.state = .aborted) ↔ s.txn.state = .started ∨
      s.txn.state = .empty := by
    cases s.txn.state <;> simp
  refine ⟨fun h => ?_, fun h => ?_, ?_, ?_⟩
  · rcases List.mem_append.1 h with h | h
    · exact call_decided (hi.pending h)
    · exact .inl (call_launched h).2.2
  · rcases commitPoint_append.1 h with h | h
    · obtain ⟨hp, hd⟩ := hi.point h
      refine ⟨fun hl => ?_, call_decided hd⟩
      rcases List.mem_append.1 hl with hl | hl
      · exact hp hl
      · exact hnot.2 (.inl (call_launched hl).2.1) hd
    · obtain ⟨-, hs, hl, hc⟩ := hcp h
      refine ⟨fun hp => ?_, .inl hc⟩
      rcases List.mem_append.1 hp with hp | hp
      · exact hnot.2 (.inl hs) (hi.pending hp)
      · exact hl hp
  · refine hi.tsr.append_before_commitPoint fun ⟨x, hx, hq⟩ => ?_
    obtain ⟨e, -, rfl⟩ := List.mem_map.1 hx
    cases hq.1
  · refine hi.participants.append_before_commitPoint fun ⟨x, hx, hq⟩ => ?_
    obtain ⟨e, he, rfl⟩ := List.mem_map.1 hx
    obtain ⟨ds, hc, ok, rfl, hown⟩ := hq
    obtain rfl : hc = false := by simpa using hown
    obtain ⟨hab, hhc, hm⟩ := call_abort_event he
    have hs : s.txn.state = .started := by
      rcases canMoveTo_aborted.1 hm with h | h
      · exact h
      · simp [h] at hhc
    exact ⟨fun h => hnot.2 (.inl hs) (hi.point h).2, fun h => by simp [(hcp h).1] at hab⟩

/-- A launched goroutine keeps the invariant. A pending `Abort` means that the commit point
has not been reached, and `Abort` does not make it. -/
theorem abortInv_run (hi : AbortInv s) {i : Nat} {task : Task} (hget : s.pending[i]? = some task) :
    AbortInv (s.run env i task) := by
  have hmem : task ∈ s.pending := List.getElem?_mem hget
  cases task with
  | abort =>
    have hnp : ¬CommitPoint s.log := fun h => (hi.point h).1 hmem
    have hev : ¬CommitPoint ((s.txn.abort env).events.map (Actor.goroutine, ·)) := by
      rw [commitPoint_map]
      rintro ⟨id, h⟩
      obtain ⟨-, ⟨_, h'⟩ | ⟨_, _, h'⟩⟩ := abort_events h <;> cases h'
    exact ⟨fun _ => abort_decided (hi.pending hmem),
      fun h => absurd (commitPoint_append.1 h) (by simp [hnp, hev]),
      hi.tsr.append_before_commitPoint fun _ => ⟨hnp, hev⟩,
      hi.participants.append_before_commitPoint fun _ => ⟨hnp, hev⟩⟩
  | commitPhase =>
    refine hi.of_quiet id (fun h => ?_) ⟨[], by simp [Sys.run], by simp⟩
    simp only [Sys.run, List.mem_append, List.mem_map, List.mem_singleton] at h
    rcases h with (h | ⟨_, -, h⟩) | h
    · exact List.mem_of_mem_eraseIdx h
    · cases h
    · cases h
  | commit ds =>
    exact hi.of_quiet id List.mem_of_mem_eraseIdx ⟨_, rfl, fun x hx => by
      obtain rfl := List.mem_singleton.1 hx
      exact ⟨_, _, .inr (.inl rfl)⟩⟩
  | deleteTSR =>
    exact hi.of_quiet id List.mem_of_mem_eraseIdx ⟨_, rfl, fun x hx => by
      obtain rfl := List.mem_singleton.1 hx
      exact ⟨_, _, .inr (.inr rfl)⟩⟩

/-- An owner's call that panics keeps the invariant: it makes no sync point, and calls only
the `Prepare`s of a `Commit`, which leaves COMMITTED. -/
theorem abortInv_callPanics (hi : AbortInv s) {c : Call}
    (hp : s.txn.Panics (s.txn.call cfg env c).events) : AbortInv (s.callPanics cfg env c) := by
  rcases (callPanics_cases hp).2 with ⟨-, -, htxn, hlog⟩ | ⟨-, -, htxn, hlog⟩
  · refine hi.of_quiet (fun _ => .inl (by rw [htxn])) id ⟨_, hlog, fun x hx => ?_⟩
    obtain ⟨ds, -, rfl⟩ := List.mem_map.1 hx
    exact ⟨ds, true, .inl rfl⟩
  · exact hi.of_quiet (fun _ => .inr (by rw [htxn])) id
      ⟨[], hlog.trans (List.append_nil _).symm, nofun⟩

/-- A goroutine that panics keeps the invariant: it makes no call. -/
theorem abortInv_runPanics (hi : AbortInv s) {i : Nat} {task : Task}
    (hp : s.txn.Panics (s.taskEvents env task)) : AbortInv (s.runPanics env i task) := by
  refine hi.of_quiet (fun h => ?_) List.mem_of_mem_eraseIdx
    ⟨[], (List.append_nil s.log).symm, nofun⟩
  rcases (runPanics_cases hp).2 with ⟨-, -, htxn⟩ | ⟨-, htxn⟩
  · exact .inr (by rw [htxn])
  · rwa [htxn]

end Steps

theorem abortInv_reachable {cfg : Config} {s : Sys} (h : Reachable cfg s) : AbortInv s := by
  induction h with
  | init => exact abortInv_init
  | step _ hs ih =>
    cases hs with
    | call c env _ => exact abortInv_call ih c
    | callPanics c env _ hp => exact abortInv_callPanics ih hp
    | run i task env hget _ _ => exact abortInv_run ih hget
    | runPanics i task env _ _ _ hp => exact abortInv_runPanics ih hp
    | race _ _ => exact ih.of_quiet id id ⟨[], by simp, by simp⟩

/-! ## After the commit point -/

/-- A TSR call in the trace was made with a global datastore set, and one stays set. -/
theorem tsrMaintainer_of_tsr_call {cfg : Config} {s : Sys} (h : Reachable cfg s)
    {x : Actor × Event} (hx : x ∈ s.log) (ht : x.2.isTSR = true) :
    s.txn.tsrMaintainer.isSome = true := by
  induction h with
  | init => simp [Sys.init] at hx
  | step _ hs ih =>
    cases hs with
    | call c env _ hnp =>
      refine call_names_tsrMaintainer.2 ((List.mem_append.1 hx).elim ih fun hx => ?_)
      obtain ⟨e, he, rfl⟩ := List.mem_map.1 hx
      exact isSome_of_not_panics hnp he ht
    | callPanics c env _ _ =>
      refine call_names_tsrMaintainer.2 ((List.mem_append.1 hx).elim ih fun hx => ?_)
      obtain ⟨e, he, rfl⟩ := List.mem_map.1 hx
      simpa [ht] using List.mem_takeWhile_imp he
    | run i task env _ _ _ hnp =>
      rw [run_log] at hx
      rw [run_tsrMaintainer]
      refine (List.mem_append.1 hx).elim ih fun hx => ?_
      obtain ⟨e, he, rfl⟩ := List.mem_map.1 hx
      exact isSome_of_not_panics hnp he ht
    | runPanics i task env _ _ _ hp =>
      rcases (runPanics_cases hp).2 with ⟨-, -, htxn⟩ | ⟨-, htxn⟩ <;> rw [htxn] <;> exact ih hx
    | race _ _ => exact ih hx

/-- After the commit point a global datastore is set: `CreateTSR` went through it. -/
theorem tsrMaintainer_of_commitPoint {cfg : Config} {s : Sys} (h : Reachable cfg s)
    (hcp : CommitPoint s.log) : s.txn.tsrMaintainer.isSome = true :=
  let ⟨_, _, hx⟩ := hcp
  tsrMaintainer_of_tsr_call h hx rfl

/-- After the commit point, while the transaction is COMMITTED, the owner's `Abort()` is a
step of the run, and the state machine accepts it: it returns `nil`, leaves ABORTED, writes
the TSR ABORTED and calls `Abort` on every participant, telling each `hasCommitted`. -/
theorem owner_abort_accepted_after_commit_point {cfg : Config} {s : Sys} (h : Reachable cfg s)
    (hcp : CommitPoint s.log) (hc : s.txn.state = .committed) {env : Env} (hfit : env.Fits s) :
    Step cfg s (s.call cfg env .abort) ∧ (s.txn.call cfg env .abort).result = .ok () ∧
      (s.call cfg env .abort).txn.state = .aborted ∧
      (Actor.owner, Event.writeTSR s.txn.txnId .aborted env.writeTSR.isNone) ∈
        (s.call cfg env .abort).log ∧
      ∀ ds ∈ s.txn.dataStoreMap.names,
        ∃ ok, (Actor.owner, Event.abort ds true ok) ∈ (s.call cfg env .abort).log := by
  have hm : s.txn.state.canMoveTo .aborted = true := by rw [hc]; rfl
  have hev : (s.txn.call cfg env .abort).events =
      .writeTSR s.txn.txnId .aborted env.writeTSR.isNone ::
        env.order.map fun ds => .abort ds true (env.abort ds).isNone := by
    simp [Transaction.call, abort_eq, hm, hc]
  refine ⟨.call .abort env hfit (not_panics_of_isSome (tsrMaintainer_of_commitPoint h hcp) _),
    by simp [Transaction.call, abort_eq, hm], by simp [Sys.call, Transaction.call, abort_txn, hm],
    by simp [Sys.call, hev], fun ds hds => ⟨(env.abort ds).isNone, ?_⟩⟩
  rw [Sys.call, hev]
  exact List.mem_append_right _ (List.mem_map_of_mem _
    (List.mem_cons_of_mem _ (List.mem_map_of_mem _ (hfit.order.mem_iff.2 hds))))

/-- The owner commits a writing transaction, every collaborator answering `nil`, then calls
`Abort()`. -/
theorem owner_abort_accepted_after_commit_point_committed :
    let cfg : Config := ⟨.default, .zero⟩
    let env := Env.nil ["r"]
    let s := (writingRun cfg).call cfg env .commit
    Reachable cfg s ∧ CommitPoint s.log ∧ s.txn.state = .committed ∧ env.Fits s ∧
      (Step cfg s (s.call cfg env .abort) ∧ (s.txn.call cfg env .abort).result = .ok () ∧
        (s.call cfg env .abort).txn.state = .aborted ∧
        (Actor.owner, Event.writeTSR s.txn.txnId .aborted env.writeTSR.isNone) ∈
          (s.call cfg env .abort).log ∧
        ∀ ds ∈ s.txn.dataStoreMap.names,
          ∃ ok, (Actor.owner, Event.abort ds true ok) ∈ (s.call cfg env .abort).log) := by
  intro cfg env s
  have hfit : env.Fits s := ⟨.refl _, .refl _, fun _ => rfl⟩
  have hr : Reachable cfg s := (reachable_writingRun cfg).step
    (.call .commit env ⟨.refl _, .refl _, fun _ => rfl⟩ (not_panics_of_isSome (by rfl) _))
  have hcp : CommitPoint s.log := ⟨.owner, "txn", by decide⟩
  exact ⟨hr, hcp, rfl, hfit, owner_abort_accepted_after_commit_point hr hcp rfl hfit⟩

/-! ## What a launched `Abort` tells the participants -/

/-- A goroutine's `Abort` on a participant tells it `hasCommitted = true`: the `go t.Abort()`
runs after the `Commit` that launched it has moved the transaction to COMMITTED, whether or
not the sync point was reached. -/
theorem goroutine_abort_hasCommitted {cfg : Config} {s : Sys} (h : Reachable cfg s) :
    ∀ ds hc ok, (Actor.goroutine, Event.abort ds hc ok) ∈ s.log → hc = true := by
  induction h with
  | init => simp [Sys.init]
  | step hr hs ih =>
    intro ds hc ok hmem
    cases hs with
    | call | callPanics =>
      rcases List.mem_append.1 hmem with hmem | hmem
      · exact ih ds hc ok hmem
      · simp at hmem
    | run i task env hget _ _ =>
      cases task with
      | abort =>
        rcases List.mem_append.1 hmem with hmem | hmem
        · exact ih ds hc ok hmem
        obtain ⟨e, he, heq⟩ := List.mem_map.1 hmem
        cases heq
        obtain ⟨hm, ⟨_, h'⟩ | ⟨_, _, h'⟩⟩ := abort_events he <;> cases h'
        rcases (abortInv_reachable hr).pending (List.getElem?_mem hget) with hs | hs <;>
          simp [hs, State.canMoveTo] at hm ⊢
      | commitPhase => exact ih ds hc ok hmem
      | commit | deleteTSR =>
        rcases List.mem_append.1 hmem with hmem | hmem
        · exact ih ds hc ok hmem
        · simp at hmem
    | runPanics | race => exact ih ds hc ok hmem

/-- A `Prepare` fails and the `Abort` it launches runs: it tells the participant
`hasCommitted = true`, with no sync point made. -/
theorem goroutine_abort_hasCommitted_prepare_failed :
    let env : Env := { Env.nil ["r"] with prepare := fun _ => some "conflict" }
    let s := ((writingRun ⟨.default, .zero⟩).call ⟨.default, .zero⟩ env .commit).run env 0 .abort
    Reachable ⟨.default, .zero⟩ s ∧ ¬CommitPoint s.log ∧
      (Actor.goroutine, Event.abort "r" true true) ∈ s.log ∧
      ∀ ds hc ok, (Actor.goroutine, Event.abort ds hc ok) ∈ s.log → hc = true := by
  intro env s
  have hr : Reachable ⟨.default, .zero⟩ s :=
    ((reachable_writingRun _).step (.call .commit env ⟨.refl _, .refl _, fun _ => rfl⟩
      (not_panics_of_isSome (by rfl) _))).step
      (.run 0 .abort env rfl trivial ⟨.refl _, .refl _, fun _ => rfl⟩
        (not_panics_of_isSome (by rfl) _))
  have hlog : s.log = [(.owner, .start "r" true), (.owner, .write "r" "k" true),
      (.owner, .prepare "r" false), (.goroutine, .writeTSR "txn" .aborted true),
      (.goroutine, .abort "r" true true)] := rfl
  refine ⟨hr, fun ⟨a, id, h⟩ => by simp [hlog] at h, by simp [hlog],
    goroutine_abort_hasCommitted hr⟩

/-! ## What the owner is told -/

/-- What holds in every reachable state: the answers of the owner's `Commit` calls agree with
the trace. -/
structure VerdictInv (s : Sys) : Prop where
  /-- While EMPTY or STARTED, no `Commit` has got past its state check and the commit point
  has not been reached. -/
  undecided : s.txn.state = .empty ∨ s.txn.state = .started →
    ¬CommitPoint s.log ∧ ∀ r, (Call.commit, r) ∈ s.calls → IsStateViolation r
  /-- A `Commit` that got past its state check returned `nil` exactly when the commit point
  has been reached or the transaction is read-only. -/
  verdict : ∀ r, (Call.commit, r) ∈ s.calls → ¬IsStateViolation r →
    (r = .ok () ↔ CommitPoint s.log ∨ s.txn.isReadOnly = true)

theorem verdictInv_init : VerdictInv Sys.init where
  undecided _ := ⟨fun ⟨_, _, h⟩ => by simp [Sys.init] at h, fun _ h => by simp [Sys.init] at h⟩
  verdict _ h := by simp [Sys.init] at h

theorem not_undecided_iff {st : State} :
    ¬(st = .empty ∨ st = .started) ↔ st = .committed ∨ st = .aborted := by
  cases st <;> simp

section Verdict

variable {s : Sys} {cfg : Config} {env : Env}

/-- A step that answers no `Commit` past its state check, keeps the commit point as it was,
returns to neither EMPTY nor STARTED, and changes `isReadOnly` only while EMPTY or STARTED
keeps the invariant. -/
theorem VerdictInv.of_frame (hi : VerdictInv s) {s' : Sys}
    (hcalls : ∀ r, (Call.commit, r) ∈ s'.calls → (Call.commit, r) ∈ s.calls ∨ IsStateViolation r)
    (hcp : CommitPoint s'.log ↔ CommitPoint s.log)
    (hst : s'.txn.state = .empty ∨ s'.txn.state = .started →
      s.txn.state = .empty ∨ s.txn.state = .started)
    (hro : ¬(s.txn.state = .empty ∨ s.txn.state = .started) →
      s'.txn.isReadOnly = s.txn.isReadOnly) :
    VerdictInv s' := by
  refine ⟨fun h => ?_, fun r hc hr => ?_⟩
  · obtain ⟨hn, hv⟩ := hi.undecided (hst h)
    exact ⟨mt hcp.1 hn, fun r hc => (hcalls r hc).elim (hv r) id⟩
  · obtain hc | hv := hcalls r hc
    · rw [hcp, hro fun h => hr ((hi.undecided h).2 r hc)]
      exact hi.verdict r hc hr
    · exact absurd hv hr

/-- The owner's call keeps the invariant. A `Commit` from STARTED is the first to get past
its state check, and returns `nil` exactly when the transaction is read-only or its sync
point, the commit point of the trace, succeeded. Any other call makes no sync point, answers
a `Commit` with a state violation, and changes `isReadOnly` only while STARTED. -/
theorem verdictInv_call (hi : VerdictInv s) (c : Call) : VerdictInv (s.call cfg env c) := by
  by_cases hact : c = .commit ∧ s.txn.state = .started
  · obtain ⟨rfl, hs⟩ := hact
    obtain ⟨hn, hv⟩ := hi.undecided (.inr hs)
    have htxn : (s.txn.commit cfg env).txn.state = .committed ∧
        (s.txn.commit cfg env).txn.isReadOnly = s.txn.isReadOnly := by
      simp only [commit_txn, hs, if_true]
      split_ifs <;> exact ⟨rfl, rfl⟩
    have hcp : CommitPoint (s.call cfg env .commit).log ↔
        Event.createTSR s.txn.txnId .committed true ∈ (s.txn.commit cfg env).events := by
      simp only [Sys.call, Transaction.call, commitPoint_append, commitPoint_map, hn, false_or]
      refine ⟨fun ⟨id, h⟩ => ?_, fun h => ⟨_, h⟩⟩
      obtain ⟨rfl, -⟩ := commit_createTSR_mem h
      exact h
    refine ⟨fun h => by simp [Sys.call, Transaction.call, htxn.1] at h, fun r hc hr => ?_⟩
    rcases List.mem_append.1 hc with hc | hc
    · exact absurd (hv r hc) hr
    · obtain rfl : r = (s.txn.commit cfg env).result := (Prod.mk.inj (List.mem_singleton.1 hc)).2
      rw [commit_result_ok_iff_synced hs, hcp, or_comm]
      simp [Sys.call, Transaction.call, htxn.2]
  · refine hi.of_frame (fun r hc => ?_) ?_ (fun h => ?_) fun h => ?_
    · rcases List.mem_append.1 hc with hc | hc
      · exact .inl hc
      · obtain ⟨rfl, rfl⟩ := Prod.mk.inj (List.mem_singleton.1 hc)
        have hs : s.txn.state ≠ .started := fun hs => hact ⟨rfl, hs⟩
        simp [Transaction.call, commit_of_not_started hs, IsStateViolation]
    · simp only [Sys.call, commitPoint_append, commitPoint_map]
      exact or_iff_left fun ⟨_, h⟩ => hact ⟨(call_commitPoint h).1, (call_commitPoint h).2.1⟩
    · exact Classical.byContradiction fun hd =>
        not_undecided_iff.2 (@call_decided s.txn cfg env c (not_undecided_iff.1 hd)) h
    · have hs : s.txn.state ≠ .started := fun hs => h (.inr hs)
      have hro := @call_isReadOnly s.txn cfg env c
      simp only [hs, and_false, or_false] at hro
      exact Bool.eq_iff_iff.2 (not_iff_not.1 (by simpa using hro))

/-- A launched goroutine keeps the invariant: it makes no sync point, answers no `Commit`,
and changes neither `isReadOnly` nor, but to ABORTED, the state. -/
theorem verdictInv_run (hi : VerdictInv s) (i : Nat) : ∀ task, VerdictInv (s.run env i task)
  | .abort => by
    refine hi.of_frame (fun _ hc => .inl hc) ?_ (fun h => ?_) fun _ => ?_
    · simp only [Sys.run, commitPoint_append, commitPoint_map]
      refine or_iff_left fun ⟨_, h⟩ => ?_
      obtain ⟨-, ⟨_, h'⟩ | ⟨_, _, h'⟩⟩ := abort_events h <;> cases h'
    · rcases @abort_state s.txn env with h' | h'
      · rcases h with h | h <;> simp [Sys.run, h'] at h
      · exact h' ▸ h
    · simp only [Sys.run, abort_txn]
      split_ifs <;> rfl
  | .commitPhase => hi.of_frame (fun _ hc => .inl hc) Iff.rfl id fun _ => rfl
  | .commit _ => hi.of_frame (fun _ hc => .inl hc)
      (commitPoint_append.trans (or_iff_left (by simp [CommitPoint]))) id fun _ => rfl
  | .deleteTSR => hi.of_frame (fun _ hc => .inl hc)
      (commitPoint_append.trans (or_iff_left (by simp [CommitPoint]))) id fun _ => rfl

/-- A call or a goroutine that panics keeps the invariant: it answers no `Commit`, makes no
sync point, leaves the state COMMITTED or ABORTED, and keeps `isReadOnly`. -/
theorem verdictInv_callPanics (hi : VerdictInv s) {c : Call}
    (hp : s.txn.Panics (s.txn.call cfg env c).events) : VerdictInv (s.callPanics cfg env c) := by
  have htxn : ((s.callPanics cfg env c).txn.state = .committed ∨
      (s.callPanics cfg env c).txn.state = .aborted) ∧
      (s.callPanics cfg env c).txn.isReadOnly = s.txn.isReadOnly := by
    rcases (callPanics_cases hp).2 with ⟨-, -, htxn, -⟩ | ⟨-, -, htxn, -⟩ <;> rw [htxn] <;> simp
  exact hi.of_frame (fun _ hc => .inl hc) (commitPoint_callPanics hp)
    (fun h => absurd h (not_undecided_iff.2 htxn.1)) fun _ => htxn.2

theorem verdictInv_runPanics (hi : VerdictInv s) {i : Nat} {task : Task}
    (hp : s.txn.Panics (s.taskEvents env task)) : VerdictInv (s.runPanics env i task) := by
  rcases (runPanics_cases (i := i) hp).2 with ⟨-, -, htxn⟩ | ⟨-, htxn⟩ <;>
    refine hi.of_frame (fun _ hc => .inl hc) Iff.rfl (fun h => ?_) fun _ => by rw [htxn]
  · rw [htxn] at h
    simp at h
  · rwa [htxn] at h

end Verdict

theorem verdictInv_reachable {cfg : Config} {s : Sys} (h : Reachable cfg s) : VerdictInv s := by
  induction h with
  | init => exact verdictInv_init
  | step _ hs ih =>
    cases hs with
    | call c env _ => exact verdictInv_call ih c
    | callPanics c env _ hp => exact verdictInv_callPanics ih hp
    | run i task env _ _ _ => exact verdictInv_run ih i task
    | runPanics i task env _ _ _ hp => exact verdictInv_runPanics ih hp
    | race _ => exact ⟨ih.undecided, ih.verdict⟩

/-- The owner is told what the run did. A `Commit` that got past its state check returned
`nil` exactly when the commit point has been reached or the transaction is read-only, in
every later state of the run: one that returned an error never sees the commit point
reached, whatever the goroutines and the owner do next. -/
theorem commit_answer_agrees {cfg : Config} {s : Sys} (h : Reachable cfg s)
    {r : Except TxnError Unit} (hc : (Call.commit, r) ∈ s.calls) (hr : ¬IsStateViolation r) :
    r = .ok () ↔ CommitPoint s.log ∨ s.txn.isReadOnly = true :=
  (verdictInv_reachable h).verdict r hc hr

/-- A `Commit` whose `Prepare` fails returns its error; the `Abort` it launches then runs. -/
theorem commit_answer_agrees_prepare_failed :
    let failing : Env := { Env.nil ["r"] with prepare := fun _ => some "conflict" }
    let taken : Env := { Env.nil ["r"] with createTSR := some "exists" }
    let s := ((writingRun ⟨.default, .zero⟩).call ⟨.default, .zero⟩ failing .commit).run
      taken 0 .abort
    let r : Except TxnError Unit := .error (.prepareFailed "conflict")
    Reachable ⟨.default, .zero⟩ s ∧ (Call.commit, r) ∈ s.calls ∧ ¬IsStateViolation r ∧
      (r = .ok () ↔ CommitPoint s.log ∨ s.txn.isReadOnly = true) := by
  intro failing taken s r
  have hr : Reachable ⟨.default, .zero⟩ s :=
    ((reachable_writingRun ⟨.default, .zero⟩).step
      (.call .commit failing ⟨.refl _, .refl _, fun _ => rfl⟩
        (not_panics_of_isSome (by rfl) _))).step
      (.run 0 .abort taken rfl trivial ⟨.refl _, .refl _, nofun⟩
        (not_panics_of_isSome (by rfl) _))
  have hc : (Call.commit, r) ∈ s.calls := List.mem_append_right _ (List.mem_singleton.2 rfl)
  exact ⟨hr, hc, id, commit_answer_agrees hr hc id⟩

end OreoTxn
