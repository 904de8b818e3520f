import OreoTxn.Run

/-!
# Each participant is rolled back once

A failed `Commit` launches `go t.Abort()` and returns, and the owner may call `Abort` before
that goroutine runs. Only the first `Abort` gets past `SetState(ABORTED)`, and ABORTED is
final, so in every run each participant has its `Abort()` called at most once and
`WriteTSR(TxnId, ABORTED)` is made at most once (`participant_abort_at_most_once`),
whichever `Abort` runs first.

`AbortOnceInv` says so of the trace, together with the reason: until the transaction is
ABORTED no `Abort` has made a call. An accepted `Abort` then makes one `WriteTSR` and one
`Abort()` per participant of `order`, a permutation of the participants
(`abort_abortedIn`, `abort_tsrWrites`); every other call and goroutine makes neither.
-/

namespace OreoTxn

/-! ## The calls an `Abort` makes -/

/-- The participant an `Abort()` call is made on. -/
def Event.abortOf : Event → Option String
  | .abort ds _ _ => some ds
  | _ => none

/-- A `WriteTSR` call. -/
def Event.isWriteTSR : Event → Bool
  | .writeTSR .. => true
  | _ => false

/-- The participants sent `Abort()` in a trace, in order. -/
def abortedIn (l : List (Actor × Event)) : List String :=
  l.filterMap fun x => x.2.abortOf

/-- The number of `WriteTSR` calls in a trace. -/
def tsrWrites (l : List (Actor × Event)) : Nat :=
  l.countP fun x => x.2.isWriteTSR

@[simp] theorem abortedIn_append (l m : List (Actor × Event)) :
    abortedIn (l ++ m) = abortedIn l ++ abortedIn m :=
  List.filterMap_append ..

@[simp] theorem abortedIn_map (a : Actor) (es : List Event) :
    abortedIn (es.map (a, ·)) = es.filterMap Event.abortOf := by
  simp [abortedIn, List.filterMap_map, Function.comp_def]

@[simp] theorem tsrWrites_append (l m : List (Actor × Event)) :
    tsrWrites (l ++ m) = tsrWrites l + tsrWrites m :=
  List.countP_append ..

@[simp] theorem tsrWrites_map (a : Actor) (es : List Event) :
    tsrWrites (es.map (a, ·)) = es.countP Event.isWriteTSR := by
  simp [tsrWrites, List.countP_map, Function.comp_def]

section Abort

variable {t : Transaction} {env : Env}

/-- An `Abort` the state machine accepts calls `Abort()` on the participants of `order`;
one it refuses calls nothing. -/
theorem abort_abortedIn : (t.abort env).events.filterMap Event.abortOf =
    if t.state.canMoveTo .aborted then env.order else [] := by
  rw [abort_eq]
  split_ifs <;> simp [List.filterMap_map, Function.comp_def, Event.abortOf]

/-- An `Abort` the state machine accepts writes the TSR once; one it refuses not at all. -/
theorem abort_tsrWrites : (t.abort env).events.countP Event.isWriteTSR =
    if t.state.canMoveTo .aborted then 1 else 0 := by
  rw [abort_eq]
  split_ifs <;> simp [List.countP_cons, List.countP_map, Function.comp_def, Event.isWriteTSR]

end Abort

/-- A call other than `Abort` makes no `Abort()` and no `WriteTSR`. -/
theorem quiet_of_ne_abort {t : Transaction} {cfg : Config} {env : Env} {c : Call}
    (hc : c ≠ .abort) {e : Event} (he : e ∈ (t.call cfg env c).events) :
    e.abortOf = none ∧ e.isWriteTSR = false := by
  cases e with
  | abort => exact absurd (call_abort_event he).1 hc
  | writeTSR =>
    have h := makes_of_mem_call he
    cases c <;> simp [Call.Makes] at h hc
  | _ => exact ⟨rfl, rfl⟩

/-! ## The invariant -/

/-- What holds in every reachable state. -/
structure AbortOnceInv (s : Sys) : Prop where
  /-- Until the transaction is ABORTED, no `Abort` has made a call. -/
  fresh : s.txn.state ≠ .aborted → abortedIn s.log = [] ∧ tsrWrites s.log = 0
  nodup : (abortedIn s.log).Nodup
  once : tsrWrites s.log ≤ 1

theorem abortOnceInv_init : AbortOnceInv Sys.init where
  fresh _ := ⟨rfl, rfl⟩
  nodup := List.nodup_nil
  once := Nat.zero_le _

section Steps

variable {s : Sys}

/-- A step that makes neither an `Abort()` nor a `WriteTSR`, and keeps ABORTED, keeps the
invariant. -/
theorem AbortOnceInv.of_quiet (hi : AbortOnceInv s) {s' : Sys} {es : List (Actor × Event)}
    (hlog : s'.log = s.log ++ es) (hes : ∀ x ∈ es, x.2.abortOf = none ∧ x.2.isWriteTSR = false)
    (hst : s.txn.state = .aborted → s'.txn.state = .aborted) : AbortOnceInv s' := by
  have ha : abortedIn es = [] := List.filterMap_eq_nil_iff.2 fun x hx => (hes x hx).1
  have hw : tsrWrites es = 0 := List.countP_eq_zero.2 fun x hx => by simp [(hes x hx).2]
  have hA : abortedIn s'.log = abortedIn s.log := by rw [hlog, abortedIn_append, ha, List.append_nil]
  have hW : tsrWrites s'.log = tsrWrites s.log := by rw [hlog, tsrWrites_append, hw, Nat.add_zero]
  exact ⟨fun h => hA ▸ hW ▸ hi.fresh (mt hst h), hA ▸ hi.nodup, hW ▸ hi.once⟩

/-- An `Abort`, the owner's or a goroutine's, keeps the invariant: it is refused and makes no
call once the transaction is ABORTED, and otherwise it makes the first `Abort()`s of the run,
one per participant, and the first `WriteTSR`. -/
theorem AbortOnceInv.of_abort (hi : AbortOnceInv s) {env : Env}
    (horder : env.order.Perm s.txn.dataStoreMap.names) {a : Actor} {s' : Sys}
    (htxn : s'.txn = (s.txn.abort env).txn)
    (hlog : s'.log = s.log ++ (s.txn.abort env).events.map (a, ·)) : AbortOnceInv s' := by
  by_cases hm : s.txn.state.canMoveTo .aborted = true
  · have hst : s.txn.state ≠ .aborted := fun h => by simp [h, State.canMoveTo] at hm
    obtain ⟨ha, hw⟩ := hi.fresh hst
    have hab : s'.txn.state = .aborted := by rw [htxn, abort_txn, if_pos hm]
    have hA : abortedIn s'.log = env.order := by
      rw [hlog, abortedIn_append, abortedIn_map, abort_abortedIn, if_pos hm, ha, List.nil_append]
    have hW : tsrWrites s'.log = 1 := by
      rw [hlog, tsrWrites_append, tsrWrites_map, abort_tsrWrites, if_pos hm, hw]
    exact ⟨fun h => absurd hab h, hA ▸ horder.nodup_iff.2 s.txn.dataStoreMap.nodup, hW.le⟩
  · have hevents : (s.txn.abort env).events = [] := by rw [abort_eq, if_neg hm]
    refine hi.of_quiet (show s'.log = s.log ++ [] by rw [hlog, hevents]; rfl) nofun fun h => ?_
    rwa [htxn, abort_txn, if_neg hm]

/-- The owner's call keeps the invariant. -/
theorem abortOnceInv_call (hi : AbortOnceInv s) {cfg : Config} {env : Env} (hfit : env.Fits s)
    (c : Call) : AbortOnceInv (s.call cfg env c) := by
  by_cases hc : c = .abort
  · subst hc
    exact hi.of_abort hfit.order rfl rfl
  · refine hi.of_quiet rfl (fun x hx => ?_) call_aborted
    obtain ⟨e, he, rfl⟩ := List.mem_map.1 hx
    exact quiet_of_ne_abort hc he

/-- A launched goroutine keeps the invariant: only `go t.Abort()` makes either call. -/
theorem abortOnceInv_run (hi : AbortOnceInv s) {env : Env} (hfit : env.Fits s) (i : Nat) :
    ∀ task, AbortOnceInv (s.run env i task)
  | .abort => hi.of_abort hfit.order rfl rfl
  | .commitPhase => hi.of_quiet (List.append_nil s.log).symm nofun id
  | .commit _ => hi.of_quiet rfl (fun _ hx => List.mem_singleton.1 hx ▸ ⟨rfl, rfl⟩) id
  | .deleteTSR => hi.of_quiet rfl (fun _ hx => List.mem_singleton.1 hx ▸ ⟨rfl, rfl⟩) id

/-- An owner's call that panics keeps the invariant: it makes neither call before its
`WriteTSR`. -/
theorem abortOnceInv_callPanics (hi : AbortOnceInv s) {cfg : Config} {env : Env} {c : Call}
    (hp : s.txn.Panics (s.txn.call cfg env c).events) : AbortOnceInv (s.callPanics cfg env c) := by
  rcases (callPanics_cases hp).2 with ⟨-, -, -, hlog⟩ | ⟨-, -, -, hlog⟩
  · refine hi.of_quiet hlog (fun x hx => ?_) call_aborted
    obtain ⟨_, -, rfl⟩ := List.mem_map.1 hx
    exact ⟨rfl, rfl⟩
  · exact hi.of_quiet (hlog.trans (List.append_nil _).symm) nofun call_aborted

/-- A goroutine that panics keeps the invariant: it makes no call. -/
theorem abortOnceInv_runPanics (hi : AbortOnceInv s) {env : Env} {i : Nat} {task : Task}
    (hp : s.txn.Panics (s.taskEvents env task)) : AbortOnceInv (s.runPanics env i task) := by
  refine hi.of_quiet (List.append_nil s.log).symm nofun fun h => ?_
  rcases (runPanics_cases (i := i) hp).2 with ⟨-, -, htxn⟩ | ⟨-, htxn⟩ <;> rw [htxn]
  exact h

end Steps

theorem abortOnceInv_reachable {cfg : Config} {s : Sys} (h : Reachable cfg s) :
    AbortOnceInv s := by
  induction h with
  | init => exact abortOnceInv_init
  | step _ hs ih =>
    cases hs with
    | call c env hfit => exact abortOnceInv_call ih hfit c
    | callPanics c env _ hp => exact abortOnceInv_callPanics ih hp
    | run i task env _ _ hfit => exact abortOnceInv_run ih hfit i task
    | runPanics i task env _ _ _ hp => exact abortOnceInv_runPanics ih hp
    | race _ => exact ⟨ih.fresh, ih.nodup, ih.once⟩

/-! ## Each participant's `Abort()` once -/

/-- In every run, whatever the owner calls and whenever the launched `go t.Abort()` runs, no
participant has its `Abort()` called twice, and the TSR is written ABORTED at most once. -/
theorem participant_abort_at_most_once {cfg : Config} {s : Sys} (h : Reachable cfg s) :
    (abortedIn s.log).Nodup ∧ tsrWrites s.log ≤ 1 :=
  ⟨(abortOnceInv_reachable h).nodup, (abortOnceInv_reachable h).once⟩

/-- A `Commit` whose `Prepare` fails launches `go t.Abort()`; the owner calls `Abort` before
it runs, and the goroutine then finds the transaction ABORTED. -/
theorem participant_abort_at_most_once_raced :
    let failing : Env := { Env.nil ["r"] with prepare := fun _ => some "conflict" }
    let taken : Env := { Env.nil ["r"] with createTSR := some "exists" }
    let s := (((writingRun ⟨.default, .zero⟩).call ⟨.default, .zero⟩ failing .commit).call
      ⟨.default, .zero⟩ taken .abort).run taken 0 .abort
    Reachable ⟨.default, .zero⟩ s ∧ abortedIn s.log = ["r"] ∧ tsrWrites s.log = 1 ∧
      ((abortedIn s.log).Nodup ∧ tsrWrites s.log ≤ 1) := by
  intro failing taken s
  have hr : Reachable ⟨.default, .zero⟩ s :=
    (((reachable_writingRun ⟨.default, .zero⟩).step (.call .commit failing
        ⟨.refl _, .refl _, fun _ => rfl⟩ (not_panics_of_isSome (by rfl) _))).step
      (.call .abort taken ⟨.refl _, .refl _, nofun⟩ (not_panics_of_isSome (by rfl) _))).step
      (.run 0 .abort taken rfl trivial ⟨.refl _, .refl _, nofun⟩ (not_panics_of_isSome (by rfl) _))
  exact ⟨hr, rfl, rfl, participant_abort_at_most_once hr⟩

end OreoTxn
