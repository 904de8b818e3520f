import OreoTxn.Transaction

/-!
# One-phase commit

`OnePhaseCommit` calls `ds.OnePhaseCommit()` on the participants in `range` order and stops
at the first error, which it returns after launching `go t.Abort()`. Unlike `Commit` it
checks no state, moves the state machine nowhere and writes no TSR, and it reads neither
`writeCount` nor `isReadOnly`: the coordinator enforces no precondition of the fast path
(`onePhaseCommit_contract`).

The loop is described by its two outcomes: every call returned `nil`
(`onePhaseCommitAll_of_forall_none`), or one failed after a prefix of calls that did not
(`onePhaseCommitAll_first_error`), and some such prefix exists whenever a call fails
(`exists_first_error`).
-/

namespace OreoTxn

/-- What `OnePhaseCommit` leaves behind: the transaction, the participants whose
`OnePhaseCommit` it called in order, each with whether it returned `nil`, the goroutines it
launched, and its result. -/
structure OnePhaseOutcome where
  txn : Transaction
  calls : List (String × Bool)
  launched : List Task
  result : Except TxnError Unit

/-- The loop of `OnePhaseCommit`: `ds.OnePhaseCommit()` on each participant of `order` until
one returns an error, and that error. -/
def onePhaseCommitAll (onePhaseCommit : String → Option String) :
    List String → List (String × Bool) × Option String
  | [] => ([], none)
  | ds :: order =>
    match onePhaseCommit ds with
    | some err => ([(ds, false)], some err)
    | none =>
      let r := onePhaseCommitAll onePhaseCommit order
      ((ds, true) :: r.1, r.2)

/-- `OnePhaseCommit`. -/
def Transaction.onePhaseCommit (t : Transaction) (env : Env) : OnePhaseOutcome :=
  match onePhaseCommitAll env.onePhaseCommit env.order with
  | (calls, some err) => ⟨t, calls, [.abort], .error (.passed err)⟩
  | (calls, none) => ⟨t, calls, [], .ok ()⟩

/-! ## The loop -/

section Loop

variable {answer : String → Option String}

theorem onePhaseCommitAll_of_forall_none {order : List String}
    (h : ∀ ds ∈ order, answer ds = none) :
    onePhaseCommitAll answer order = (order.map fun ds => (ds, true), none) := by
  induction order with
  | nil => rfl
  | cons ds order ih =>
    rw [List.forall_mem_cons] at h
    simp [onePhaseCommitAll, h.1, ih h.2]

theorem onePhaseCommitAll_first_error {pre post : List String} {ds err : String}
    (hpre : ∀ d ∈ pre, answer d = none) (hds : answer ds = some err) :
    onePhaseCommitAll answer (pre ++ ds :: post) =
      (pre.map (fun d => (d, true)) ++ [(ds, false)], some err) := by
  induction pre with
  | nil => simp [onePhaseCommitAll, hds]
  | cons d pre ih =>
    rw [List.forall_mem_cons] at hpre
    simp [onePhaseCommitAll, hpre.1, ih hpre.2]

/-- A list with an element failing `answer` has a first one. -/
theorem exists_first_error {order : List String} (h : ¬∀ ds ∈ order, answer ds = none) :
    ∃ pre ds post err, order = pre ++ ds :: post ∧ (∀ d ∈ pre, answer d = none) ∧
      answer ds = some err := by
  induction order with
  | nil => simp at h
  | cons d order ih =>
    cases hd : answer d with
    | some err => exact ⟨[], d, order, err, rfl, by simp, hd⟩
    | none =>
      obtain ⟨pre, ds, post, err, rfl, hpre, hds⟩ := ih (by simpa [hd] using h)
      exact ⟨d :: pre, ds, post, err, rfl, List.forall_mem_cons.2 ⟨hd, hpre⟩, hds⟩

end Loop

/-! ## `OnePhaseCommit` -/

/-- `OnePhaseCommit` in any state, whatever the number of participants and of writes: it
leaves the transaction as it was; it returns `nil` exactly when every participant's
`OnePhaseCommit` did, having then called each once in `range` order and launched nothing;
otherwise it called the participants up to the first that failed, returns that error and
launches `go t.Abort()`. -/
theorem onePhaseCommit_contract {t : Transaction} {env : Env}
    (hperm : env.order.Perm t.dataStoreMap.names) :
    (t.onePhaseCommit env).txn = t ∧
    ((t.onePhaseCommit env).result = .ok () ↔
      ∀ ds ∈ t.dataStoreMap.names, env.onePhaseCommit ds = none) ∧
    ((t.onePhaseCommit env).result = .ok () →
      (t.onePhaseCommit env).calls = env.order.map (fun ds => (ds, true)) ∧
      (t.onePhaseCommit env).launched = []) ∧
    (∀ e, (t.onePhaseCommit env).result = .error e →
      ∃ pre ds post err, env.order = pre ++ ds :: post ∧
        (∀ d ∈ pre, env.onePhaseCommit d = none) ∧ env.onePhaseCommit ds = some err ∧
        e = .passed err ∧ (t.onePhaseCommit env).launched = [.abort] ∧
        (t.onePhaseCommit env).calls = pre.map (fun d => (d, true)) ++ [(ds, false)]) := by
  have hiff : (∀ ds ∈ env.order, env.onePhaseCommit ds = none) ↔
      ∀ ds ∈ t.dataStoreMap.names, env.onePhaseCommit ds = none := by
    simp only [hperm.mem_iff]
  by_cases hall : ∀ ds ∈ env.order, env.onePhaseCommit ds = none
  · rw [Transaction.onePhaseCommit, onePhaseCommitAll_of_forall_none hall]
    exact ⟨rfl, iff_of_true rfl (hiff.1 hall), fun _ => ⟨rfl, rfl⟩, fun _ => nofun⟩
  · obtain ⟨pre, ds, post, err, horder, hpre, hds⟩ := exists_first_error hall
    have hrun := @onePhaseCommitAll_first_error _ pre post ds err hpre hds
    rw [← horder] at hrun
    rw [Transaction.onePhaseCommit, hrun]
    refine ⟨rfl, iff_of_false nofun (mt hiff.2 hall), nofun, fun e he => ?_⟩
    cases he
    exact ⟨pre, ds, post, err, horder, hpre, hds, rfl, rfl, rfl⟩

theorem onePhaseCommit_contract_empty :
    let t : Transaction :=
      { newTransaction with dataStoreMap := ⟨["r"], List.nodup_singleton "r"⟩ }
    let env : Env := { Env.nil ["r"] with onePhaseCommit := fun _ => some "version mismatch" }
    t.state = .empty ∧ env.order.Perm t.dataStoreMap.names ∧
      ((t.onePhaseCommit env).result = .ok () ↔
        ∀ ds ∈ t.dataStoreMap.names, env.onePhaseCommit ds = none) :=
  ⟨rfl, List.Perm.refl _, (onePhaseCommit_contract (List.Perm.refl _)).2.1⟩

end OreoTxn
