import OreoTxn.Run

/-!
# The owner's calls before `Commit`

`Read`, `Write` and `Delete` first check that the transaction is STARTED, and `Commit` first
moves it from STARTED to COMMITTED (`Call.PassesStateCheck`). `Start` sets STARTED before
it checks that a global datastore is set and that the map is not empty, and returns at the
first check that fails. Such a `Start` has fetched no id and started no participant, yet
leaves the transaction STARTED: `Read`, `Write`, `Delete` and `Commit` then get past their
state checks, and no later `Start` gets past its own (`failed_start_accepts_operations`).

`Commit` prepares nothing when `isReadOnly` holds; over a run, it fails exactly when some
`Write` or `Delete` of the owner has got past its state check
(`isReadOnly_iff_acceptedWrite`).
-/

namespace OreoTxn

/-- The state check a call makes first passes: `CheckState(STARTED)` of `Read`, `Write` and
`Delete`, `SetState(COMMITTED)` of `Commit`. The other calls make none. -/
def Call.PassesStateCheck (t : Transaction) : Call → Prop
  | .read .. | .write .. | .delete .. => t.checkState .started = .ok ()
  | .commit => ∃ t', t.setState .committed = .ok t'
  | _ => False

/-! ## A `Start` that fails -/

/-- A `Start` from EMPTY that finds no global datastore or no participant sets STARTED,
calls nothing, and returns the error of the first check that fails. -/
theorem start_of_missing {t : Transaction} {env : Env} (he : t.state = .empty)
    (hmiss : t.tsrMaintainer = none ∨ t.dataStoreMap.names = []) :
    t.start env = ⟨{ t with state := .started }, [], [],
      .error (if t.tsrMaintainer.isNone then .globalNotSet else .noDatastores)⟩ := by
  have hset : t.setState .started = .ok { t with state := .started } := by simp [he]
  rcases hmiss with h | h <;> simp only [Transaction.start, hset, h] <;> split_ifs <;> simp_all

/-- A `Start` from EMPTY that finds no global datastore, or no participant, returns its
error with the transaction STARTED and with no id fetched: `Read`, `Write`, `Delete` and
`Commit` then get past their state checks, and every later `Start` is refused. -/
theorem failed_start_accepts_operations {t : Transaction} {env : Env} (he : t.state = .empty)
    (hmiss : t.tsrMaintainer = none ∨ t.dataStoreMap.names = []) :
    ((t.start env).result = .error .globalNotSet ∨
        (t.start env).result = .error .noDatastores) ∧
      (t.start env).events = [] ∧ (t.start env).txn.txnId = t.txnId ∧
      (∀ ds key, (Call.read ds key).PassesStateCheck (t.start env).txn ∧
        (Call.write ds key).PassesStateCheck (t.start env).txn ∧
        (Call.delete ds key).PassesStateCheck (t.start env).txn) ∧
      Call.commit.PassesStateCheck (t.start env).txn ∧
      ∀ env', ((t.start env).txn.start env').result = .error (.stateViolation .started .started) := by
  rw [start_of_missing he hmiss]
  refine ⟨by split_ifs <;> simp, rfl, rfl, fun _ _ => ⟨rfl, rfl, rfl⟩, ⟨_, rfl⟩, fun _ => rfl⟩

/-- The owner adds the participant `"r"` and calls `Start` without `SetGlobalDatastore`. -/
theorem failed_start_accepts_operations_unset :
    let t := (newTransaction.addDatastore "r").1
    t.state = .empty ∧ (t.tsrMaintainer = none ∨ t.dataStoreMap.names = []) ∧
      (((t.start (Env.nil ["r"])).result = .error .globalNotSet ∨
          (t.start (Env.nil ["r"])).result = .error .noDatastores) ∧
        (t.start (Env.nil ["r"])).events = [] ∧ (t.start (Env.nil ["r"])).txn.txnId = t.txnId ∧
        (∀ ds key, (Call.read ds key).PassesStateCheck (t.start (Env.nil ["r"])).txn ∧
          (Call.write ds key).PassesStateCheck (t.start (Env.nil ["r"])).txn ∧
          (Call.delete ds key).PassesStateCheck (t.start (Env.nil ["r"])).txn) ∧
        Call.commit.PassesStateCheck (t.start (Env.nil ["r"])).txn ∧
        ∀ env', ((t.start (Env.nil ["r"])).txn.start env').result =
          .error (.stateViolation .started .started)) :=
  ⟨rfl, .inl rfl, failed_start_accepts_operations rfl (.inl rfl)⟩

/-! ## Writing calls -/

/-- A `Write` or a `Delete` of the owner got past its state check. -/
def AcceptedWrite (calls : List (Call × Except TxnError Unit)) : Prop :=
  ∃ c r, (c, r) ∈ calls ∧ c.writes = true ∧ ¬IsStateViolation r

theorem acceptedWrite_append_singleton {calls : List (Call × Except TxnError Unit)} {c : Call}
    {r : Except TxnError Unit} :
    AcceptedWrite (calls ++ [(c, r)]) ↔
      AcceptedWrite calls ∨ (c.writes = true ∧ ¬IsStateViolation r) := by
  simp only [AcceptedWrite, List.mem_append, List.mem_singleton, Prod.mk.injEq]
  constructor
  · rintro ⟨c', r', h | ⟨rfl, rfl⟩, hw, hv⟩
    · exact .inl ⟨c', r', h, hw, hv⟩
    · exact .inr ⟨hw, hv⟩
  · rintro (⟨c', r', h, hw, hv⟩ | ⟨hw, hv⟩)
    · exact ⟨c', r', .inl h, hw, hv⟩
    · exact ⟨c, r, .inr ⟨rfl, rfl⟩, hw, hv⟩

/-- A transaction is writing, so that `Commit` prepares it, exactly when a `Write` or a
`Delete` of its owner has got past its state check. -/
theorem isReadOnly_iff_acceptedWrite {cfg : Config} {s : Sys} (h : Reachable cfg s) :
    s.txn.isReadOnly = false ↔ AcceptedWrite s.calls := by
  induction h with
  | init => simp [Sys.init, newTransaction, AcceptedWrite]
  | @step s _ _ hs ih =>
    cases hs with
    | callPanics c env _ hp =>
      have hro : (s.callPanics cfg env c).txn.isReadOnly = s.txn.isReadOnly := by
        rcases (callPanics_cases hp).2 with ⟨-, -, htxn, -⟩ | ⟨-, -, htxn, -⟩ <;> rw [htxn]
      exact hro ▸ ih
    | runPanics i task env _ _ _ hp =>
      have hro : (s.runPanics env i task).txn.isReadOnly = s.txn.isReadOnly := by
        rcases (runPanics_cases (i := i) hp).2 with ⟨-, -, htxn⟩ | ⟨-, htxn⟩ <;> rw [htxn]
      exact hro ▸ ih
    | call c env _ =>
      show (s.txn.call cfg env c).txn.isReadOnly = false ↔
        AcceptedWrite (s.calls ++ [(c, (s.txn.call cfg env c).result)])
      rw [call_isReadOnly, ih, acceptedWrite_append_singleton]
      refine or_congr_right (and_congr_right fun hw => ?_)
      rw [call_stateViolation hw, not_not]
    | run i task env _ _ _ =>
      cases task with
      | abort =>
        show (s.txn.abort env).txn.isReadOnly = false ↔ _
        rw [abort_txn]
        split_ifs <;> exact ih
      | _ => exact ih
    | race _ => exact ih

theorem isReadOnly_iff_acceptedWrite_writing :
    (writingRun ⟨.default, .zero⟩).txn.isReadOnly = false ↔
      AcceptedWrite (writingRun ⟨.default, .zero⟩).calls :=
  isReadOnly_iff_acceptedWrite (reachable_writingRun _)

end OreoTxn
