import OreoTxn.Commit

/-!
# Runs of the coordinator

A `Transaction` is owned by one worker, whose calls run one at a time; the goroutines the
coordinator launches (`go t.Abort()` and the asynchronous commit phase) run whenever the
scheduler lets them, between the owner's calls. A run (`Reachable`) interleaves three
kinds of step (`Step`): a call of the owner, a launched goroutine, and a reader of another
transaction that finds the TSR slot of this transaction empty and seizes it with
`CreateTSR(TxnId, ABORTED)`; the slot is that of `TxnId`, which is fixed once the
transaction has left EMPTY. Each step is atomic; the answers of the collaborators (`Env`)
are any that fit the state (`Env.Fits`): every loop over `dataStoreMap` visits each
participant once, and `CreateTSR` inserts only into an empty slot.

Nothing makes the owner call `SetGlobalDatastore` before `Start`, and a `Start` that finds
no global datastore returns its error with the transaction STARTED. A call or a goroutine
that then reaches `CreateTSR`, `WriteTSR` or `DeleteTSR` calls a method of the nil
interface `tsrMaintainer`, and Go panics (`Transaction.Panics`): the owner's call stops
there (`Sys.callPanics`, `callPanics_cases`), and so does the goroutine
(`Sys.runPanics`, `runPanics_cases`). `Sys.panicked` records that a panic has happened. A
panic in a goroutine ends the process, and the owner may recover from its own; the run
goes on after either, so the invariants are proved over more runs than the process makes.

`Sys.log` keeps every call made on a collaborator, with who made it, and `Sys.calls` every
call of the owner that returned, with its result.

This file gives the inversion lemmas of the owner's calls, which the invariants of
`CommitPoint.lean`, `CommitPhase.lean`, `CommitOnce.lean`, `AbortOnce.lean`,
`StartGuard.lean`, `Durability.lean`, `Completion.lean` and `Refinement.lean` are derived
from.
-/

namespace OreoTxn

/-- A call of the transaction's owner. -/
inductive Call
  | addDatastore (ds : String)
  | addDatastores (dss : List String)
  | setGlobalDatastore (ds : String)
  | start
  | read (ds key : String)
  | write (ds key : String)
  | delete (ds key : String)
  | commit
  | abort
  deriving DecidableEq, Repr, Inhabited

/-- The owner's call `c`. -/
def Transaction.call (t : Transaction) (cfg : Config) (env : Env) : Call → Outcome
  | .addDatastore ds => ⟨(t.addDatastore ds).1, [], [], (t.addDatastore ds).2⟩
  | .addDatastores dss => ⟨(t.addDatastores dss).1, [], [], (t.addDatastores dss).2⟩
  | .setGlobalDatastore ds => ⟨t.setGlobalDatastore ds, [], [], .ok ()⟩
  | .start => t.start env
  | .read ds key => t.read env ds key
  | .write ds key => t.write env ds key
  | .delete ds key => t.delete env ds key
  | .commit => t.commit cfg env
  | .abort => t.abort env

/-- The calls on collaborators that an owner's call of each kind makes. -/
def Call.Makes : Call → Event → Prop
  | .start, e => ∃ ds ok, e = .start ds ok
  | .read .., e => ∃ ds key ok, e = .read ds key ok
  | .write .., e => ∃ ds key ok, e = .write ds key ok
  | .delete .., e => ∃ ds key ok, e = .delete ds key ok
  | .commit, e => (∃ ds ok, e = .prepare ds ok) ∨ (∃ id ok, e = .createTSR id .committed ok) ∨
      (∃ ds ok, e = .commit ds ok) ∨ ∃ id ok, e = .deleteTSR id ok
  | .abort, e => (∃ id ok, e = .writeTSR id .aborted ok) ∨ ∃ ds hc ok, e = .abort ds hc ok
  | _, _ => False

/-- A call through `t.tsrMaintainer`: `CreateTSR`, `WriteTSR` or `DeleteTSR`. -/
def Event.isTSR : Event → Bool
  | .createTSR .. | .writeTSR .. | .deleteTSR .. => true
  | _ => false

/-- The calls `es` of `t` panic: one of them goes through `t.tsrMaintainer` while no global
datastore is set, and calls a method of a nil interface. -/
def Transaction.Panics (t : Transaction) (es : List Event) : Prop :=
  t.tsrMaintainer = none ∧ ∃ e ∈ es, e.isTSR = true

instance (t : Transaction) (es : List Event) : Decidable (t.Panics es) :=
  inferInstanceAs (Decidable (_ ∧ _))

theorem not_panics_of_isSome {t : Transaction} (h : t.tsrMaintainer.isSome = true)
    (es : List Event) : ¬t.Panics es := fun hp => by simp [hp.1] at h

theorem not_panics_nil (t : Transaction) : ¬t.Panics [] := fun ⟨_, _, he, _⟩ => nomatch he

/-- Calls that do not panic make a TSR call only with a global datastore set. -/
theorem isSome_of_not_panics {t : Transaction} {es : List Event} (hp : ¬t.Panics es) {e : Event}
    (he : e ∈ es) (ht : e.isTSR = true) : t.tsrMaintainer.isSome = true :=
  Option.ne_none_iff_isSome.1 fun h => hp ⟨h, e, he, ht⟩

section Calls

variable {t : Transaction} {cfg : Config} {env : Env} {c : Call}

theorem makes_of_mem_call {e : Event} (he : e ∈ (t.call cfg env c).events) : c.Makes e := by
  cases c with
  | start => exact start_events he
  | read ds key => exact ⟨_, _, _, dispatch_events he⟩
  | write ds key => exact ⟨_, _, _, dispatch_events he⟩
  | delete ds key => exact ⟨_, _, _, dispatch_events he⟩
  | commit =>
    rcases commit_events_kind he with ⟨ds, -, ok, rfl⟩ | ⟨ok, rfl⟩ | h | ⟨ok, rfl⟩
    · exact .inl ⟨ds, ok, rfl⟩
    · exact .inr (.inl ⟨_, ok, rfl⟩)
    · exact .inr (.inr (.inl h))
    · exact .inr (.inr (.inr ⟨_, ok, rfl⟩))
  | abort =>
    simp only [Transaction.call, abort_eq] at he
    split_ifs at he
    · rcases List.mem_cons.1 he with rfl | he
      · exact .inl ⟨_, _, rfl⟩
      · obtain ⟨ds, -, rfl⟩ := List.mem_map.1 he
        exact .inr ⟨ds, _, _, rfl⟩
    · simp at he
  | _ => simp [Transaction.call] at he

/-- Only `Commit` launches goroutines, from STARTED, leaving the transaction COMMITTED. -/
theorem call_launched {task : Task} (h : task ∈ (t.call cfg env c).launched) :
    c = .commit ∧ t.state = .started ∧ (t.call cfg env c).txn.state = .committed := by
  cases c with
  | commit =>
    obtain ⟨hs, -⟩ := commit_active (.inr (List.ne_nil_of_mem h))
    refine ⟨rfl, hs, ?_⟩
    simp only [Transaction.call, commit_txn, hs, if_true]
    split_ifs <;> rfl
  | start => simp [Transaction.call, start_launched] at h
  | read => simp [Transaction.call, Transaction.read, dispatch_launched] at h
  | write => simp [Transaction.call, Transaction.write, dispatch_launched] at h
  | delete => simp [Transaction.call, Transaction.delete, dispatch_launched] at h
  | abort =>
    simp only [Transaction.call, abort_eq] at h
    split_ifs at h <;> simp at h
  | _ => simp [Transaction.call] at h

/-- A call leaves the state as it was or moves it along the state machine. -/
theorem call_state : (t.call cfg env c).txn.state = t.state ∨
    t.state.canMoveTo (t.call cfg env c).txn.state = true := by
  cases c with
  | start =>
    simp only [Transaction.call, start_txn]
    split_ifs with h <;> simp [h]
  | read => simp only [Transaction.call, Transaction.read, dispatch_txn]; split_ifs <;> simp
  | write => simp only [Transaction.call, Transaction.write, dispatch_txn]; split_ifs <;> simp
  | delete => simp only [Transaction.call, Transaction.delete, dispatch_txn]; split_ifs <;> simp
  | commit =>
    simp only [Transaction.call, commit_txn]
    split_ifs with h <;> simp [h]
  | abort =>
    simp only [Transaction.call, abort_eq]
    split_ifs with h <;> simp [h]
  | addDatastore ds => obtain ⟨m, hm, -⟩ := addDatastore_fst t ds; simp [Transaction.call, hm]
  | addDatastores dss => obtain ⟨m, hm, -⟩ := addDatastores_fst t dss; simp [Transaction.call, hm]
  | setGlobalDatastore ds => simp [Transaction.call, Transaction.setGlobalDatastore]

/-- Only `Start` leaves EMPTY, for STARTED. -/
theorem call_state_of_empty (h : t.state = .empty) :
    (t.call cfg env c).txn.state = if c = .start then .started else .empty := by
  cases c with
  | start => simp only [Transaction.call, start_txn, h, if_true]; split_ifs <;> rfl
  | read => simp [Transaction.call, Transaction.read, dispatch_txn, h]
  | write => simp [Transaction.call, Transaction.write, dispatch_txn, h]
  | delete => simp [Transaction.call, Transaction.delete, dispatch_txn, h]
  | commit => simp [Transaction.call, commit_txn, h]
  | abort => simp [Transaction.call, abort_eq, h, State.canMoveTo]
  | addDatastore ds => obtain ⟨m, hm, -⟩ := addDatastore_fst t ds; simp [Transaction.call, hm, h]
  | addDatastores dss =>
    obtain ⟨m, hm, -⟩ := addDatastores_fst t dss
    simp [Transaction.call, hm, h]
  | setGlobalDatastore ds => simp [Transaction.call, Transaction.setGlobalDatastore, h]

/-- Only a `Start` from EMPTY sets the id and the start time. -/
theorem call_ids (h : ¬(c = .start ∧ t.state = .empty)) :
    (t.call cfg env c).txn.txnId = t.txnId ∧
      (t.call cfg env c).txn.txnStartTime = t.txnStartTime := by
  cases c with
  | start => simp only [Transaction.call, start_txn]; simp at h; simp [h]
  | read => simp only [Transaction.call, Transaction.read, dispatch_txn]; split_ifs <;> simp
  | write => simp only [Transaction.call, Transaction.write, dispatch_txn]; split_ifs <;> simp
  | delete => simp only [Transaction.call, Transaction.delete, dispatch_txn]; split_ifs <;> simp
  | commit => simp only [Transaction.call, commit_txn]; split_ifs <;> simp
  | abort => simp only [Transaction.call, abort_eq]; split_ifs <;> simp
  | addDatastore ds => obtain ⟨m, hm, -⟩ := addDatastore_fst t ds; simp [Transaction.call, hm]
  | addDatastores dss => obtain ⟨m, hm, -⟩ := addDatastores_fst t dss; simp [Transaction.call, hm]
  | setGlobalDatastore ds => simp [Transaction.call, Transaction.setGlobalDatastore]

/-- The participants only grow, and a global datastore once set stays set. -/
theorem call_names_tsrMaintainer :
    t.dataStoreMap.names ⊆ (t.call cfg env c).txn.dataStoreMap.names ∧
      (t.tsrMaintainer.isSome → (t.call cfg env c).txn.tsrMaintainer.isSome) := by
  cases c with
  | start => simp only [Transaction.call, start_txn]; split_ifs <;> simp
  | read => simp only [Transaction.call, Transaction.read, dispatch_txn]; split_ifs <;> simp
  | write => simp only [Transaction.call, Transaction.write, dispatch_txn]; split_ifs <;> simp
  | delete => simp only [Transaction.call, Transaction.delete, dispatch_txn]; split_ifs <;> simp
  | commit => simp only [Transaction.call, commit_txn]; split_ifs <;> simp
  | abort => simp only [Transaction.call, abort_eq]; split_ifs <;> simp
  | addDatastore ds =>
    obtain ⟨m, hm, hsub⟩ := addDatastore_fst t ds
    simp [Transaction.call, hm, hsub]
  | addDatastores dss =>
    obtain ⟨m, hm, hsub⟩ := addDatastores_fst t dss
    simp [Transaction.call, hm, hsub]
  | setGlobalDatastore ds => simp [Transaction.call, Transaction.setGlobalDatastore]

/-- Once COMMITTED or ABORTED, a transaction stays so. -/
theorem call_decided (h : t.state = .committed ∨ t.state = .aborted) :
    (t.call cfg env c).txn.state = .committed ∨ (t.call cfg env c).txn.state = .aborted := by
  rcases @call_state t cfg env c with h' | h'
  · rwa [h']
  · revert h'
    rcases h with h | h <;> rw [h] <;> cases (t.call cfg env c).txn.state <;> decide

/-- `Write` and `Delete`, the calls that mark the transaction as writing. -/
def Call.writes : Call → Bool
  | .write .. | .delete .. => true
  | _ => false

/-- Only a `Write` or a `Delete` from STARTED marks the transaction as writing. -/
theorem call_isReadOnly : (t.call cfg env c).txn.isReadOnly = false ↔
    t.isReadOnly = false ∨ (c.writes = true ∧ t.state = .started) := by
  cases c with
  | write ds key =>
    simp only [Transaction.call, Transaction.write, dispatch_txn, Call.writes]
    split_ifs with h <;> simp_all
  | delete ds key =>
    simp only [Transaction.call, Transaction.delete, dispatch_txn, Call.writes]
    split_ifs with h <;> simp_all
  | read => simp [Transaction.call, Transaction.read, dispatch_txn, Call.writes]
  | start => simp only [Transaction.call, start_txn]; split_ifs <;> simp [Call.writes]
  | commit => simp only [Transaction.call, commit_txn]; split_ifs <;> simp [Call.writes]
  | abort => simp only [Transaction.call, abort_txn]; split_ifs <;> simp [Call.writes]
  | addDatastore ds =>
    obtain ⟨m, hm, -⟩ := addDatastore_fst t ds
    simp [Transaction.call, hm, Call.writes]
  | addDatastores dss =>
    obtain ⟨m, hm, -⟩ := addDatastores_fst t dss
    simp [Transaction.call, hm, Call.writes]
  | setGlobalDatastore ds => simp [Transaction.call, Transaction.setGlobalDatastore, Call.writes]

/-- A `Write` or a `Delete` fails its state check exactly outside STARTED. -/
theorem call_stateViolation (hw : c.writes = true) :
    IsStateViolation (t.call cfg env c).result ↔ t.state ≠ .started := by
  cases c <;> simp [Call.writes] at hw <;> exact dispatch_stateViolation

/-- ABORTED is final. -/
theorem call_aborted (h : t.state = .aborted) : (t.call cfg env c).txn.state = .aborted := by
  rcases @call_state t cfg env c with h' | h'
  · rw [h', h]
  · rw [h] at h'
    cases hs : (t.call cfg env c).txn.state <;> rw [hs] at h' <;> cases h'

/-- Only `Abort` moves the transaction to ABORTED. -/
theorem call_state_aborted (hc : c ≠ .abort) (h : (t.call cfg env c).txn.state = .aborted) :
    t.state = .aborted := by
  cases c with
  | abort => exact absurd rfl hc
  | start =>
    simp only [Transaction.call, start_txn] at h
    split_ifs at h
    simp_all
  | read => simpa [Transaction.call, Transaction.read, dispatch_txn, apply_ite] using h
  | write => simpa [Transaction.call, Transaction.write, dispatch_txn, apply_ite] using h
  | delete => simpa [Transaction.call, Transaction.delete, dispatch_txn, apply_ite] using h
  | commit =>
    simp only [Transaction.call, commit_txn] at h
    split_ifs at h
    simp_all
  | addDatastore ds =>
    obtain ⟨m, hm, -⟩ := addDatastore_fst t ds
    simpa [Transaction.call, hm] using h
  | addDatastores dss =>
    obtain ⟨m, hm, -⟩ := addDatastores_fst t dss
    simpa [Transaction.call, hm] using h
  | setGlobalDatastore ds => simpa [Transaction.call, Transaction.setGlobalDatastore] using h

/-- The calls on collaborators that only `Commit` makes. -/
def Event.OfCommit : Event → Prop
  | .prepare .. | .createTSR .. | .commit .. | .deleteTSR .. => True
  | _ => False

/-- A call that prepares, makes a sync point, commits a participant or deletes the TSR is a
`Commit` from STARTED. -/
theorem call_commit_of_mem {e : Event} (he : e ∈ (t.call cfg env c).events) (hk : e.OfCommit) :
    c = .commit ∧ t.state = .started := by
  have hc : c = .commit := by
    have h := makes_of_mem_call he
    cases c <;> (try rfl) <;> simp only [Call.Makes] at h <;>
      first
      | exact absurd hk h.elim
      | (rcases h with ⟨_, _, rfl⟩ | ⟨_, _, _, rfl⟩ <;> exact hk.elim)
      | (obtain ⟨_, _, _, rfl⟩ := h; exact hk.elim)
  subst hc
  exact ⟨rfl, (commit_active (.inl (List.ne_nil_of_mem he))).1⟩

/-- A call whose sync point succeeds is a `Commit` from STARTED; it launches no `Abort` and
leaves the transaction COMMITTED. -/
theorem call_commitPoint {id : String}
    (h : Event.createTSR id .committed true ∈ (t.call cfg env c).events) :
    c = .commit ∧ t.state = .started ∧ Task.abort ∉ (t.call cfg env c).launched ∧
      (t.call cfg env c).txn.state = .committed := by
  obtain ⟨rfl, hs⟩ := call_commit_of_mem h trivial
  obtain ⟨rfl, -⟩ := commit_createTSR_mem h
  refine ⟨rfl, hs, commit_abort_not_launched h, ?_⟩
  simp only [Transaction.call, commit_txn, hs, if_true]
  split_ifs <;> rfl

/-- Only `Abort` calls `Abort` on a participant, from STARTED or COMMITTED, telling it whether
the transaction was COMMITTED. -/
theorem call_abort_event {ds : String} {hc ok : Bool}
    (h : Event.abort ds hc ok ∈ (t.call cfg env c).events) :
    c = .abort ∧ hc = (t.state == .committed) ∧ t.state.canMoveTo .aborted = true := by
  have hc : c = .abort := by
    have h' := makes_of_mem_call h
    cases c <;> simp [Call.Makes] at h' ⊢
  subst hc
  obtain ⟨hm, ⟨_, h'⟩ | ⟨_, _, h'⟩⟩ := abort_events h <;> cases h'
  exact ⟨rfl, rfl, hm⟩

/-- An owner's call that panics is a `Commit` from STARTED, every `Prepare` of which returned
`nil`, stopped at `CreateTSR`, or an `Abort` the state machine accepted, stopped at
`WriteTSR`: before the panic it called those `Prepare`s, or nothing. -/
theorem call_panics (hp : t.Panics (t.call cfg env c).events) :
    (c = .commit ∧ t.state = .started ∧ t.isReadOnly = false ∧
      (t.call cfg env c).events.takeWhile (fun e => !e.isTSR) =
        env.order.map fun ds => .prepare ds true) ∨
    (c = .abort ∧ t.state.canMoveTo .aborted = true ∧
      (t.call cfg env c).events.takeWhile (fun e => !e.isTSR) = []) := by
  obtain ⟨-, e, he, hT⟩ := hp
  cases c with
  | commit =>
    obtain ⟨hs, hr, hc⟩ := commit_active (.inl (List.ne_nil_of_mem he))
    cases hall : env.order.all fun d => (env.prepare d).isNone
    · rw [Transaction.call, (commit_events_of_not_all hs hr hc hall).1] at he
      obtain ⟨_, -, rfl⟩ := List.mem_map.1 he
      cases hT
    · obtain ⟨rest, hev, -⟩ := @commit_events_of_all t cfg env hs hr hc hall
      have hP : (env.order.map fun d => Event.prepare d (env.prepare d).isNone) =
          env.order.map fun ds => .prepare ds true :=
        List.map_congr_left fun d hd => by rw [List.all_eq_true.1 hall d hd]
      refine .inl ⟨rfl, hs, hr, ?_⟩
      rw [Transaction.call, hev, hP, List.takeWhile_append_of_pos (by simp [Event.isTSR])]
      simp [Event.isTSR]
  | abort =>
    obtain ⟨hm, -⟩ := abort_events he
    exact .inr ⟨rfl, hm, by simp [Transaction.call, abort_eq, hm, Event.isTSR]⟩
  | _ =>
    have h := makes_of_mem_call he
    simp only [Call.Makes] at h <;>
    first
    | (obtain ⟨_, _, rfl⟩ := h; cases hT)
    | (obtain ⟨_, _, _, rfl⟩ := h; cases hT)

end Calls

/-- An element of a list other than the one at `i` stays when that one is erased. -/
theorem mem_eraseIdx_of_ne {α : Type} {l : List α} {i : Nat} {a x : α} (hi : l[i]? = some a)
    (hx : x ∈ l) (hne : x ≠ a) : x ∈ l.eraseIdx i := by
  obtain ⟨j, hj⟩ := List.getElem?_of_mem hx
  refine List.mem_eraseIdx_iff_getElem?.2 ⟨j, fun hji => hne ?_, hj⟩
  subst hji
  rw [hi] at hj
  exact (Option.some.inj hj).symm

/-- A list is the element at `i` followed by the others. -/
theorem perm_cons_eraseIdx {α : Type} [DecidableEq α] {l : List α} {i : Nat} {a : α}
    (h : l[i]? = some a) : l.Perm (a :: l.eraseIdx i) := by
  obtain ⟨hi, rfl⟩ := List.getElem?_eq_some_iff.1 h
  exact (List.perm_cons_erase (List.getElem_mem hi)).trans (.cons _ (List.erase_getElem hi))

/-- Who made a call on a collaborator: the owner, within one of its calls, or a goroutine
the coordinator launched. -/
inductive Actor
  | owner
  | goroutine
  deriving DecidableEq, Repr, Inhabited

/-- A state of a run. -/
structure Sys where
  txn : Transaction
  /-- The TSR of `txn.txnId` at the global datastore. -/
  tsr : Option State
  /-- The goroutines launched and not yet run. -/
  pending : List Task
  log : List (Actor × Event)
  /-- The owner's calls that returned, with their results. -/
  calls : List (Call × Except TxnError Unit)
  /-- A call or a goroutine has panicked on the nil `tsrMaintainer`. -/
  panicked : Bool

/-- A new transaction, no TSR, nothing launched, nothing called. -/
def Sys.init : Sys := ⟨newTransaction, none, [], [], [], false⟩

/-- The TSR after a call made on it. What the global datastore does is not in the source:
a call that returned `nil` is taken to have done what it names, and one that returned an
error to have changed nothing. -/
def applyTSR (tsr : Option State) : Event → Option State
  | .createTSR _ st true => some st
  | .writeTSR _ st true => some st
  | .deleteTSR _ true => none
  | _ => tsr

/-- `s` after the owner's call `c`, which returned. -/
def Sys.call (s : Sys) (cfg : Config) (env : Env) (c : Call) : Sys where
  txn := (s.txn.call cfg env c).txn
  tsr := (s.txn.call cfg env c).events.foldl applyTSR s.tsr
  pending := s.pending ++ (s.txn.call cfg env c).launched
  log := s.log ++ (s.txn.call cfg env c).events.map (Actor.owner, ·)
  calls := s.calls ++ [(c, (s.txn.call cfg env c).result)]
  panicked := s.panicked

/-- `s` after the owner's call `c` has panicked at its first call through the nil
`tsrMaintainer`: what the call did before it stays done, and it launched nothing and
returned nothing. -/
def Sys.callPanics (s : Sys) (cfg : Config) (env : Env) (c : Call) : Sys :=
  { s with
    txn := (s.txn.call cfg env c).txn
    log := s.log ++
      ((s.txn.call cfg env c).events.takeWhile fun e => !e.isTSR).map (Actor.owner, ·)
    panicked := true }

/-- `s` after the goroutine `task`, taken from `pending` at `i`, has run. The goroutine of
`AsyncLevelTwo` launches one `ds.Commit()` per participant and a `DeleteTSR` that waits
for them. -/
def Sys.run (s : Sys) (env : Env) (i : Nat) : Task → Sys
  | .abort =>
    { s with
      txn := (s.txn.abort env).txn
      tsr := (s.txn.abort env).events.foldl applyTSR s.tsr
      pending := s.pending.eraseIdx i
      log := s.log ++ (s.txn.abort env).events.map (Actor.goroutine, ·) }
  | .commitPhase =>
    { s with
      pending := s.pending.eraseIdx i ++ s.txn.dataStoreMap.names.map .commit ++ [.deleteTSR] }
  | .commit ds =>
    { s with
      pending := s.pending.eraseIdx i
      log := s.log ++ [(.goroutine, .commit ds (env.commit ds).isNone)] }
  | .deleteTSR =>
    { s with
      tsr := applyTSR s.tsr (.deleteTSR s.txn.txnId env.deleteTSR.isNone)
      pending := s.pending.eraseIdx i
      log := s.log ++ [(.goroutine, .deleteTSR s.txn.txnId env.deleteTSR.isNone)] }

/-- The calls on collaborators that the goroutine `task` makes when it runs in `s`. -/
def Sys.taskEvents (s : Sys) (env : Env) : Task → List Event
  | .abort => (s.txn.abort env).events
  | .commitPhase => []
  | .commit ds => [.commit ds (env.commit ds).isNone]
  | .deleteTSR => [.deleteTSR s.txn.txnId env.deleteTSR.isNone]

theorem run_log (s : Sys) (env : Env) (i : Nat) (task : Task) :
    (s.run env i task).log = s.log ++ (s.taskEvents env task).map (Actor.goroutine, ·) := by
  cases task <;> simp [Sys.run, Sys.taskEvents]

/-- Only `Abort` changes the transaction, and it keeps the global datastore. -/
theorem run_tsrMaintainer (s : Sys) (env : Env) (i : Nat) (task : Task) :
    (s.run env i task).txn.tsrMaintainer = s.txn.tsrMaintainer := by
  cases task with
  | abort => exact abort_tsrMaintainer
  | _ => rfl

/-- `s` after the goroutine `task`, taken from `pending` at `i`, has panicked at its first
call through the nil `tsrMaintainer`; `Abort` has set ABORTED before it. -/
def Sys.runPanics (s : Sys) (env : Env) (i : Nat) (task : Task) : Sys :=
  { s with
    txn := if task = .abort then (s.txn.abort env).txn else s.txn
    pending := s.pending.eraseIdx i
    panicked := true }

/-- A goroutine can run: the `DeleteTSR` of `AsyncLevelTwo` waits in `wg.Wait()` for every
`ds.Commit()` launched with it. -/
def Task.Ready (s : Sys) : Task → Prop
  | .deleteTSR => ∀ ds, Task.commit ds ∉ s.pending
  | _ => True

/-- Answers the collaborators can give in `s`: every loop over `dataStoreMap` visits each
participant once, and `CreateTSR` inserts only into an empty TSR slot. -/
structure Env.Fits (env : Env) (s : Sys) : Prop where
  order : env.order.Perm s.txn.dataStoreMap.names
  commitOrder : env.commitOrder.Perm s.txn.dataStoreMap.names
  createTSR : env.createTSR = none → s.tsr = none

/-- One step of a run. -/
inductive Step (cfg : Config) : Sys → Sys → Prop
  /-- A call of the owner. -/
  | call {s : Sys} (c : Call) (env : Env) : env.Fits s →
      ¬s.txn.Panics (s.txn.call cfg env c).events → Step cfg s (s.call cfg env c)
  /-- A call of the owner panics on the nil `tsrMaintainer`. -/
  | callPanics {s : Sys} (c : Call) (env : Env) : env.Fits s →
      s.txn.Panics (s.txn.call cfg env c).events → Step cfg s (s.callPanics cfg env c)
  /-- A launched goroutine runs. -/
  | run {s : Sys} (i : Nat) (task : Task) (env : Env) : s.pending[i]? = some task →
      task.Ready s → env.Fits s → ¬s.txn.Panics (s.taskEvents env task) →
      Step cfg s (s.run env i task)
  /-- A launched goroutine panics on the nil `tsrMaintainer`. -/
  | runPanics {s : Sys} (i : Nat) (task : Task) (env : Env) : s.pending[i]? = some task →
      task.Ready s → env.Fits s → s.txn.Panics (s.taskEvents env task) →
      Step cfg s (s.runPanics env i task)
  /-- A reader of another transaction seizes the empty TSR slot of `TxnId`. -/
  | race {s : Sys} : s.txn.state ≠ .empty → s.tsr = none →
      Step cfg s { s with tsr := some .aborted }

/-- The states of the runs under the configuration `cfg`. -/
inductive Reachable (cfg : Config) : Sys → Prop
  | init : Reachable cfg Sys.init
  | step {s s' : Sys} : Reachable cfg s → Step cfg s s' → Reachable cfg s'

/-- A state reached from a reachable one is reachable. -/
theorem Reachable.steps {cfg : Config} {s s' : Sys} (h : Reachable cfg s)
    (hss : Relation.ReflTransGen (Step cfg) s s') : Reachable cfg s' := by
  induction hss with
  | refl => exact h
  | tail _ hs ih => exact ih.step hs

/-! ## Panics -/

section Panics

variable {s : Sys} {cfg : Config} {env : Env} {c : Call} {i : Nat} {task : Task}

@[simp] theorem callPanics_txn : (s.callPanics cfg env c).txn = (s.txn.call cfg env c).txn := rfl
@[simp] theorem callPanics_tsr : (s.callPanics cfg env c).tsr = s.tsr := rfl
@[simp] theorem callPanics_pending : (s.callPanics cfg env c).pending = s.pending := rfl
@[simp] theorem callPanics_calls : (s.callPanics cfg env c).calls = s.calls := rfl
@[simp] theorem callPanics_panicked : (s.callPanics cfg env c).panicked = true := rfl
@[simp] theorem runPanics_tsr : (s.runPanics env i task).tsr = s.tsr := rfl
@[simp] theorem runPanics_pending : (s.runPanics env i task).pending = s.pending.eraseIdx i := rfl
@[simp] theorem runPanics_log : (s.runPanics env i task).log = s.log := rfl
@[simp] theorem runPanics_calls : (s.runPanics env i task).calls = s.calls := rfl
@[simp] theorem runPanics_panicked : (s.runPanics env i task).panicked = true := rfl

/-- What an owner's call that panics leaves: a `Commit` from STARTED has called the
`Prepare` of every participant of `order`, each answering `nil`, and left COMMITTED; an
`Abort` has called nothing and left ABORTED. -/
theorem callPanics_cases (hp : s.txn.Panics (s.txn.call cfg env c).events) :
    s.txn.tsrMaintainer = none ∧
      ((c = .commit ∧ s.txn.state = .started ∧
        (s.callPanics cfg env c).txn =
          { s.txn with state := .committed, txnCommitTime := (env.getTime "commit").1 } ∧
        (s.callPanics cfg env c).log =
          s.log ++ env.order.map fun ds => (.owner, .prepare ds true)) ∨
      (c = .abort ∧ s.txn.state.canMoveTo .aborted = true ∧
        (s.callPanics cfg env c).txn = { s.txn with state := .aborted } ∧
        (s.callPanics cfg env c).log = s.log)) := by
  refine ⟨hp.1, ?_⟩
  rcases call_panics hp with ⟨rfl, hs, hr, hw⟩ | ⟨rfl, hm, hw⟩
  · refine .inl ⟨rfl, hs, by simp [Transaction.call, commit_txn, hs, hr], ?_⟩
    simp only [Sys.callPanics, hw, List.map_map]
    rfl
  · refine .inr ⟨rfl, hm, ?_, by simp [Sys.callPanics, hw]⟩
    simp only [callPanics_txn, Transaction.call, abort_txn, hm, if_true]

/-- What a goroutine that panics leaves: an `Abort` the state machine accepted has left
ABORTED, or a `DeleteTSR` has left the transaction alone. -/
theorem runPanics_cases (hp : s.txn.Panics (s.taskEvents env task)) :
    s.txn.tsrMaintainer = none ∧
      ((task = .abort ∧ s.txn.state.canMoveTo .aborted = true ∧
        (s.runPanics env i task).txn = { s.txn with state := .aborted }) ∨
      (task = .deleteTSR ∧ (s.runPanics env i task).txn = s.txn)) := by
  obtain ⟨hn, e, he, hT⟩ := hp
  refine ⟨hn, ?_⟩
  cases task with
  | abort =>
    have hm := (abort_events he).1
    exact .inl ⟨rfl, hm, by simp [Sys.runPanics, abort_txn, hm]⟩
  | deleteTSR => exact .inr ⟨rfl, rfl⟩
  | commitPhase => simp [Sys.taskEvents] at he
  | commit ds =>
    obtain rfl := List.mem_singleton.1 he
    cases hT

end Panics

/-! ## A run -/

/-- The owner sets up a transaction over the one participant `"r"`, also the global
datastore, and starts it, every collaborator answering `nil`. -/
def startedRun (cfg : Config) : Sys :=
  ((Sys.init.call cfg (Env.nil []) (.setGlobalDatastore "r")).call cfg (Env.nil [])
    (.addDatastore "r")).call cfg (Env.nil ["r"]) .start

/-- `startedRun` followed by one accepted `Write`. -/
def writingRun (cfg : Config) : Sys :=
  (startedRun cfg).call cfg (Env.nil ["r"]) (.write "r" "k")

theorem reachable_startedRun (cfg : Config) : Reachable cfg (startedRun cfg) :=
  ((Reachable.init.step (.call (.setGlobalDatastore "r") (Env.nil [])
      ⟨.nil, .nil, fun _ => rfl⟩ (not_panics_nil _))).step
    (.call (.addDatastore "r") (Env.nil []) ⟨.nil, .nil, fun _ => rfl⟩
      (not_panics_of_isSome (by rfl) _))).step
    (.call .start (Env.nil ["r"]) ⟨.refl _, .refl _, fun _ => rfl⟩ (not_panics_of_isSome (by rfl) _))

theorem reachable_writingRun (cfg : Config) : Reachable cfg (writingRun cfg) :=
  (reachable_startedRun cfg).step (.call (.write "r" "k") (Env.nil ["r"])
    ⟨.refl _, .refl _, fun _ => rfl⟩ (not_panics_of_isSome (by rfl) _))

end OreoTxn
