import Mathlib

/-!
# The coordinator's data and calls

`Transaction` of `pkg/txn` runs one transaction over several participants (`Datastorer`s,
known here by the name `GetName` returns) and one global datastore, the `tsrMaintainer`,
that keeps the transaction status record (TSR). This file models its fields, the state
machine it embeds, and the calls of its owner but `Commit` (`Commit.lean`): `Start`,
`AddDatastore`, `AddDatastores`, `SetGlobalDatastore`, `Read`, `Write`, `Delete` and
`Abort`.

A call is a function of the transaction and of how its collaborators answer (`Env`). It
gives an `Outcome`: the transaction after the call, the calls it made on participants and
on the TSR with their answers (`Event`), in order, the goroutines it launched (`Task`), and
what it returned. Go's `range` over `dataStoreMap` visits the participants in no fixed
order; `Env.order` is the order of one call.

The embedded `StateMachine` is not in the source. `State.canMoveTo` takes its transitions
from the way the calls use it: EMPTY → STARTED, STARTED → COMMITTED, STARTED → ABORTED and
COMMITTED → ABORTED.

`OnlyAfter q P l` says that every event of a trace `l` satisfying `q` comes after a prefix
satisfying `P`; the ordering laws of later files are stated with it.
-/

namespace OreoTxn

/-! ## Traces -/

/-- Every element of `l` satisfying `q` is preceded by a prefix satisfying `P`. -/
def OnlyAfter {α : Type} (q : α → Prop) (P : List α → Prop) (l : List α) : Prop :=
  ∀ l₁ x l₂, l = l₁ ++ x :: l₂ → q x → P l₁

section OnlyAfter

variable {α : Type} {q : α → Prop} {P : List α → Prop}

theorem onlyAfter_of_forall_not {l : List α} (h : ∀ x ∈ l, ¬q x) : OnlyAfter q P l := by
  rintro l₁ x l₂ rfl hq
  exact absurd hq (h x (by simp))

theorem onlyAfter_nil : OnlyAfter q P [] :=
  onlyAfter_of_forall_not fun _ h => absurd h (List.not_mem_nil _)

/-- No element of `l` has the form `f a b` when no `f a b` is in `l`. -/
theorem forall_not_of_not_mem₂ {β γ : Type} {f : β → γ → α} {l : List α} (h : ∀ a b, f a b ∉ l) :
    ∀ x ∈ l, ¬∃ a b, x = f a b :=
  fun _ hx ⟨a, b, h'⟩ => h a b (h' ▸ hx)

/-- A trace extended by `m` keeps the law when every `q`-element of `m` is preceded, within
the whole trace, by a prefix satisfying `P`. -/
theorem OnlyAfter.append {l m : List α} (hl : OnlyAfter q P l)
    (hm : ∀ m₁ x m₂, m = m₁ ++ x :: m₂ → q x → P (l ++ m₁)) : OnlyAfter q P (l ++ m) := by
  intro l₁ x l₂ h hq
  rcases List.append_eq_append_iff.1 h with ⟨a', rfl, ha⟩ | ⟨c', rfl, hc⟩
  · exact hm a' x l₂ ha hq
  · cases c' with
    | nil => simpa using hm [] x l₂ (by simpa using hc.symm) hq
    | cons y c' =>
      obtain ⟨rfl, rfl⟩ := List.cons.inj hc
      exact hl l₁ x c' rfl hq

theorem onlyAfter_append_of_prefix {l m : List α} (hl : ∀ x ∈ l, ¬q x) (hP : ∀ m₁, P (l ++ m₁)) :
    OnlyAfter q P (l ++ m) :=
  (onlyAfter_of_forall_not hl).append fun m₁ _ _ _ _ => hP m₁

/-- A trace extended by one element keeps the law when that element, if it satisfies `q`,
comes after the whole trace satisfying `P`. -/
theorem OnlyAfter.append_singleton {l : List α} {x : α} (hl : OnlyAfter q P l) (hx : q x → P l) :
    OnlyAfter q P (l ++ [x]) :=
  hl.append fun m₁ _ _ h hq => by
    rcases List.cons_eq_append_iff.1 h with ⟨rfl, h'⟩ | ⟨a', -, h'⟩
    · obtain ⟨rfl, -⟩ := List.cons.inj h'
      simpa using hx hq
    · simp at h'

theorem onlyAfter_append_singleton {l : List α} {x : α} (hl : ∀ y ∈ l, ¬q y) (hP : P l) :
    OnlyAfter q P (l ++ [x]) :=
  (onlyAfter_of_forall_not hl).append_singleton fun _ => hP

theorem onlyAfter_append_cons {l m : List α} {x : α} (hl : ∀ y ∈ l, ¬q y) (hx : ¬q x)
    (hP : ∀ m₁, P (l ++ x :: m₁)) : OnlyAfter q P (l ++ x :: m) := by
  have hlx : ∀ y ∈ l ++ [x], ¬q y := fun y hy =>
    (List.mem_append.1 hy).elim (hl y) fun h => List.eq_of_mem_singleton h ▸ hx
  have h := onlyAfter_append_of_prefix (m := m) hlx fun m₁ => by
    rw [List.append_assoc, List.singleton_append]
    exact hP m₁
  rwa [List.append_assoc, List.singleton_append] at h

theorem OnlyAfter.mono {q' : α → Prop} {P' : List α → Prop} {l : List α} (h : OnlyAfter q P l)
    (hq : ∀ x, q' x → q x) (hP : ∀ pre, P pre → P' pre) : OnlyAfter q' P' l :=
  fun l₁ x l₂ hl hx => hP _ (h l₁ x l₂ hl (hq x hx))

/-- The prefix before an element of `l` is part of `l`. -/
theorem OnlyAfter.and_subset {l : List α} (h : OnlyAfter q P l) :
    OnlyAfter q (fun pre => P pre ∧ ∀ x ∈ pre, x ∈ l) l :=
  fun l₁ x l₂ hl hq => ⟨h l₁ x l₂ hl hq, fun _ hy => hl ▸ List.mem_append_left _ hy⟩

/-- The law carries over to the image of a trace. -/
theorem OnlyAfter.map {β : Type} {f : β → α} {l : List β}
    (h : OnlyAfter (fun y => q (f y)) (fun pre => P (pre.map f)) l) : OnlyAfter q P (l.map f) := by
  intro l₁ x l₂ hl hq
  obtain ⟨a, b, rfl, rfl, hb⟩ := List.map_eq_append_iff.1 hl
  obtain ⟨y, b', rfl, rfl, -⟩ := List.map_eq_cons_iff.1 hb
  exact h a y b' rfl hq

end OnlyAfter

/-! ## States and errors -/

/-- `config.State`: the states of a transaction, and the values of a TSR. -/
inductive State
  | empty
  | started
  | committed
  | aborted
  deriving DecidableEq, Repr, Inhabited

/-- The transitions of `StateMachine`, which is not in the source, as the calls of
`Transaction` use them: `Start` moves EMPTY to STARTED, `Commit` STARTED to COMMITTED, and
`Abort` STARTED to ABORTED. `Commit` launches `go t.Abort()` after its `SetState(COMMITTED)`,
and `Abort` sets `hasCommitted` when `lastState` is COMMITTED, so COMMITTED → ABORTED is a
transition too. `SetState` is given only the next state, so it allows that move to the
owner's `Abort()` as much as to the launched one. -/
def State.canMoveTo : State → State → Bool
  | .empty, .started => true
  | .started, .committed => true
  | .started, .aborted => true
  | .committed, .aborted => true
  | _, _ => false

/-- The errors the coordinator returns. -/
inductive TxnError
  /-- The state machine refused a transition or a state check. -/
  | stateViolation (current wanted : State)
  /-- Start's "global datastore not set". -/
  | globalNotSet
  /-- Start's "no datastores added". -/
  | noDatastores
  /-- AddDatastore's "duplicated datastore name". -/
  | duplicatedName
  /-- The "datastore not found" of `Read`, `Write` and `Delete`. -/
  | datastoreNotFound
  /-- An error of a participant or of the time source, returned as it is. -/
  | passed (err : String)
  /-- Commit's "prepare phase failed: " followed by the cause. -/
  | prepareFailed (cause : String)
  /-- Commit's "transaction is aborted by other transaction". -/
  | abortedByOther
  deriving DecidableEq, Repr, Inhabited

/-- A Go `error` from a collaborator, returned as the call's result. -/
def passErr : Option String → Except TxnError Unit
  | none => .ok ()
  | some err => .error (.passed err)

/-- The call failed its state check. -/
def IsStateViolation : Except TxnError Unit → Prop
  | .error (.stateViolation _ _) => True
  | _ => False

/-! ## Collaborators -/

/-- A call the coordinator makes on a participant or on the TSR, and whether it returned
`nil`. -/
inductive Event
  | start (ds : String) (ok : Bool)
  | read (ds key : String) (ok : Bool)
  | write (ds key : String) (ok : Bool)
  | delete (ds key : String) (ok : Bool)
  | prepare (ds : String) (ok : Bool)
  | commit (ds : String) (ok : Bool)
  | abort (ds : String) (hasCommitted ok : Bool)
  | createTSR (txnId : String) (txnState : State) (ok : Bool)
  | writeTSR (txnId : String) (txnState : State) (ok : Bool)
  | deleteTSR (txnId : String) (ok : Bool)
  deriving DecidableEq, Repr, Inhabited

/-- A goroutine the coordinator has launched and that has not run yet. -/
inductive Task
  /-- `go t.Abort()`. -/
  | abort
  /-- The goroutine of `AsyncLevelTwo`: `ds.Commit()` on every participant, then, after
  `wg.Wait()`, `DeleteTSR`. -/
  | commitPhase
  /-- One `go ds.Commit()` of that goroutine. -/
  | commit (ds : String)
  /-- The `go t.DeleteTSR()` of `AsyncLevelOne`, or the end of the `AsyncLevelTwo`
  goroutine. -/
  | deleteTSR
  deriving DecidableEq, Repr, Inhabited

/-- How the collaborators answer during one step; `none` is a `nil` error. -/
structure Env where
  /-- `config.Config.IdGenerator.GenerateId()`. -/
  generateId : String
  /-- `t.timeSource.GetTime(mode)`: the time and the error. -/
  getTime : String → Int × Option String
  start : String → Option String
  read : String → String → Option String
  write : String → String → Option String
  delete : String → String → Option String
  prepare : String → Option String
  commit : String → Option String
  abort : String → Option String
  /-- `ds.OnePhaseCommit()`. -/
  onePhaseCommit : String → Option String
  createTSR : Option String
  writeTSR : Option String
  deleteTSR : Option String
  /-- The order in which `range` visits `dataStoreMap`, or the goroutines of a parallel
  loop take its mutex. -/
  order : List String
  /-- The order in which the `ds.Commit()` goroutines run. -/
  commitOrder : List String

/-- Collaborators that answer every call with `nil`, visit the participants in `order`, and
give the id `"txn"` and the time `1`. -/
def Env.nil (order : List String) : Env where
  generateId := "txn"
  getTime := fun _ => (1, none)
  start := fun _ => none
  read := fun _ _ => none
  write := fun _ _ => none
  delete := fun _ _ => none
  prepare := fun _ => none
  commit := fun _ => none
  abort := fun _ => none
  onePhaseCommit := fun _ => none
  createTSR := none
  writeTSR := none
  deleteTSR := none
  order := order
  commitOrder := order

/-! ## The transaction -/

/-- The names of `dataStoreMap`; a Go map holds each name once. -/
structure DatastoreMap where
  names : List String
  nodup : names.Nodup

/-- `dataStoreMap[ds] = ds` for a name not in the map. -/
def DatastoreMap.insert (m : DatastoreMap) (ds : String) (h : ds ∉ m.names) : DatastoreMap :=
  ⟨ds :: m.names, List.Nodup.cons h m.nodup⟩

/-- The fields of `Transaction` that the local coordinator reads and writes. -/
structure Transaction where
  txnId : String
  txnStartTime : Int
  txnCommitTime : Int
  /-- The global datastore, by name; `nil` until `SetGlobalDatastore`. -/
  tsrMaintainer : Option String
  dataStoreMap : DatastoreMap
  isReadOnly : Bool
  /-- The state of the embedded `StateMachine`. -/
  state : State

/-- `NewTransaction`. -/
def newTransaction : Transaction where
  txnId := ""
  txnStartTime := 0
  txnCommitTime := 0
  tsrMaintainer := none
  dataStoreMap := ⟨[], List.nodup_nil⟩
  isReadOnly := true
  state := .empty

/-- What a call leaves behind: the transaction, the calls it made in order, the goroutines
it launched, and its result. -/
structure Outcome where
  txn : Transaction
  events : List Event
  launched : List Task
  result : Except TxnError Unit

/-- `SetState` of the absent `StateMachine`: it moves to `next` when the transition is
allowed, and fails with a state violation otherwise. -/
def Transaction.setState (t : Transaction) (next : State) : Except TxnError Transaction :=
  if t.state.canMoveTo next then .ok { t with state := next }
  else .error (.stateViolation t.state next)

/-- `CheckState` of the absent `StateMachine`: it fails with a state violation in any
state but `expected`. -/
def Transaction.checkState (t : Transaction) (expected : State) : Except TxnError Unit :=
  if t.state = expected then .ok () else .error (.stateViolation t.state expected)

@[simp] theorem setState_eq_ok {t t' : Transaction} {next : State} :
    t.setState next = .ok t' ↔ t.state.canMoveTo next = true ∧ t' = { t with state := next } := by
  unfold Transaction.setState
  split
  · rename_i h
    simp only [Except.ok.injEq, h, true_and]
    exact ⟨Eq.symm, Eq.symm⟩
  · simp_all

theorem setState_of_not {t : Transaction} {next : State} (h : t.state.canMoveTo next = false) :
    t.setState next = .error (.stateViolation t.state next) := by
  simp [Transaction.setState, h]

@[simp] theorem checkState_eq_ok {t : Transaction} {s : State} :
    t.checkState s = .ok () ↔ t.state = s := by
  unfold Transaction.checkState
  split <;> simp_all

/-- Only EMPTY moves to STARTED. -/
@[simp] theorem canMoveTo_started {s : State} : s.canMoveTo .started = true ↔ s = .empty := by
  cases s <;> decide

/-- Only STARTED moves to COMMITTED. -/
@[simp] theorem canMoveTo_committed {s : State} : s.canMoveTo .committed = true ↔ s = .started := by
  cases s <;> decide

/-- STARTED and COMMITTED move to ABORTED. -/
@[simp] theorem canMoveTo_aborted {s : State} :
    s.canMoveTo .aborted = true ↔ s = .started ∨ s = .committed := by
  cases s <;> decide

/-! ## Configuration calls -/

/-- `AddDatastore`; its `ds.SetTxn(t)` only sets the participant's back reference. -/
def Transaction.addDatastore (t : Transaction) (ds : String) : Transaction × Except TxnError Unit :=
  if h : ds ∈ t.dataStoreMap.names then (t, .error .duplicatedName)
  else ({ t with dataStoreMap := t.dataStoreMap.insert ds h }, .ok ())

/-- `AddDatastores`: `AddDatastore` on each, up to the first error. -/
def Transaction.addDatastores (t : Transaction) : List String → Transaction × Except TxnError Unit
  | [] => (t, .ok ())
  | ds :: dss =>
    match t.addDatastore ds with
    | (t, .error err) => (t, .error err)
    | (t, .ok ()) => t.addDatastores dss

/-- `SetGlobalDatastore`. -/
def Transaction.setGlobalDatastore (t : Transaction) (ds : String) : Transaction :=
  { t with tsrMaintainer := some ds }

/-- `AddDatastore` changes only the map, and only by adding a name. -/
theorem addDatastore_fst (t : Transaction) (ds : String) :
    ∃ m : DatastoreMap, (t.addDatastore ds).1 = { t with dataStoreMap := m } ∧
      t.dataStoreMap.names ⊆ m.names := by
  unfold Transaction.addDatastore
  split
  · exact ⟨t.dataStoreMap, rfl, List.Subset.refl _⟩
  · exact ⟨_, rfl, List.subset_cons_self _ _⟩

theorem addDatastores_fst (t : Transaction) :
    ∀ dss : List String,
      ∃ m : DatastoreMap, (t.addDatastores dss).1 = { t with dataStoreMap := m } ∧
        t.dataStoreMap.names ⊆ m.names
  | [] => ⟨t.dataStoreMap, rfl, List.Subset.refl _⟩
  | ds :: dss => by
    obtain ⟨m, hm, hsub⟩ := addDatastore_fst t ds
    unfold Transaction.addDatastores
    split
    · rename_i t' err h
      rw [Prod.ext_iff] at h
      exact ⟨m, by simp only at h; rw [← h.1, hm], hsub⟩
    · rename_i t' h
      rw [Prod.ext_iff] at h
      obtain ⟨m', hm', hsub'⟩ := addDatastores_fst t' dss
      simp only at h
      rw [h.1] at hm
      subst hm
      exact ⟨m', hm', hsub.trans hsub'⟩

/-! ## Start -/

/-- The loop of `Start`: `ds.Start()` on each participant of `order` up to the first
error. -/
def startDatastores (start : String → Option String) : List String → List Event × Option String
  | [] => ([], none)
  | ds :: rest =>
    match start ds with
    | some err => ([.start ds false], some err)
    | none =>
      ((Event.start ds true) :: (startDatastores start rest).1, (startDatastores start rest).2)

/-- `Start`. The state moves to STARTED before the checks. -/
def Transaction.start (t : Transaction) (env : Env) : Outcome :=
  match t.setState .started with
  | .error err => ⟨t, [], [], .error err⟩
  | .ok t =>
    if t.tsrMaintainer.isNone then ⟨t, [], [], .error .globalNotSet⟩
    else if t.dataStoreMap.names.isEmpty then ⟨t, [], [], .error .noDatastores⟩
    else
      let t := { t with txnId := env.generateId, txnStartTime := (env.getTime "start").1 }
      match (env.getTime "start").2 with
      | some err => ⟨t, [], [], .error (.passed err)⟩
      | none => ⟨t, (startDatastores env.start env.order).1, [],
          passErr (startDatastores env.start env.order).2⟩

section Start

variable {t : Transaction} {env : Env}

theorem startDatastores_mem {start : String → Option String} {e : Event} :
    ∀ {order : List String}, e ∈ (startDatastores start order).1 → ∃ ds ok, e = .start ds ok
  | [], h => by simp [startDatastores] at h
  | ds :: order, h => by
    unfold startDatastores at h
    cases hs : start ds with
    | some err => simp only [hs, List.mem_singleton] at h; exact ⟨ds, false, h⟩
    | none =>
      simp only [hs, List.mem_cons] at h
      exact h.elim (fun h => ⟨ds, true, h⟩) startDatastores_mem

/-- A loop that ends without an error started every participant, each answering `nil`. -/
theorem startDatastores_of_none {start : String → Option String} :
    ∀ {order : List String}, (startDatastores start order).2 = none →
      ∀ ds ∈ order, Event.start ds true ∈ (startDatastores start order).1
  | [], _ => by simp
  | ds :: order, h => by
    unfold startDatastores at h ⊢
    cases hs : start ds with
    | some err => simp [hs] at h
    | none =>
      simp only [hs] at h ⊢
      intro a ha
      rcases List.mem_cons.1 ha with rfl | ha
      · exact List.mem_cons_self _ _
      · exact List.mem_cons_of_mem _ (startDatastores_of_none h a ha)

/-- `Start` changes the transaction only from EMPTY: to STARTED, and, past the checks,
with the id and start time it fetched. -/
theorem start_txn : (t.start env).txn =
    if t.state = .empty then
      if t.tsrMaintainer.isNone ∨ t.dataStoreMap.names.isEmpty then { t with state := .started }
      else
        { t with
          state := .started
          txnId := env.generateId
          txnStartTime := (env.getTime "start").1 }
    else t := by
  unfold Transaction.start
  by_cases h : t.state = .empty
  · have : t.setState .started = .ok { t with state := .started } := by simp [h]
    rw [this]
    by_cases hg : t.tsrMaintainer.isNone = true
    · simp [h, hg]
    · by_cases hn : t.dataStoreMap.names.isEmpty = true
      · simp [h, hg, hn]
      · simp only [h, hg, hn, if_true, if_false, or_self]
        cases (env.getTime "start").2 <;> rfl
  · have : t.state.canMoveTo .started = false := by rw [Bool.eq_false_iff]; simpa using h
    simp [setState_of_not this, h]

theorem start_launched : (t.start env).launched = [] := by
  unfold Transaction.start
  split
  · rfl
  · split_ifs <;> (try split) <;> rfl

theorem start_events {e : Event} (h : e ∈ (t.start env).events) : ∃ ds ok, e = .start ds ok := by
  unfold Transaction.start at h
  split at h
  · simp at h
  · split_ifs at h
    · simp at h
    · simp at h
    · split at h
      · simp at h
      · exact startDatastores_mem h

/-- `Start` calls a participant only from EMPTY. -/
theorem start_active (h : (t.start env).events ≠ []) : t.state = .empty := by
  by_contra hne
  have : t.state.canMoveTo .started = false := by rw [Bool.eq_false_iff]; simpa using hne
  simp [Transaction.start, setState_of_not this] at h

/-- A `Start` that returns `nil` ran from EMPTY past both checks and started every
participant of `order`. -/
theorem start_ok (h : (t.start env).result = .ok ()) :
    t.state = .empty ∧ t.tsrMaintainer.isSome ∧ t.dataStoreMap.names ≠ [] ∧
      ∀ ds ∈ env.order, Event.start ds true ∈ (t.start env).events := by
  have hst : t.state = .empty := by
    by_contra hne
    have : t.state.canMoveTo .started = false := by rw [Bool.eq_false_iff]; simpa using hne
    simp [Transaction.start, setState_of_not this] at h
  have hset : t.setState .started = .ok { t with state := .started } := by simp [hst]
  simp only [Transaction.start, hset] at h ⊢
  split_ifs at h ⊢ with hg hn
  cases hc : (env.getTime "start").2 with
  | some err => simp [hc] at h
  | none =>
    simp only [hc] at h ⊢
    refine ⟨hst, by cases hm : t.tsrMaintainer <;> simp_all, by simpa using hn,
      startDatastores_of_none ?_⟩
    cases hr : (startDatastores env.start env.order).2 <;> simp_all [passErr]

end Start

/-! ## Read, Write, Delete -/

/-- What `Read`, `Write` and `Delete` share: check the state, mark the transaction as
writing for `Write` and `Delete`, and pass the call to the named participant. -/
def Transaction.dispatch (t : Transaction) (writes : Bool) (dsName : String)
    (answer : Option String) (event : Bool → Event) : Outcome :=
  match t.checkState .started with
  | .error err => ⟨t, [], [], .error err⟩
  | .ok () =>
    let t := if writes then { t with isReadOnly := false } else t
    if dsName ∈ t.dataStoreMap.names then ⟨t, [event answer.isNone], [], passErr answer⟩
    else ⟨t, [], [], .error .datastoreNotFound⟩

/-- `Read`; the value read is not modelled. -/
def Transaction.read (t : Transaction) (env : Env) (dsName key : String) : Outcome :=
  t.dispatch false dsName (env.read dsName key) (.read dsName key)

/-- `Write`. -/
def Transaction.write (t : Transaction) (env : Env) (dsName key : String) : Outcome :=
  t.dispatch true dsName (env.write dsName key) (.write dsName key)

/-- `Delete`. -/
def Transaction.delete (t : Transaction) (env : Env) (dsName key : String) : Outcome :=
  t.dispatch true dsName (env.delete dsName key) (.delete dsName key)

section Dispatch

variable {t : Transaction} {writes : Bool} {dsName : String} {answer : Option String}
  {event : Bool → Event}

theorem dispatch_txn : (t.dispatch writes dsName answer event).txn =
    if t.state = .started ∧ writes = true then { t with isReadOnly := false } else t := by
  unfold Transaction.dispatch
  by_cases h : t.state = .started
  · have : t.checkState .started = .ok () := by simp [h]
    rw [this]
    cases writes <;> simp only [h, true_and, if_true, if_false] <;> split_ifs <;> rfl
  · have : t.checkState .started = .error (.stateViolation t.state .started) := by
      simp [Transaction.checkState, h]
    simp [this, h]

/-- `Read`, `Write` and `Delete` fail their state check exactly outside STARTED. -/
theorem dispatch_stateViolation :
    IsStateViolation (t.dispatch writes dsName answer event).result ↔ t.state ≠ .started := by
  unfold Transaction.dispatch
  by_cases h : t.state = .started
  · have : t.checkState .started = .ok () := by simp [h]
    rw [this]
    dsimp only
    split_ifs <;> cases answer <;> simp [IsStateViolation, passErr, h]
  · have : t.checkState .started = .error (.stateViolation t.state .started) := by
      simp [Transaction.checkState, h]
    simp [this, IsStateViolation, h]

theorem dispatch_launched : (t.dispatch writes dsName answer event).launched = [] := by
  unfold Transaction.dispatch
  split
  · rfl
  · dsimp only
    split_ifs <;> rfl

/-- `Read`, `Write` and `Delete` call a participant only from STARTED. -/
theorem dispatch_active (h : (t.dispatch writes dsName answer event).events ≠ []) :
    t.state = .started := by
  by_contra hne
  have : t.checkState .started = .error (.stateViolation t.state .started) := by
    simp [Transaction.checkState, hne]
  simp [Transaction.dispatch, this] at h

theorem dispatch_events {e : Event} (h : e ∈ (t.dispatch writes dsName answer event).events) :
    e = event answer.isNone := by
  unfold Transaction.dispatch at h
  split at h
  · simp at h
  · dsimp only at h
    split_ifs at h <;> simp_all

end Dispatch

/-! ## Abort -/

/-- `Abort`: set the TSR to ABORTED and tell every participant to abort, with
`hasCommitted` when the transaction was COMMITTED; their answers are only logged. This is
the call with a global datastore set; with none, Go panics at `t.WriteTSR`, after
`SetState(ABORTED)` (`Sys.callPanics`, `Sys.runPanics`). -/
def Transaction.abort (t : Transaction) (env : Env) : Outcome :=
  let lastState := t.state
  match t.setState .aborted with
  | .error err => ⟨t, [], [], .error err⟩
  | .ok t =>
    let hasCommitted := lastState == .committed
    ⟨t, .writeTSR t.txnId .aborted env.writeTSR.isNone ::
        env.order.map (fun ds => .abort ds hasCommitted (env.abort ds).isNone), [], .ok ()⟩

/-- `Abort` either fails the state check and changes nothing, or sets the state to ABORTED,
writes the ABORTED TSR and calls `Abort` on every participant. -/
theorem abort_eq (t : Transaction) (env : Env) : t.abort env =
    if t.state.canMoveTo .aborted then
      ⟨{ t with state := .aborted }, .writeTSR t.txnId .aborted env.writeTSR.isNone ::
        env.order.map (fun ds => .abort ds (t.state == .committed) (env.abort ds).isNone),
        [], .ok ()⟩
    else ⟨t, [], [], .error (.stateViolation t.state .aborted)⟩ := by
  unfold Transaction.abort
  split_ifs with h
  · have : t.setState .aborted = .ok { t with state := .aborted } := by simp [h]
    rw [this]
  · rw [setState_of_not (Bool.eq_false_iff.2 h)]

section Abort

variable {t : Transaction} {env : Env}

/-- `Abort` changes only the state, to ABORTED, and only from STARTED or COMMITTED. -/
theorem abort_txn : (t.abort env).txn =
    if t.state.canMoveTo .aborted then { t with state := .aborted } else t := by
  rw [abort_eq]
  split_ifs <;> rfl

theorem abort_state : (t.abort env).txn.state = .aborted ∨ (t.abort env).txn.state = t.state := by
  rw [abort_txn]
  split_ifs <;> simp

/-- Once COMMITTED or ABORTED, a transaction stays so through `Abort`. -/
theorem abort_decided (h : t.state = .committed ∨ t.state = .aborted) :
    (t.abort env).txn.state = .committed ∨ (t.abort env).txn.state = .aborted :=
  abort_state.elim .inr fun h' => h' ▸ h

theorem abort_dataStoreMap : (t.abort env).txn.dataStoreMap = t.dataStoreMap := by
  rw [abort_txn]
  split_ifs <;> rfl

theorem abort_tsrMaintainer : (t.abort env).txn.tsrMaintainer = t.tsrMaintainer := by
  rw [abort_txn]
  split_ifs <;> rfl

/-- `Abort` makes only `WriteTSR(TxnId, ABORTED)` and participant `Abort`s, these telling
whether the transaction was COMMITTED, and only from STARTED or COMMITTED. -/
theorem abort_events {e : Event} (h : e ∈ (t.abort env).events) :
    t.state.canMoveTo .aborted = true ∧ ((∃ ok, e = .writeTSR t.txnId .aborted ok) ∨
      ∃ ds ok, e = .abort ds (t.state == .committed) ok) := by
  rw [abort_eq] at h
  split_ifs at h with hm
  · refine ⟨hm, ?_⟩
    rcases List.mem_cons.1 h with rfl | h
    · exact .inl ⟨_, rfl⟩
    · obtain ⟨ds, -, rfl⟩ := List.mem_map.1 h
      exact .inr ⟨ds, _, rfl⟩
  · simp at h

/-- An `Abort` the state machine accepts calls `Abort` on every participant of `order`. -/
theorem abort_sends_all (hm : t.state.canMoveTo .aborted = true) {ds : String}
    (hds : ds ∈ env.order) : ∃ hc ok, Event.abort ds hc ok ∈ (t.abort env).events := by
  rw [abort_eq, if_pos hm]
  exact ⟨_, _, List.mem_cons_of_mem _ (List.mem_map_of_mem _ hds)⟩

theorem abort_launched : (t.abort env).launched = [] := by
  rw [abort_eq]
  split_ifs <;> rfl

end Abort

end OreoTxn
