import OreoTxn.Transaction

/-!
# Commit

`Commit` moves the transaction to COMMITTED before anything else, and a read-only
transaction returns there. Otherwise it fetches the commit time, runs `Prepare` on every
participant (`prepareAll`), sequentially or in one goroutine each, and, when every
`Prepare` returned `nil`, reaches the sync point `CreateTSR(TxnId, COMMITTED)`. A failed
prepare phase and a failed sync point launch `go t.Abort()`. After the sync point the
commit phase follows `AsyncLevel`: at level 0 the participants commit and the TSR is
deleted before `Commit` returns, at level 1 the deletion is left to a goroutine, at
level 2 both are (`Task.commitPhase`).

`commit_prepared` says once what a `Commit` from STARTED does past the commit time, and
`commit_contract` derives from it the order of the calls `Commit` makes and when it
returns `nil`. A failed fetch of the commit time is the one error path that launches no
`Abort` and leaves the transaction COMMITTED (`commit_clock_error_launches_nothing`).
-/

namespace OreoTxn

/-! ## Configuration -/

/-- `config.Config.ConcurrentOptimizationLevel`. -/
inductive ConcurrentOptimizationLevel
  | default
  | parallelizeOnPrepare
  deriving DecidableEq, Repr

/-- `config.Config.AsyncLevel`; `Commit` treats any level but `AsyncLevelOne` and
`AsyncLevelTwo` as level 0. -/
inductive AsyncLevel
  | zero
  | one
  | two
  deriving DecidableEq, Repr

/-- The fields of `config.Config` that `Commit` reads. -/
structure Config where
  concurrentOptimizationLevel : ConcurrentOptimizationLevel
  asyncLevel : AsyncLevel
  deriving DecidableEq, Repr

/-! ## The prepare phase -/

/-- What the prepare phase has done so far: the `Prepare` calls made, and `success` and
`cause` as the closures set them under the mutex. -/
structure PrepareState where
  events : List Event
  success : Bool
  cause : Option String

/-- `prepareDatastore(ds)`: `ds.Prepare()`, and `success, cause = false, err` on an error. -/
def prepareDatastore (prepare : String → Option String) (st : PrepareState) (ds : String) :
    PrepareState :=
  match prepare ds with
  | some err => ⟨st.events ++ [.prepare ds false], false, some err⟩
  | none => ⟨st.events ++ [.prepare ds true], st.success, st.cause⟩

/-- `prepareDatastore` on each participant of `order`, from `success := true`. -/
def prepareAll (prepare : String → Option String) (order : List String) : PrepareState :=
  order.foldl (prepareDatastore prepare) ⟨[], true, none⟩

/-- From any start, the prepare loop adds one `Prepare` call per participant of `order`,
and keeps `success` exactly when the start had it and every call returned `nil`. -/
theorem foldl_prepareDatastore (prepare : String → Option String) :
    ∀ (order : List String) (st : PrepareState),
      (order.foldl (prepareDatastore prepare) st).events =
        st.events ++ order.map (fun ds => .prepare ds (prepare ds).isNone) ∧
      (order.foldl (prepareDatastore prepare) st).success =
        (st.success && order.all fun ds => (prepare ds).isNone)
  | [], st => by simp
  | ds :: order, st => by
    obtain ⟨he, hs⟩ := foldl_prepareDatastore prepare order (prepareDatastore prepare st ds)
    rw [List.foldl_cons, he, hs]
    unfold prepareDatastore
    cases h : prepare ds <;> simp [h]

theorem prepareAll_events (prepare : String → Option String) (order : List String) :
    (prepareAll prepare order).events = order.map fun ds => .prepare ds (prepare ds).isNone := by
  simp [prepareAll, (foldl_prepareDatastore prepare order _).1]

theorem prepareAll_success (prepare : String → Option String) (order : List String) :
    (prepareAll prepare order).success = order.all fun ds => (prepare ds).isNone := by
  simp [prepareAll, (foldl_prepareDatastore prepare order _).2]

/-- A `Prepare` call on `ds`. -/
def Event.isPrepareOf (ds : String) : Event → Bool
  | .prepare ds' _ => ds' == ds
  | _ => false

/-- `ds.Commit()` on each participant of `order`; the answers are dropped. -/
def commitDatastores (commit : String → Option String) (order : List String) : List Event :=
  order.map fun ds => .commit ds (commit ds).isNone

/-! ## Commit -/

/-- `Commit`. Both values of `ConcurrentOptimizationLevel` call `prepareDatastore` once per
participant: the loop in `range` order, the goroutines in the order they take the mutex;
`env.order` is either. This is the call with a global datastore set; with none, Go panics
at `t.CreateTSR`, after the prepare phase (`Sys.callPanics`). -/
def Transaction.commit (t : Transaction) (cfg : Config) (env : Env) : Outcome :=
  match t.setState .committed with
  | .error err => ⟨t, [], [], .error err⟩
  | .ok t =>
    if t.isReadOnly then ⟨t, [], [], .ok ()⟩
    else
      let t := { t with txnCommitTime := (env.getTime "commit").1 }
      match (env.getTime "commit").2 with
      | some err => ⟨t, [], [], .error (.passed err)⟩
      | none =>
        let p := match cfg.concurrentOptimizationLevel with
          | .parallelizeOnPrepare => prepareAll env.prepare env.order
          | .default => prepareAll env.prepare env.order
        if !p.success then ⟨t, p.events, [.abort], .error (.prepareFailed (p.cause.getD ""))⟩
        else
          let evs := p.events ++ [.createTSR t.txnId .committed env.createTSR.isNone]
          if env.createTSR.isSome then ⟨t, evs, [.abort], .error .abortedByOther⟩
          else
            match cfg.asyncLevel with
            | .two => ⟨t, evs, [.commitPhase], .ok ()⟩
            | .one => ⟨t, evs ++ commitDatastores env.commit env.commitOrder, [.deleteTSR], .ok ()⟩
            | .zero => ⟨t, evs ++ commitDatastores env.commit env.commitOrder ++
                [.deleteTSR t.txnId env.deleteTSR.isNone], [], .ok ()⟩

section Commit

variable {t : Transaction} {cfg : Config} {env : Env}

theorem commit_of_not_started (h : t.state ≠ .started) :
    t.commit cfg env = ⟨t, [], [], .error (.stateViolation t.state .committed)⟩ := by
  have : t.state.canMoveTo .committed = false := by rw [Bool.eq_false_iff]; simpa using h
  simp [Transaction.commit, setState_of_not this]

theorem commit_readOnly (hs : t.state = .started) (hr : t.isReadOnly = true) :
    t.commit cfg env = ⟨{ t with state := .committed }, [], [], .ok ()⟩ := by
  have : t.setState .committed = .ok { t with state := .committed } := by simp [hs]
  simp [Transaction.commit, this, hr]

theorem commit_clock_error {err : String} (hs : t.state = .started) (hr : t.isReadOnly = false)
    (hc : (env.getTime "commit").2 = some err) :
    t.commit cfg env = ⟨{ t with state := .committed, txnCommitTime := (env.getTime "commit").1 },
      [], [], .error (.passed err)⟩ := by
  have : t.setState .committed = .ok { t with state := .committed } := by simp [hs]
  simp [Transaction.commit, this, hr, hc]

/-- `Commit` from STARTED on a writing transaction, once the commit time is fetched: the
`Prepare` calls in `order`; then, if all returned `nil`, the sync point; then, if it
succeeded, the commit phase of `AsyncLevel`. The prepare phase and the sync point launch an
`Abort` when they fail. -/
theorem commit_prepared (hs : t.state = .started) (hr : t.isReadOnly = false)
    (hc : (env.getTime "commit").2 = none) :
    t.commit cfg env =
      let t' := { t with state := .committed, txnCommitTime := (env.getTime "commit").1 }
      let P := env.order.map fun ds => Event.prepare ds (env.prepare ds).isNone
      let sync := Event.createTSR t.txnId .committed env.createTSR.isNone
      if env.order.all (fun ds => (env.prepare ds).isNone) then
        if env.createTSR.isSome then ⟨t', P ++ [sync], [.abort], .error .abortedByOther⟩
        else match cfg.asyncLevel with
          | .two => ⟨t', P ++ [sync], [.commitPhase], .ok ()⟩
          | .one => ⟨t', P ++ [sync] ++ commitDatastores env.commit env.commitOrder,
              [.deleteTSR], .ok ()⟩
          | .zero => ⟨t', P ++ [sync] ++ commitDatastores env.commit env.commitOrder ++
              [.deleteTSR t.txnId env.deleteTSR.isNone], [], .ok ()⟩
      else ⟨t', P, [.abort],
        .error (.prepareFailed ((prepareAll env.prepare env.order).cause.getD ""))⟩ := by
  have : t.setState .committed = .ok { t with state := .committed } := by simp [hs]
  have hp : (match cfg.concurrentOptimizationLevel with
      | .parallelizeOnPrepare => prepareAll env.prepare env.order
      | .default => prepareAll env.prepare env.order) = prepareAll env.prepare env.order := by
    cases cfg.concurrentOptimizationLevel <;> rfl
  simp only [Transaction.commit, this, hr, hc, hp, prepareAll_success, prepareAll_events]
  cases env.order.all fun ds => (env.prepare ds).isNone <;> cases env.createTSR <;>
    cases cfg.asyncLevel <;> simp [hr]

/-- With a `Prepare` that failed, `Commit` makes only the `Prepare` calls. -/
theorem commit_events_of_not_all (hs : t.state = .started) (hr : t.isReadOnly = false)
    (hc : (env.getTime "commit").2 = none)
    (hall : (env.order.all fun d => (env.prepare d).isNone) = false) :
    (t.commit cfg env).events = (env.order.map fun d => .prepare d (env.prepare d).isNone) ∧
      (t.commit cfg env).launched = [.abort] ∧ (t.commit cfg env).result ≠ .ok () := by
  rw [commit_prepared hs hr hc]
  simp [hall]

/-- With every `Prepare` answering `nil`, `Commit` makes the `Prepare` calls, then the sync
point, then only participant `Commit`s and the `DeleteTSR`, and these only when the sync
point succeeded. -/
theorem commit_events_of_all (hs : t.state = .started) (hr : t.isReadOnly = false)
    (hc : (env.getTime "commit").2 = none)
    (hall : (env.order.all fun d => (env.prepare d).isNone) = true) :
    ∃ rest, (t.commit cfg env).events =
        (env.order.map fun d => .prepare d (env.prepare d).isNone) ++
        .createTSR t.txnId .committed env.createTSR.isNone :: rest ∧
      (∀ e ∈ rest, (∃ ds ok, e = .commit ds ok) ∨ ∃ ok, e = .deleteTSR t.txnId ok) ∧
      (env.createTSR.isSome → rest = [] ∧ (t.commit cfg env).launched = [.abort]) ∧
      ((t.commit cfg env).result = .ok () ↔ env.createTSR = none) := by
  rw [commit_prepared hs hr hc]
  cases hcr : env.createTSR with
  | some err => exact ⟨[], by simp [hall, hcr]⟩
  | none =>
    cases hl : cfg.asyncLevel
    · refine ⟨commitDatastores env.commit env.commitOrder ++
          [.deleteTSR t.txnId env.deleteTSR.isNone],
        by simp [hall, hcr, hl], fun e he => ?_, by simp, by simp [hall, hcr, hl]⟩
      simp only [commitDatastores, List.mem_append, List.mem_map, List.mem_singleton] at he
      rcases he with ⟨ds, -, rfl⟩ | rfl
      · exact .inl ⟨ds, _, rfl⟩
      · exact .inr ⟨_, rfl⟩
    · refine ⟨commitDatastores env.commit env.commitOrder, by simp [hall, hcr, hl], fun e he => ?_,
        by simp, by simp [hall, hcr, hl]⟩
      obtain ⟨ds, -, rfl⟩ := List.mem_map.1 he
      exact .inl ⟨ds, _, rfl⟩
    · exact ⟨[], by simp [hall, hcr, hl]⟩

/-- `Commit` calls a collaborator or launches a goroutine only from STARTED, on a writing
transaction, with the commit time fetched. -/
theorem commit_active (h : (t.commit cfg env).events ≠ [] ∨ (t.commit cfg env).launched ≠ []) :
    t.state = .started ∧ t.isReadOnly = false ∧ (env.getTime "commit").2 = none := by
  by_cases hs : t.state = .started
  · cases hr : t.isReadOnly
    · cases hc : (env.getTime "commit").2 with
      | some err => simp [commit_clock_error hs hr hc] at h
      | none => exact ⟨hs, rfl, rfl⟩
    · simp [commit_readOnly hs hr] at h
  · simp [commit_of_not_started hs] at h

/-- The calls `Commit` makes: `Prepare` on the participants of `order`, the sync point for
its own id, participant `Commit`s, and the `DeleteTSR` of its id. -/
theorem commit_events_kind {e : Event} (he : e ∈ (t.commit cfg env).events) :
    (∃ ds ∈ env.order, ∃ ok, e = .prepare ds ok) ∨ (∃ ok, e = .createTSR t.txnId .committed ok) ∨
      (∃ ds ok, e = .commit ds ok) ∨ ∃ ok, e = .deleteTSR t.txnId ok := by
  obtain ⟨hs, hr, hc⟩ := commit_active (.inl (List.ne_nil_of_mem he))
  have hP : ∀ e ∈ env.order.map (fun d => Event.prepare d (env.prepare d).isNone),
      ∃ ds ∈ env.order, ∃ ok, e = .prepare ds ok := by
    intro e he
    obtain ⟨ds, hds, rfl⟩ := List.mem_map.1 he
    exact ⟨ds, hds, _, rfl⟩
  cases hall : env.order.all fun d => (env.prepare d).isNone
  · rw [(commit_events_of_not_all hs hr hc hall).1] at he
    exact .inl (hP e he)
  · obtain ⟨rest, hev, hrest, -⟩ := commit_events_of_all hs hr hc hall
    rw [hev] at he
    rcases List.mem_append.1 he with he | he
    · exact .inl (hP e he)
    rcases List.mem_cons.1 he with rfl | he
    · exact .inr (.inl ⟨_, rfl⟩)
    · exact .inr (.inr (hrest e he))

/-- Until its sync point succeeded, `Commit` calls no participant's `Commit` and no
`DeleteTSR`, and launches at most `Abort`. -/
theorem commit_unsynced (h : Event.createTSR t.txnId .committed true ∉ (t.commit cfg env).events) :
    (∀ ds ok, Event.commit ds ok ∉ (t.commit cfg env).events) ∧
      (∀ id ok, Event.deleteTSR id ok ∉ (t.commit cfg env).events) ∧
      (t.commit cfg env).launched.Sublist [.abort] := by
  by_cases hact : (t.commit cfg env).events ≠ [] ∨ (t.commit cfg env).launched ≠ []
  · obtain ⟨hs, hr, hc⟩ := commit_active hact
    rw [commit_prepared hs hr hc] at h ⊢
    split_ifs at h ⊢ with hall hcr
    · simp
    · rw [Option.not_isSome_iff_eq_none.1 hcr] at h
      rcases cfg with ⟨_, _ | _ | _⟩ <;> simp at h
    · simp
  · simp only [ne_eq, not_or, not_not] at hact
    simp [hact]

/-- Once its sync point succeeded, what else `Commit` does is the commit phase of
`AsyncLevel`. -/
theorem commit_synced (h : Event.createTSR t.txnId .committed true ∈ (t.commit cfg env).events) :
    ∃ t', t.commit cfg env =
      let P := env.order.map fun ds => Event.prepare ds (env.prepare ds).isNone
      let sync := Event.createTSR t.txnId .committed true
      match cfg.asyncLevel with
      | .two => ⟨t', P ++ [sync], [.commitPhase], .ok ()⟩
      | .one => ⟨t', P ++ [sync] ++ commitDatastores env.commit env.commitOrder,
          [.deleteTSR], .ok ()⟩
      | .zero => ⟨t', P ++ [sync] ++ commitDatastores env.commit env.commitOrder ++
          [.deleteTSR t.txnId env.deleteTSR.isNone], [], .ok ()⟩ := by
  obtain ⟨hs, hr, hc⟩ := commit_active (.inl (List.ne_nil_of_mem h))
  rw [commit_prepared hs hr hc] at h ⊢
  split_ifs at h ⊢ with hall hcr
  · simp only [List.mem_append, List.mem_singleton, Event.createTSR.injEq, true_and] at h
    simp_all
  · rw [Option.not_isSome_iff_eq_none.1 hcr]
    exact ⟨_, rfl⟩
  · simp at h

/-- A participant's `Commit` comes after the sync point of `Commit` succeeded. -/
theorem commit_commits_after_sync :
    OnlyAfter (fun e => ∃ ds ok, e = Event.commit ds ok)
      (fun pre => Event.createTSR t.txnId .committed true ∈ pre) (t.commit cfg env).events := by
  by_cases hsync : Event.createTSR t.txnId .committed true ∈ (t.commit cfg env).events
  · obtain ⟨t', ht⟩ := commit_synced hsync
    rw [ht]
    cases cfg.asyncLevel <;> simp only [List.append_assoc, List.singleton_append] <;>
      exact onlyAfter_append_cons (forall_not_of_not_mem₂ (by simp)) (by simp) fun _ => by simp
  · exact onlyAfter_of_forall_not (forall_not_of_not_mem₂ (commit_unsynced hsync).1)

/-- `Commit` makes its `Prepare` calls before any other call. -/
theorem commit_prepares_first :
    OnlyAfter (fun e => ∃ ds ok, e = Event.prepare ds ok)
      (fun pre => ∀ e ∈ pre, ∃ ds ok, e = Event.prepare ds ok) (t.commit cfg env).events := by
  by_cases hne : (t.commit cfg env).events = []
  · exact hne ▸ onlyAfter_nil
  obtain ⟨hs, hr, hc⟩ := commit_active (.inl hne)
  have hP : OnlyAfter (fun e => ∃ ds ok, e = Event.prepare ds ok)
      (fun pre => ∀ e ∈ pre, ∃ ds ok, e = Event.prepare ds ok)
      (env.order.map fun d => Event.prepare d (env.prepare d).isNone) := fun l₁ x l₂ h _ e he => by
    obtain ⟨d, -, rfl⟩ := List.mem_map.1 (show e ∈ env.order.map _ by rw [h]; simp [he])
    exact ⟨d, _, rfl⟩
  cases hall : env.order.all fun d => (env.prepare d).isNone
  · rw [(commit_events_of_not_all hs hr hc hall).1]
    exact hP
  · obtain ⟨rest, he, hrest, -⟩ := commit_events_of_all hs hr hc hall
    rw [he]
    refine hP.append fun m₁ x m₂ h ⟨ds, ok, hx⟩ => ?_
    subst hx
    rcases List.mem_cons.1 (show Event.prepare ds ok ∈ _ :: rest by rw [h]; simp) with h' | h'
    · cases h'
    · rcases hrest _ h' with ⟨_, _, h''⟩ | ⟨_, h''⟩ <;> cases h''

/-- The sync point comes right after the `Prepare` calls, and only when all of them
succeeded. -/
theorem commit_sync_after_prepares :
    OnlyAfter (fun e => ∃ id st ok, e = Event.createTSR id st ok)
      (fun pre => ∀ e ∈ pre, ∃ ds, e = Event.prepare ds true) (t.commit cfg env).events := by
  by_cases hne : (t.commit cfg env).events = []
  · exact hne ▸ onlyAfter_nil
  obtain ⟨hs, hr, hc⟩ := commit_active (.inl hne)
  cases hall : env.order.all fun d => (env.prepare d).isNone
  · rw [(commit_events_of_not_all hs hr hc hall).1]
    exact onlyAfter_of_forall_not fun x hx ⟨_, _, _, h⟩ => by subst h; simp at hx
  · obtain ⟨rest, he, hrest, -⟩ := commit_events_of_all hs hr hc hall
    rw [he, ← List.singleton_append, ← List.append_assoc]
    refine (onlyAfter_append_singleton (fun x hx ⟨_, _, _, h⟩ => by subst h; simp at hx)
      fun e he => ?_).append fun m₁ x m₂ h ⟨id, st, ok, hx⟩ => ?_
    · obtain ⟨d, hd, rfl⟩ := List.mem_map.1 he
      exact ⟨d, by rw [List.all_eq_true.1 hall d hd]⟩
    · subst hx
      rcases hrest _ (show Event.createTSR id st ok ∈ rest by rw [h]; simp) with
        ⟨_, _, h'⟩ | ⟨_, h'⟩ <;> cases h'

/-- The goroutine of `AsyncLevelTwo` is launched only once the sync point succeeded. -/
theorem commit_commitPhase_launched (h : Task.commitPhase ∈ (t.commit cfg env).launched) :
    Event.createTSR t.txnId .committed true ∈ (t.commit cfg env).events := by
  by_contra hsync
  cases List.mem_singleton.1 ((commit_unsynced hsync).2.2.subset h)

/-- A participant of the map has one call among the `Prepare` calls of a permutation of the
map. -/
theorem countP_prepare_map {ds : String} (hperm : env.order.Perm t.dataStoreMap.names)
    (hds : ds ∈ t.dataStoreMap.names) (b : String → Bool) :
    (env.order.map fun d => Event.prepare d (b d)).countP (Event.isPrepareOf ds) = 1 := by
  have h : (Event.isPrepareOf ds ∘ fun d => Event.prepare d (b d)) = (· == ds) := by
    funext d
    simp [Event.isPrepareOf]
  rw [List.countP_map, h, ← List.count_eq_countP, hperm.count_eq,
    List.count_eq_one_of_mem t.dataStoreMap.nodup hds]

/-- When every `Prepare` returned `nil`, the calls hold a successful `Prepare` of every
participant. -/
theorem prepare_mem_map {ds : String} (hperm : env.order.Perm t.dataStoreMap.names)
    (hall : (env.order.all fun d => (env.prepare d).isNone) = true)
    (hds : ds ∈ t.dataStoreMap.names) :
    Event.prepare ds true ∈ env.order.map fun d => Event.prepare d (env.prepare d).isNone := by
  have hmem := hperm.mem_iff.2 hds
  have := List.all_eq_true.1 hall ds hmem
  exact List.mem_map.2 ⟨ds, hmem, by rw [this]⟩

/-- Every `Prepare` answered `nil` exactly when every participant's did. -/
theorem all_prepare_iff (hperm : env.order.Perm t.dataStoreMap.names) :
    (env.order.all fun d => (env.prepare d).isNone) = true ↔
      ∀ ds ∈ t.dataStoreMap.names, env.prepare ds = none := by
  simp [List.all_eq_true, hperm.mem_iff]

/-- Past the commit time, `Commit` calls `Prepare` once on every participant. -/
theorem commit_countP_prepare (hs : t.state = .started) (hr : t.isReadOnly = false)
    (hc : (env.getTime "commit").2 = none) (hperm : env.order.Perm t.dataStoreMap.names)
    {ds : String} (hds : ds ∈ t.dataStoreMap.names) :
    (t.commit cfg env).events.countP (Event.isPrepareOf ds) = 1 := by
  cases hall : env.order.all fun d => (env.prepare d).isNone
  · rw [(commit_events_of_not_all hs hr hc hall).1]
    exact countP_prepare_map hperm hds _
  · obtain ⟨rest, he, hrest, -⟩ := commit_events_of_all hs hr hc hall
    rw [he, List.countP_append, countP_prepare_map hperm hds, List.countP_cons,
      List.countP_eq_zero.2 fun e he => ?_]
    · simp [Event.isPrepareOf]
    · rcases hrest e he with ⟨_, _, rfl⟩ | ⟨_, rfl⟩ <;> simp [Event.isPrepareOf]

/-- The sync point comes after a successful `Prepare` of every participant. -/
theorem commit_sync_after_all_prepared (hs : t.state = .started) (hr : t.isReadOnly = false)
    (hc : (env.getTime "commit").2 = none) (hperm : env.order.Perm t.dataStoreMap.names) :
    OnlyAfter (fun e => ∃ id st ok, e = Event.createTSR id st ok)
      (fun pre => ∀ ds ∈ t.dataStoreMap.names, Event.prepare ds true ∈ pre)
      (t.commit cfg env).events := by
  cases hall : env.order.all fun d => (env.prepare d).isNone
  · rw [(commit_events_of_not_all hs hr hc hall).1]
    exact onlyAfter_of_forall_not fun x hx ⟨_, _, _, h⟩ => by subst h; simp at hx
  · obtain ⟨rest, he, -⟩ := commit_events_of_all hs hr hc hall
    rw [he]
    exact onlyAfter_append_of_prefix (fun x hx ⟨_, _, _, h⟩ => by subst h; simp at hx)
      fun m₁ ds hds => List.mem_append_left _ (prepare_mem_map hperm hall hds)

/-- The sync point of `Commit` is `CreateTSR(TxnId, COMMITTED)`. -/
theorem commit_createTSR_mem {id : String} {st : State} {ok : Bool}
    (h : Event.createTSR id st ok ∈ (t.commit cfg env).events) :
    id = t.txnId ∧ st = .committed := by
  rcases commit_events_kind h with ⟨_, _, _, h'⟩ | ⟨_, h'⟩ | ⟨_, _, h'⟩ | ⟨_, h'⟩ <;> cases h'
  exact ⟨rfl, rfl⟩

/-- `Commit` from STARTED returns `nil` exactly when the transaction is read-only, or the
commit time, every participant's `Prepare` and the sync point succeeded. -/
theorem commit_result_ok (hs : t.state = .started) (hperm : env.order.Perm t.dataStoreMap.names) :
    (t.commit cfg env).result = .ok () ↔ t.isReadOnly = true ∨
      ((env.getTime "commit").2 = none ∧ (∀ ds ∈ t.dataStoreMap.names, env.prepare ds = none) ∧
        env.createTSR = none) := by
  cases hr : t.isReadOnly
  · cases hc : (env.getTime "commit").2 with
    | some err => simp [commit_clock_error hs hr hc]
    | none =>
      cases hall : env.order.all fun d => (env.prepare d).isNone
      · have hnot : ¬∀ ds ∈ t.dataStoreMap.names, env.prepare ds = none := by
          rw [← all_prepare_iff hperm, hall]
          simp
        simp [(commit_events_of_not_all hs hr hc hall).2.2, hnot]
      · have hok : (t.commit cfg env).result = .ok () ↔ env.createTSR = none :=
          (commit_events_of_all hs hr hc hall).choose_spec.2.2.2
        simp only [hok, Bool.false_eq_true, false_or, true_and]
        exact ⟨fun h => ⟨(all_prepare_iff hperm).1 hall, h⟩, And.right⟩
  · simp [commit_readOnly hs hr]

/-- `Commit` from STARTED returns `nil` exactly when the transaction is read-only or its sync
point succeeded. -/
theorem commit_result_ok_iff_synced (hs : t.state = .started) :
    (t.commit cfg env).result = .ok () ↔
      t.isReadOnly = true ∨ Event.createTSR t.txnId .committed true ∈ (t.commit cfg env).events := by
  refine ⟨fun hok => ?_, ?_⟩
  · cases hr : t.isReadOnly
    · right
      cases hc : (env.getTime "commit").2 with
      | some err => simp [commit_clock_error hs hr hc] at hok
      | none =>
        cases hall : env.order.all fun d => (env.prepare d).isNone
        · exact absurd hok (commit_events_of_not_all hs hr hc hall).2.2
        · obtain ⟨rest, he, -, -, hiff⟩ := @commit_events_of_all t cfg env hs hr hc hall
          simp [he, hiff.1 hok]
    · exact .inl rfl
  · rintro (hr | hsync)
    · simp [commit_readOnly hs hr]
    · obtain ⟨t', ht⟩ := commit_synced hsync
      rw [ht]
      cases cfg.asyncLevel <;> rfl

/-- A `Commit` call made while STARTED. A read-only transaction calls nothing, and a
failed fetch of the commit time returns its error before any call. Otherwise `Prepare` is called once
on every participant, `CreateTSR(TxnId, COMMITTED)` only once every `Prepare` returned
`nil`, and a participant's `Commit`, by `Commit` itself or by the goroutine it launches,
only once that `CreateTSR` returned `nil`. `Commit` returns `nil` exactly when the
transaction is read-only or the commit time, every `Prepare` and the `CreateTSR`
succeeded. -/
theorem commit_contract (hs : t.state = .started) (hperm : env.order.Perm t.dataStoreMap.names) :
    (t.isReadOnly = true → (t.commit cfg env).events = [] ∧ (t.commit cfg env).launched = []) ∧
    (t.isReadOnly = false → ∀ err, (env.getTime "commit").2 = some err →
      (t.commit cfg env).result = .error (.passed err) ∧
        (t.commit cfg env).events = [] ∧ (t.commit cfg env).launched = []) ∧
    (t.isReadOnly = false → (env.getTime "commit").2 = none →
      (∀ ds ∈ t.dataStoreMap.names, (t.commit cfg env).events.countP (Event.isPrepareOf ds) = 1) ∧
      OnlyAfter (fun e => ∃ id st ok, e = Event.createTSR id st ok)
        (fun pre => ∀ ds ∈ t.dataStoreMap.names, Event.prepare ds true ∈ pre)
        (t.commit cfg env).events ∧
      (∀ id st ok, Event.createTSR id st ok ∈ (t.commit cfg env).events →
        id = t.txnId ∧ st = .committed) ∧
      OnlyAfter (fun e => ∃ ds ok, e = Event.commit ds ok)
        (fun pre => Event.createTSR t.txnId .committed true ∈ pre) (t.commit cfg env).events ∧
      (Task.commitPhase ∈ (t.commit cfg env).launched →
        Event.createTSR t.txnId .committed true ∈ (t.commit cfg env).events)) ∧
    ((t.commit cfg env).result = .ok () ↔ t.isReadOnly = true ∨
      ((env.getTime "commit").2 = none ∧ (∀ ds ∈ t.dataStoreMap.names, env.prepare ds = none) ∧
        env.createTSR = none)) := by
  refine ⟨fun hr => by simp [commit_readOnly hs hr],
    fun hr err herr => by simp [commit_clock_error hs hr herr],
    fun hr hc => ⟨fun ds => commit_countP_prepare hs hr hc hperm,
      commit_sync_after_all_prepared hs hr hc hperm, fun _ _ _ => commit_createTSR_mem,
      commit_commits_after_sync, commit_commitPhase_launched⟩, commit_result_ok hs hperm⟩

theorem commit_contract_one_participant :
    let t : Transaction := { newTransaction with
      dataStoreMap := ⟨["r"], List.nodup_singleton "r"⟩, isReadOnly := false, state := .started }
    t.state = .started ∧ (Env.nil ["r"]).order.Perm t.dataStoreMap.names ∧
      ((t.commit ⟨.default, .zero⟩ (Env.nil ["r"])).result = .ok () ↔ t.isReadOnly = true ∨
        (((Env.nil ["r"]).getTime "commit").2 = none ∧
          (∀ ds ∈ t.dataStoreMap.names, (Env.nil ["r"]).prepare ds = none) ∧
          (Env.nil ["r"]).createTSR = none)) :=
  ⟨rfl, List.Perm.refl _, (commit_contract rfl (List.Perm.refl _)).2.2.2⟩

/-- A writing transaction with the participant `"r"`, committed while its time source
fails: `Commit` calls no `Prepare` at all. -/
theorem commit_clock_error_prepares_nothing :
    let t : Transaction := { newTransaction with
      dataStoreMap := ⟨["r"], List.nodup_singleton "r"⟩, isReadOnly := false, state := .started }
    let env : Env := { Env.nil ["r"] with getTime := fun _ => (0, some "timeout") }
    env.order.Perm t.dataStoreMap.names ∧ "r" ∈ t.dataStoreMap.names ∧
      ((t.commit ⟨.default, .zero⟩ env).events.countP (Event.isPrepareOf "r") = 0) := by
  refine ⟨List.Perm.refl _, List.mem_singleton_self _, ?_⟩
  rw [commit_clock_error rfl rfl rfl]
  rfl

/-- The one error path of `Commit` that launches no `Abort`: a failed fetch of the commit
time returns its error and leaves the transaction COMMITTED. -/
theorem commit_clock_error_launches_nothing {err : String} (hs : t.state = .started)
    (hr : t.isReadOnly = false) (hc : (env.getTime "commit").2 = some err) :
    (t.commit cfg env).result = .error (.passed err) ∧ (t.commit cfg env).launched = [] ∧
      (t.commit cfg env).txn.state = .committed := by
  simp [commit_clock_error hs hr hc]

theorem commit_clock_error_launches_nothing_timeout :
    let t : Transaction := { newTransaction with
      dataStoreMap := ⟨["r"], List.nodup_singleton "r"⟩, isReadOnly := false, state := .started }
    let env : Env := { Env.nil ["r"] with getTime := fun _ => (0, some "timeout") }
    t.state = .started ∧ t.isReadOnly = false ∧ (env.getTime "commit").2 = some "timeout" ∧
      (t.commit ⟨.default, .zero⟩ env).launched = [] ∧
      (t.commit ⟨.default, .zero⟩ env).txn.state = .committed :=
  ⟨rfl, rfl, rfl, (commit_clock_error_launches_nothing rfl rfl rfl).2⟩

/-! ## What a `Commit` leaves for the runs -/

/-- `Commit` changes the transaction only from STARTED: to COMMITTED, with the commit time
when it is a writing one. -/
theorem commit_txn : (t.commit cfg env).txn =
    if t.state = .started then
      if t.isReadOnly then { t with state := .committed }
      else { t with state := .committed, txnCommitTime := (env.getTime "commit").1 }
    else t := by
  by_cases hs : t.state = .started
  · cases hr : t.isReadOnly
    · cases hc : (env.getTime "commit").2 with
      | some err => simp [commit_clock_error hs hr hc, hs, hr]
      | none =>
        rw [commit_prepared hs hr hc]
        simp only [hs, if_true, Bool.false_eq_true, if_false]
        split_ifs <;> (try split) <;> simp [hr]
    · simp [commit_readOnly hs hr, hs, hr]
  · simp [commit_of_not_started hs, hs]

theorem commit_mem_commitDatastores {commit : String → Option String} {order : List String}
    {ds : String} (hds : ds ∈ order) :
    Event.commit ds (commit ds).isNone ∈ commitDatastores commit order :=
  List.mem_map.2 ⟨ds, hds, rfl⟩

/-- The goroutines `Commit` launches. -/
theorem commit_launched_kind {task : Task} (h : task ∈ (t.commit cfg env).launched) :
    task = .abort ∨ task = .commitPhase ∨ task = .deleteTSR := by
  by_cases hsync : Event.createTSR t.txnId .committed true ∈ (t.commit cfg env).events
  · obtain ⟨t', ht⟩ := commit_synced hsync
    rw [ht] at h
    rcases cfg with ⟨_, _ | _ | _⟩ <;> simp at h <;> simp [h]
  · exact .inl (List.mem_singleton.1 ((commit_unsynced hsync).2.2.subset h))

/-- `Commit` launches at most one goroutine. -/
theorem commit_launched_length : (t.commit cfg env).launched.length ≤ 1 := by
  by_cases hsync : Event.createTSR t.txnId .committed true ∈ (t.commit cfg env).events
  · obtain ⟨t', ht⟩ := commit_synced hsync
    rw [ht]
    cases cfg.asyncLevel <;> simp
  · exact (commit_unsynced hsync).2.2.length_le

/-- A `Commit` that prepared a participant and made no successful sync point launches
`Abort`. -/
theorem commit_abort_launched {ds : String}
    (hp : Event.prepare ds true ∈ (t.commit cfg env).events)
    (hsync : Event.createTSR t.txnId .committed true ∉ (t.commit cfg env).events) :
    Task.abort ∈ (t.commit cfg env).launched := by
  obtain ⟨hs, hr, hc⟩ := commit_active (.inl (List.ne_nil_of_mem hp))
  cases hall : env.order.all fun d => (env.prepare d).isNone
  · simp [(@commit_events_of_not_all t cfg env hs hr hc hall).2.1]
  · obtain ⟨rest, he, -, hfail, -⟩ := @commit_events_of_all t cfg env hs hr hc hall
    cases hcr : env.createTSR with
    | some err => simp [(hfail (by simp [hcr])).2]
    | none => exact absurd (by rw [he]; simp [hcr]) hsync

/-- A `Commit` whose sync point succeeded launches no `Abort`. -/
theorem commit_abort_not_launched
    (h : Event.createTSR t.txnId .committed true ∈ (t.commit cfg env).events) :
    Task.abort ∉ (t.commit cfg env).launched := by
  obtain ⟨t', ht⟩ := commit_synced h
  rw [ht]
  cases cfg.asyncLevel <;> simp

/-- The `DeleteTSR` goroutine is launched once every participant of `commitOrder` has had
its `Commit` called. -/
theorem commit_deleteTSR_launched (h : Task.deleteTSR ∈ (t.commit cfg env).launched) :
    ∀ ds ∈ env.commitOrder, ∃ ok, Event.commit ds ok ∈ (t.commit cfg env).events := by
  by_cases hsync : Event.createTSR t.txnId .committed true ∈ (t.commit cfg env).events
  · obtain ⟨t', ht⟩ := commit_synced hsync
    rw [ht] at h ⊢
    intro ds hds
    rcases cfg with ⟨_, _ | _ | _⟩ <;> simp at h
    exact ⟨_, List.mem_append_right _ (commit_mem_commitDatastores hds)⟩
  · cases List.mem_singleton.1 ((commit_unsynced hsync).2.2.subset h)

/-- A `Commit` whose sync point succeeded calls the `Commit` of every participant of
`commitOrder` or launches the commit phase, and deletes the TSR or launches a goroutine that
will. -/
theorem commit_completes (h : Event.createTSR t.txnId .committed true ∈ (t.commit cfg env).events) :
    ((∀ ds ∈ env.commitOrder, ∃ ok, Event.commit ds ok ∈ (t.commit cfg env).events) ∨
        Task.commitPhase ∈ (t.commit cfg env).launched) ∧
      ((∃ ok, Event.deleteTSR t.txnId ok ∈ (t.commit cfg env).events) ∨
        Task.deleteTSR ∈ (t.commit cfg env).launched ∨
        Task.commitPhase ∈ (t.commit cfg env).launched) := by
  obtain ⟨t', ht⟩ := commit_synced h
  rw [ht]
  have hmem : ∀ {l : List Event}, ∀ ds ∈ env.commitOrder,
      ∃ ok, Event.commit ds ok ∈ l ++ commitDatastores env.commit env.commitOrder :=
    fun ds hds => ⟨_, List.mem_append_right _ (commit_mem_commitDatastores hds)⟩
  cases cfg.asyncLevel
  · exact ⟨.inl fun ds hds => (hmem ds hds).imp fun _ h => List.mem_append_left _ h,
      .inl ⟨env.deleteTSR.isNone, by simp⟩⟩
  · exact ⟨.inl hmem, .inr (.inl (by simp))⟩
  · exact ⟨.inr (by simp), .inr (.inr (by simp))⟩

/-- `Commit`'s own `DeleteTSR` comes after the `Commit` of every participant of
`commitOrder`. -/
theorem commit_deleteTSR_after_commits :
    OnlyAfter (fun e => ∃ id ok, e = Event.deleteTSR id ok)
      (fun pre => ∀ ds ∈ env.commitOrder, ∃ ok, Event.commit ds ok ∈ pre)
      (t.commit cfg env).events := by
  by_cases hsync : Event.createTSR t.txnId .committed true ∈ (t.commit cfg env).events
  · obtain ⟨t', ht⟩ := commit_synced hsync
    rw [ht]
    cases cfg.asyncLevel
    · exact onlyAfter_append_singleton (forall_not_of_not_mem₂ (by simp [commitDatastores]))
        fun ds hds => ⟨_, List.mem_append_right _ (commit_mem_commitDatastores hds)⟩
    · exact onlyAfter_of_forall_not (forall_not_of_not_mem₂ (by simp [commitDatastores]))
    · exact onlyAfter_of_forall_not (forall_not_of_not_mem₂ (by simp))
  · exact onlyAfter_of_forall_not (forall_not_of_not_mem₂ (commit_unsynced hsync).2.1)

end Commit

end OreoTxn
