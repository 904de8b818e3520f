import OreoTxn.CommitPoint
import OreoTxn.CommitPhase

/-!
# The TSR after the commit point

A reader that finds no TSR for a PREPARED record past its lease rolls the record back. The
TSR `CreateTSR` writes at the commit point is COMMITTED, and it stays so until the `Commit` of
every participant the transaction prepared has returned, unless the owner's `Abort()`
overwrites it with ABORTED (`tsr_committed_until_commits_return`).

`Durable` holds in the initial state and is kept by every kind of step, given `AbortInv` and
`DeleteInv`, hence in every reachable state (`durable_reachable`).

Before the commit point the TSR slot is empty or ABORTED: a reader that finds it empty may
seize it with ABORTED and roll the transaction's records back. That decision is final
(`aborted_tsr_final`): `CreateTSR` inserts only into an empty slot, `Abort` only writes
ABORTED, and `DeleteTSR`, with every goroutine that could make it, comes only after the
commit point (`AfterPointInv`). So from such a state no continuation of the run reaches the
commit point, and no participant's `Commit()` is ever called.
-/

namespace OreoTxn

/-! ## The invariant -/

/-- The TSR is COMMITTED, or the owner's `Abort()` has written ABORTED over it. -/
def TSRCommitted (s : Sys) : Prop :=
  s.tsr = some .committed ∨ ∃ id, (Actor.owner, Event.writeTSR id .aborted true) ∈ s.log

/-- After the commit point, while a participant the transaction prepared has not had its
`Commit` return, the TSR is COMMITTED unless the owner's `Abort()` overwrote it. -/
def Durable (s : Sys) : Prop :=
  CommitPoint s.log → ¬CommitsReturned s.log → TSRCommitted s

theorem foldl_applyTSR_of_forall {es : List Event} {tsr : Option State}
    (h : ∀ e ∈ es, ∀ x, applyTSR x e = x) : es.foldl applyTSR tsr = tsr := by
  induction es generalizing tsr with
  | nil => rfl
  | cons e es ih =>
    rw [List.foldl_cons, h e (List.mem_cons_self _ _),
      ih fun e he => h e (List.mem_cons_of_mem _ he)]

section Steps

variable {s : Sys} {cfg : Config} {env : Env}

/-- When its sync point succeeds, `Commit` leaves the TSR COMMITTED, unless it has itself
called the `Commit` of every participant of `commitOrder`. -/
theorem commit_tsr {t : Transaction}
    (h : Event.createTSR t.txnId .committed true ∈ (t.commit cfg env).events) (tsr : Option State) :
    (t.commit cfg env).events.foldl applyTSR tsr = some .committed ∨
      ∀ ds ∈ env.commitOrder, ∃ ok, Event.commit ds ok ∈ (t.commit cfg env).events := by
  obtain ⟨hs, hr, hc⟩ := commit_active (.inl (List.ne_nil_of_mem h))
  have hP : ∀ tsr, (env.order.map fun ds => Event.prepare ds (env.prepare ds).isNone).foldl
      applyTSR tsr = tsr := fun _ => foldl_applyTSR_of_forall fun e he x => by
    obtain ⟨_, -, rfl⟩ := List.mem_map.1 he
    rfl
  have hC : ∀ tsr, (commitDatastores env.commit env.commitOrder).foldl applyTSR tsr = tsr :=
    fun _ => foldl_applyTSR_of_forall fun e he x => by
      obtain ⟨_, -, rfl⟩ := List.mem_map.1 he
      rfl
  rw [commit_prepared hs hr hc] at h ⊢
  split_ifs at h ⊢ with hall hcr
  · simp at h
    simp [h] at hcr
  · have hsync : env.createTSR.isNone = true := by simpa using hcr
    cases cfg.asyncLevel
    · exact .inr fun ds hds =>
        ⟨_, List.mem_append_left _ (List.mem_append_right _ (commit_mem_commitDatastores hds))⟩
    · simp [List.foldl_append, hP, hC, hsync, applyTSR]
    · simp [List.foldl_append, hP, hsync, applyTSR]
  · simp at h

/-- A call other than a `Commit` from STARTED leaves the TSR alone, unless it is an `Abort`
that writes ABORTED. -/
theorem call_tsr {t : Transaction} {c : Call} (hact : ¬(c = .commit ∧ t.state = .started))
    (tsr : Option State) :
    (t.call cfg env c).events.foldl applyTSR tsr = tsr ∨
      ∃ id, Event.writeTSR id .aborted true ∈ (t.call cfg env c).events := by
  by_cases hw : ∃ id, Event.writeTSR id .aborted true ∈ (t.call cfg env c).events
  · exact .inr hw
  refine .inl (foldl_applyTSR_of_forall fun e he x => ?_)
  cases e with
  | createTSR => exact absurd (call_commit_of_mem he trivial) hact
  | deleteTSR => exact absurd (call_commit_of_mem he trivial) hact
  | writeTSR id st ok =>
    cases ok
    · rfl
    · have h := makes_of_mem_call he
      cases c <;> simp [Call.Makes] at h
      exact absurd ⟨id, h ▸ he⟩ hw
  | _ => rfl

/-- A step that reaches no new commit point, keeps `CommitsReturned`, extends the log, and
leaves the TSR alone unless the owner writes ABORTED keeps durability. -/
theorem Durable.of_frame (hd : Durable s) {s' : Sys} (hcp : CommitPoint s'.log → CommitPoint s.log)
    (hcr : CommitsReturned s.log → CommitsReturned s'.log) (hlog : s.log ⊆ s'.log)
    (htsr : s'.tsr = s.tsr ∨ ∃ id, (Actor.owner, Event.writeTSR id .aborted true) ∈ s'.log) :
    Durable s' := fun h₁ h₂ => by
  rcases htsr with htsr | htsr
  · rcases hd (hcp h₁) (mt hcr h₂) with h | ⟨id, h⟩
    · exact .inl (htsr.trans h)
    · exact .inr ⟨id, hlog h⟩
  · exact .inr htsr

/-- The owner's call keeps durability. A `Commit` from STARTED reaches the commit point from
an empty TSR slot and leaves it COMMITTED, or calls every participant's `Commit` itself;
any other call reaches no commit point, prepares nothing, and writes the TSR only as
`Abort` does. -/
theorem durable_call (hd : Durable s) (ha : AbortInv s) (hdel : DeleteInv s) (hfit : env.Fits s)
    (c : Call) : Durable (s.call cfg env c) := by
  by_cases hact : c = .commit ∧ s.txn.state = .started
  · obtain ⟨rfl, hs⟩ := hact
    intro hcp hncr
    have hno : ¬CommitPoint s.log := fun h => by
      rcases (ha.point h).2 with h' | h' <;> rw [hs] at h' <;> cases h'
    have hnp : ∀ ds, ¬Prepared s.log ds := fun ds h => by
      rcases (hdel.prepared ds h).2 with h' | h' <;> rw [hs] at h' <;> cases h'
    obtain ⟨id, hsync⟩ := commitPoint_map.1 ((commitPoint_append.1 hcp).resolve_left hno)
    obtain ⟨rfl, -⟩ := commit_createTSR_mem hsync
    rcases commit_tsr hsync s.tsr with h | h
    · exact .inl h
    · exact absurd (commitsReturned_of_commitOrder hfit hnp (fun _ h => h) h) hncr
  have hev : ∀ e ∈ (s.txn.call cfg env c).events, ¬e.OfCommit := fun e he hk =>
    hact (call_commit_of_mem he hk)
  refine hd.of_frame (fun h => ?_) (fun h ds hds => ?_) (List.subset_append_left _ _) ?_
  · refine (commitPoint_append.1 h).resolve_right fun h => ?_
    obtain ⟨id, h⟩ := commitPoint_map.1 h
    exact hev _ h trivial
  · rcases prepared_append.1 hds with hds | hds
    · exact (h ds hds).append _
    · exact absurd trivial (hev _ (prepared_map.1 hds))
  · rcases call_tsr hact s.tsr with h | ⟨id, h⟩
    · exact .inl h
    · exact .inr ⟨id, List.mem_append_right _ (List.mem_map_of_mem _ h)⟩

/-- A launched goroutine keeps durability: a pending `Abort` means no commit point, and a
`DeleteTSR` runs once the `Commit` of every prepared participant has returned. -/
theorem durable_run (hd : Durable s) (ha : AbortInv s) (hdel : DeleteInv s) {i : Nat}
    {task : Task} (hget : s.pending[i]? = some task) (hready : task.Ready s) :
    Durable (s.run env i task) := by
  have hmem : task ∈ s.pending := List.getElem?_mem hget
  cases task with
  | abort =>
    intro hcp
    rcases commitPoint_append.1 hcp with h | h
    · exact absurd hmem (ha.point h).1
    · obtain ⟨id, h⟩ := commitPoint_map.1 h
      obtain ⟨-, ⟨_, h'⟩ | ⟨_, _, h'⟩⟩ := abort_events h <;> cases h'
  | commitPhase => exact hd
  | commit ds =>
    refine hd.of_frame (fun h => ?_) (fun h d hp => ?_) (List.subset_append_left _ _) (.inl rfl)
    · exact (commitPoint_append.1 h).resolve_right (by simp [CommitPoint])
    · exact (h d ((prepared_append.1 hp).resolve_right (by simp [Prepared]))).append _
  | deleteTSR =>
    refine fun _ hncr => absurd (fun d hp => ?_) hncr
    have hp' := (prepared_append.1 hp).resolve_right (by simp [Prepared])
    exact ((hdel.waiting hmem d hp').resolve_right (hready d)).append _

/-- An owner's call that panics keeps durability: a `Commit` from STARTED panics before the
commit point, and an `Abort` makes no call. -/
theorem durable_callPanics (hd : Durable s) (ha : AbortInv s) {c : Call}
    (hp : s.txn.Panics (s.txn.call cfg env c).events) : Durable (s.callPanics cfg env c) := by
  rcases (callPanics_cases hp).2 with ⟨-, hs, -, -⟩ | ⟨-, -, -, hlog⟩
  · intro hcp
    rcases (ha.point ((commitPoint_callPanics hp).1 hcp)).2 with h | h <;> rw [hs] at h <;>
      cases h
  · exact hd.of_frame (hlog ▸ id) (hlog ▸ id) (hlog ▸ List.Subset.refl _) (.inl rfl)

end Steps

theorem durable_reachable {cfg : Config} {s : Sys} (h : Reachable cfg s) : Durable s := by
  induction h with
  | init => exact fun h => by simp [Sys.init, CommitPoint] at h
  | step hr hs ih =>
    have ha := abortInv_reachable hr
    have hdel := deleteInv_reachable hr
    cases hs with
    | call c env hfit => exact durable_call ih ha hdel hfit c
    | callPanics c env _ hp => exact durable_callPanics ih ha hp
    | run i task env hget hready _ => exact durable_run ih ha hdel hget hready
    | runPanics => exact ih
    | race _ htsr => exact fun h₁ h₂ => .inr ((ih h₁ h₂).resolve_left (by rw [htsr]; simp))

/-- After the commit point, while a participant the transaction prepared has not had its
`Commit` return, the TSR is COMMITTED, unless the owner's `Abort()` has written ABORTED over
it: a reader never finds the TSR missing for a committed transaction whose record may still
be PREPARED. -/
theorem tsr_committed_until_commits_return {cfg : Config} {s : Sys} (h : Reachable cfg s)
    (hcp : CommitPoint s.log) {ds : String} (hds : Prepared s.log ds)
    (hnc : ¬CommitReturned s.log ds) :
    s.tsr = some .committed ∨ ∃ id, (Actor.owner, Event.writeTSR id .aborted true) ∈ s.log :=
  durable_reachable h hcp fun hall => hnc (hall ds hds)

theorem tsr_committed_until_commits_return_two :
    ((writingRun ⟨.default, .two⟩).call ⟨.default, .two⟩ (Env.nil ["r"]) .commit).tsr =
        some .committed ∨
      ∃ id, (Actor.owner, Event.writeTSR id .aborted true) ∈
        ((writingRun ⟨.default, .two⟩).call ⟨.default, .two⟩ (Env.nil ["r"]) .commit).log :=
  tsr_committed_until_commits_return
    ((reachable_writingRun _).step (.call .commit _ ⟨.refl _, .refl _, fun _ => rfl⟩
      (not_panics_of_isSome (by rfl) _)))
    ⟨.owner, "txn", by decide⟩ (show Prepared _ "r" from ⟨.owner, by decide⟩)
    fun ⟨a, ok, h⟩ => by cases a <;> cases ok <;> revert h <;> decide

/-! ## Before the commit point: an ABORTED TSR is final -/

/-- Participant `Commit`s and `DeleteTSR`s, and every goroutine but `Abort`, come only after
the commit point. -/
structure AfterPointInv (s : Sys) : Prop where
  log : (∃ a ds ok, (a, Event.commit ds ok) ∈ s.log) ∨
    (∃ a id ok, (a, Event.deleteTSR id ok) ∈ s.log) → CommitPoint s.log
  pending : (∃ task ∈ s.pending, task ≠ .abort) → CommitPoint s.log

/-- The invariant holds wherever the commit point has been reached. -/
theorem AfterPointInv.of_commitPoint {s : Sys} (h : CommitPoint s.log) : AfterPointInv s :=
  ⟨fun _ => h, fun _ => h⟩

/-- A step that makes no participant `Commit` and no `DeleteTSR`, and launches nothing but
`Abort`, keeps the invariant. -/
theorem AfterPointInv.of_quiet {s s' : Sys} (hi : AfterPointInv s) {es : List Event} {a : Actor}
    (hlog : s'.log = s.log ++ es.map (a, ·)) (hcommit : ∀ ds ok, Event.commit ds ok ∉ es)
    (hdel : ∀ id ok, Event.deleteTSR id ok ∉ es)
    (hpend : ∀ task ∈ s'.pending, task ≠ .abort → task ∈ s.pending) : AfterPointInv s' := by
  have hold : ∀ {x : Actor × Event}, x ∈ s'.log → x.2 ∉ es → x ∈ s.log := fun hx hn => by
    rw [hlog, List.mem_append, List.mem_map] at hx
    exact hx.resolve_right fun ⟨e, he, h⟩ => hn (h ▸ he)
  have hcp : CommitPoint s.log → CommitPoint s'.log := fun h => hlog ▸ h.append _
  refine ⟨fun h => hcp (hi.log ?_), fun ⟨t, ht, hne⟩ => hcp (hi.pending ⟨t, hpend t ht hne, hne⟩)⟩
  rcases h with ⟨a, ds, ok, h⟩ | ⟨a, id, ok, h⟩
  · exact .inl ⟨a, ds, ok, hold h (hcommit ds ok)⟩
  · exact .inr ⟨a, id, ok, hold h (hdel id ok)⟩

theorem afterPointInv_reachable {cfg : Config} {s : Sys} (h : Reachable cfg s) :
    AfterPointInv s := by
  induction h with
  | init => exact ⟨fun h => by simp [Sys.init] at h, fun h => by simp [Sys.init] at h⟩
  | @step s _ _ hs ih =>
    cases hs with
    | call c env _ =>
      by_cases hcp : CommitPoint (s.call cfg env c).log
      · exact .of_commitPoint hcp
      have hsync : Event.createTSR s.txn.txnId .committed true ∉ (s.txn.call cfg env c).events :=
        fun h => hcp (commitPoint_append.2 (.inr (commitPoint_map.2 ⟨_, h⟩)))
      by_cases hact : c = .commit ∧ s.txn.state = .started
      · obtain ⟨rfl, -⟩ := hact
        obtain ⟨h₁, h₂, h₃⟩ := commit_unsynced hsync
        exact ih.of_quiet rfl h₁ h₂ fun _ ht hne => (List.mem_append.1 ht).resolve_right
          fun h => hne (List.mem_singleton.1 (h₃.subset h))
      · exact ih.of_quiet rfl (fun _ _ h => hact (call_commit_of_mem h trivial))
          (fun _ _ h => hact (call_commit_of_mem h trivial)) fun _ ht _ =>
          (List.mem_append.1 ht).resolve_right fun h =>
            hact ⟨(call_launched h).1, (call_launched h).2.1⟩
    | callPanics c env _ hp =>
      have hprep : ∀ e ∈ (s.txn.call cfg env c).events.takeWhile (fun e => !e.isTSR),
          ∃ ds, e = .prepare ds true := fun e he => by
        rcases call_panics hp with ⟨-, -, -, hw⟩ | ⟨-, -, hw⟩ <;> rw [hw] at he
        · obtain ⟨ds, -, rfl⟩ := List.mem_map.1 he
          exact ⟨ds, rfl⟩
        · cases he
      refine ih.of_quiet rfl (fun _ _ h => ?_) (fun _ _ h => ?_) fun _ ht _ => ht <;>
        obtain ⟨_, h'⟩ := hprep _ h <;> cases h'
    | run i task env hget _ _ =>
      have hmem := List.getElem?_mem hget
      cases task with
      | abort =>
        refine ih.of_quiet rfl (fun _ _ h => ?_) (fun _ _ h => ?_)
          fun _ ht _ => List.mem_of_mem_eraseIdx ht
        all_goals obtain ⟨-, ⟨_, h'⟩ | ⟨_, _, h'⟩⟩ := abort_events h <;> cases h'
      | commitPhase => exact .of_commitPoint (ih.pending ⟨_, hmem, by simp⟩)
      | commit ds => exact .of_commitPoint ((ih.pending ⟨_, hmem, by simp⟩).append _)
      | deleteTSR => exact .of_commitPoint ((ih.pending ⟨_, hmem, by simp⟩).append _)
    | runPanics i task env _ _ _ _ =>
      exact ⟨ih.log, fun ⟨t, ht, hne⟩ => ih.pending ⟨t, List.mem_of_mem_eraseIdx ht, hne⟩⟩
    | race _ => exact ⟨ih.log, ih.pending⟩

/-- Calls each of which leaves the TSR alone or writes ABORTED keep an ABORTED TSR, and make
no sync point. -/
theorem keeps_aborted {es : List Event} {a : Actor} {l : List (Actor × Event)}
    (h : ∀ e ∈ es, ∀ x, applyTSR x e = x ∨ applyTSR x e = some .aborted) (hnp : ¬CommitPoint l) :
    es.foldl applyTSR (some .aborted) = some .aborted ∧ ¬CommitPoint (l ++ es.map (a, ·)) := by
  refine ⟨?_, fun hcp => (commitPoint_append.1 hcp).elim hnp fun hcp => ?_⟩
  · induction es with
    | nil => rfl
    | cons e es ih =>
      have he : applyTSR (some .aborted) e = some .aborted :=
        (h e (List.mem_cons_self _ _) _).elim id id
      rw [List.foldl_cons, he, ih fun e he => h e (List.mem_cons_of_mem _ he)]
  · obtain ⟨id, hm⟩ := commitPoint_map.1 hcp
    rcases h _ hm none with h' | h' <;> cases h'

section Taken

variable {cfg : Config} {env : Env}

/-- A `Commit` whose `CreateTSR` finds the slot taken leaves the TSR alone. -/
theorem commit_tsr_of_taken {t : Transaction} (hcr : env.createTSR.isSome = true) :
    ∀ e ∈ (t.commit cfg env).events, ∀ x, applyTSR x e = x := by
  intro e he x
  obtain ⟨hs, hr, hc⟩ := commit_active (.inl (List.ne_nil_of_mem he))
  have hP : ∀ e ∈ env.order.map (fun d => Event.prepare d (env.prepare d).isNone),
      applyTSR x e = x := fun e he => by
    obtain ⟨_, -, rfl⟩ := List.mem_map.1 he
    rfl
  cases hall : env.order.all fun d => (env.prepare d).isNone
  · rw [(@commit_events_of_not_all t cfg env hs hr hc hall).1] at he
    exact hP e he
  · obtain ⟨rest, hev, -, hfail, -⟩ := @commit_events_of_all t cfg env hs hr hc hall
    rw [hev, (hfail hcr).1] at he
    rcases List.mem_append.1 he with he | he
    · exact hP e he
    · obtain ⟨err, herr⟩ := Option.isSome_iff_exists.1 hcr
      simp [List.mem_singleton.1 he, herr, applyTSR]

/-- While the TSR slot is taken, every call the owner's call makes leaves the TSR alone or
writes ABORTED. -/
theorem call_tsr_of_taken {t : Transaction} {c : Call} (hcr : env.createTSR.isSome = true) :
    ∀ e ∈ (t.call cfg env c).events, ∀ x, applyTSR x e = x ∨ applyTSR x e = some .aborted := by
  intro e he x
  by_cases hact : c = .commit ∧ t.state = .started
  · obtain ⟨rfl, -⟩ := hact
    exact .inl (commit_tsr_of_taken hcr e he x)
  cases e with
  | createTSR => exact absurd (call_commit_of_mem he trivial) hact
  | deleteTSR => exact absurd (call_commit_of_mem he trivial) hact
  | writeTSR id st ok =>
    have h := makes_of_mem_call he
    cases c <;> simp [Call.Makes] at h
    subst h
    cases ok <;> simp [applyTSR]
  | _ => exact .inl rfl

end Taken

/-- One step from a reachable state whose TSR is ABORTED before the commit point keeps the
TSR ABORTED and reaches no commit point: `CreateTSR` finds the slot taken, and no goroutine
but `Abort` can be pending. -/
theorem abortedTSR_step {cfg : Config} {s s' : Sys} (hi : AfterPointInv s)
    (htsr : s.tsr = some .aborted) (hnp : ¬CommitPoint s.log) (hs : Step cfg s s') :
    s'.tsr = some .aborted ∧ ¬CommitPoint s'.log := by
  cases hs with
  | call c env hfit =>
    have hcr : env.createTSR.isSome = true := by
      cases h : env.createTSR with
      | none => simp [hfit.createTSR h] at htsr
      | some _ => rfl
    simpa only [Sys.call, htsr] using keeps_aborted (call_tsr_of_taken hcr) hnp
  | run i task env hget _ _ =>
    cases task with
    | abort =>
      have hev : ∀ e ∈ (s.txn.abort env).events, ∀ x,
          applyTSR x e = x ∨ applyTSR x e = some .aborted := fun e he x => by
        obtain ⟨-, ⟨ok, rfl⟩ | ⟨_, _, rfl⟩⟩ := abort_events he
        · cases ok <;> simp [applyTSR]
        · exact .inl rfl
      simpa only [Sys.run, htsr] using keeps_aborted hev hnp
    | _ => exact absurd (hi.pending ⟨_, List.getElem?_mem hget, by simp⟩) hnp
  | callPanics c env _ hp => exact ⟨htsr, mt (commitPoint_callPanics hp).1 hnp⟩
  | runPanics => exact ⟨htsr, hnp⟩
  | race _ h => simp [htsr] at h

/-- Once the TSR slot holds ABORTED before the commit point, as a reader that found it
empty leaves it, every continuation of the run keeps it ABORTED and never reaches the commit
point, and no participant's `Commit()` is ever called. -/
theorem aborted_tsr_final {cfg : Config} {s s' : Sys} (h : Reachable cfg s)
    (htsr : s.tsr = some .aborted) (hnp : ¬CommitPoint s.log)
    (hss : Relation.ReflTransGen (Step cfg) s s') :
    s'.tsr = some .aborted ∧ ¬CommitPoint s'.log ∧ ∀ a ds ok, (a, Event.commit ds ok) ∉ s'.log := by
  have hkeep : s'.tsr = some .aborted ∧ ¬CommitPoint s'.log := by
    induction hss with
    | refl => exact ⟨htsr, hnp⟩
    | tail hss hs ih =>
      exact abortedTSR_step (afterPointInv_reachable (h.steps hss)) ih.1 ih.2 hs
  exact ⟨hkeep.1, hkeep.2, fun a ds ok hc =>
    hkeep.2 ((afterPointInv_reachable (h.steps hss)).log (.inl ⟨a, ds, ok, hc⟩))⟩

/-- A reader seizes the empty TSR slot of a writing transaction; the owner's `Commit` then
finds the slot taken, and the `Abort` it launches runs. -/
theorem aborted_tsr_final_raced :
    let s := { writingRun ⟨.default, .zero⟩ with tsr := some .aborted }
    let env : Env := { Env.nil ["r"] with createTSR := some "exists" }
    let s' := (s.call ⟨.default, .zero⟩ env .commit).run env 0 .abort
    Reachable ⟨.default, .zero⟩ s ∧ s.tsr = some .aborted ∧ ¬CommitPoint s.log ∧
      Relation.ReflTransGen (Step ⟨.default, .zero⟩) s s' ∧
      (s'.tsr = some .aborted ∧ ¬CommitPoint s'.log ∧
        ∀ a ds ok, (a, Event.commit ds ok) ∉ s'.log) := by
  intro s env s'
  have hr : Reachable ⟨.default, .zero⟩ s := (reachable_writingRun _).step (.race (by decide) rfl)
  have hlog : s.log = [(.owner, .start "r" true), (.owner, .write "r" "k" true)] := rfl
  have hnp : ¬CommitPoint s.log := by
    rw [hlog]
    rintro ⟨a, id, h⟩
    simp at h
  have hss : Relation.ReflTransGen (Step ⟨.default, .zero⟩) s s' :=
    (Relation.ReflTransGen.single (.call .commit env ⟨.refl _, .refl _, nofun⟩
      (not_panics_of_isSome (by rfl) _))).tail
      (.run 0 .abort env rfl trivial ⟨.refl _, .refl _, nofun⟩ (not_panics_of_isSome (by rfl) _))
  exact ⟨hr, rfl, hnp, hss, aborted_tsr_final hr rfl hnp hss⟩

end OreoTxn
