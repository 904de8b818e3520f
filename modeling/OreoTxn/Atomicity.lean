import OreoTxn.CommitOnce
import OreoTxn.AbortOnce
import OreoTxn.Durability
import OreoTxn.Completion
import OreoTxn.Refinement

/-!
# All or nothing

What the coordinator is for. Once no goroutine it launched can run any more, the
participants it prepared have all been committed or all been rolled back
(`prepared_all_or_nothing`). If the commit point was reached, each has had its `Commit()`
called exactly once and was never told to roll back; otherwise each has been sent `Abort()`
exactly once and has had no `Commit()` called. This holds under every `AsyncLevel`, every
order of the goroutines, a reader seizing the TSR slot, and any answers of the participants,
in a run where no call has panicked on a nil `tsrMaintainer`.

The commit phase does not look at what a participant's `Commit()` returned: one whose
`Commit()` failed has had no other, and the TSR is deleted all the same
(`deleteTSR_despite_failed_commit`).

The result adds no invariant of its own. It reads the end state through those of
`Completion.lean` (what is owed is pending, so nothing is owed), `Durability.lean` (no
participant `Commit` before the commit point), `CommitOnce.lean` and `AbortOnce.lean` (no
call twice) and `Refinement.lean` (the protocol never tells a committed participant to roll
back).
-/

namespace OreoTxn

@[simp] theorem Event.commitOf_eq_some {e : Event} {ds : String} :
    e.commitOf = some ds ↔ ∃ ok, e = .commit ds ok := by
  cases e <;> simp [Event.commitOf, eq_comm]

@[simp] theorem Event.abortOf_eq_some {e : Event} {ds : String} :
    e.abortOf = some ds ↔ ∃ hc ok, e = .abort ds hc ok := by
  cases e <;> simp [Event.abortOf, eq_comm]

theorem mem_committedIn {l : List (Actor × Event)} {ds : String} :
    ds ∈ committedIn l ↔ CommitReturned l ds := by
  simp only [committedIn, List.mem_filterMap, Prod.exists, Event.commitOf_eq_some, CommitReturned]
  exact ⟨fun ⟨a, _, hx, ok, h⟩ => ⟨a, ok, h ▸ hx⟩, fun ⟨a, ok, h⟩ => ⟨a, _, h, ok, rfl⟩⟩

/-- In a list without repetition after `f`, two elements that `f` sends to the same value are
the same. -/
theorem eq_of_nodup_filterMap {α β : Type} {f : α → Option β} :
    ∀ {l : List α}, (l.filterMap f).Nodup → ∀ {x y : α} {b : β}, x ∈ l → y ∈ l →
      f x = some b → f y = some b → x = y
  | [], _, _, _, _, hx, _, _, _ => nomatch hx
  | z :: l, hl, x, y, b, hx, hy, hxb, hyb => by
    have hz : ∀ {w}, w ∈ l → f w = some b → f z = some b → False := fun hw hwb hzb => by
      rw [List.filterMap_cons_some hzb, List.nodup_cons] at hl
      exact hl.1 (List.mem_filterMap.2 ⟨_, hw, hwb⟩)
    rcases List.mem_cons.1 hx with rfl | hx' <;> rcases List.mem_cons.1 hy with rfl | hy'
    · rfl
    · exact (hz hy' hyb hxb).elim
    · exact (hz hx' hxb hyb).elim
    · exact eq_of_nodup_filterMap (hl.sublist ((List.sublist_cons_self z l).filterMap f)) hx' hy'
        hxb hyb

theorem mem_abortedIn {l : List (Actor × Event)} {ds : String} :
    ds ∈ abortedIn l ↔ AbortSent l ds := by
  simp only [abortedIn, List.mem_filterMap, Prod.exists, Event.abortOf_eq_some, AbortSent]
  exact ⟨fun ⟨a, _, hx, hc, ok, h⟩ => ⟨a, hc, ok, h ▸ hx⟩,
    fun ⟨a, hc, ok, h⟩ => ⟨a, _, h, hc, ok, rfl⟩⟩

/-- Atomic commitment at quiescence: when no launched goroutine can run and no call has
panicked, a participant the transaction prepared has had its `Commit()` called exactly once
and was never told to roll back, if the commit point was reached; otherwise it has been sent
`Abort()` exactly once and has had no `Commit()` called. -/
theorem prepared_all_or_nothing {cfg : Config} {s : Sys} (h : Reachable cfg s)
    (hstuck : ∀ s', ¬GoroutineStep s s') (hok : s.panicked = false) {ds : String}
    (hds : Prepared s.log ds) :
    (CommitPoint s.log ∧ (committedIn s.log).count ds = 1 ∧ ¬RolledBack s.log ds) ∨
      (¬CommitPoint s.log ∧ (abortedIn s.log).count ds = 1 ∧ ds ∉ committedIn s.log) := by
  have hnil : s.pending = [] :=
    Classical.byContradiction fun hne => (exists_goroutineStep hne).elim hstuck
  by_cases hcp : CommitPoint s.log
  · have hc : CommitReturned s.log ds := by
      simpa [hnil] using (completeInv_reachable h).commits hcp ds hds
    have hnodup := (commitOnceInv_reachable h).nodup.sublist (List.sublist_append_left _ _)
    refine .inl ⟨hcp, List.count_eq_one_of_mem hnodup (mem_committedIn.2 hc), fun hr => ?_⟩
    exact Protocol.accepts_not_committed_rolledBack (refineInv_reachable h).accepts ds
      ⟨Protocol.mem_committed_view.2 hc, Protocol.mem_rolledBack_view.2 hr⟩
  · have ha : AbortSent s.log ds := by
      simpa [hnil] using (rollbackInv_reachable h).owed hok hcp ds hds
    refine .inr ⟨hcp, List.count_eq_one_of_mem (abortOnceInv_reachable h).nodup
      (mem_abortedIn.2 ha), fun hc => ?_⟩
    obtain ⟨a, ok, hc⟩ := mem_committedIn.1 hc
    exact hcp ((afterPointInv_reachable h).log (.inl ⟨a, ds, ok, hc⟩))

/-- A reader seizes the empty TSR slot; the owner's `Commit` prepares the participant, finds
the slot taken, and the `Abort` it launches runs. -/
theorem prepared_all_or_nothing_raced :
    let env : Env := { Env.nil ["r"] with createTSR := some "exists" }
    let s := ({ writingRun ⟨.default, .zero⟩ with tsr := some .aborted }.call
      ⟨.default, .zero⟩ env .commit).run env 0 .abort
    Reachable ⟨.default, .zero⟩ s ∧ (∀ s', ¬GoroutineStep s s') ∧ s.panicked = false ∧
      Prepared s.log "r" ∧
      ((CommitPoint s.log ∧ (committedIn s.log).count "r" = 1 ∧ ¬RolledBack s.log "r") ∨
        (¬CommitPoint s.log ∧ (abortedIn s.log).count "r" = 1 ∧ "r" ∉ committedIn s.log)) := by
  intro env s
  have hr : Reachable ⟨.default, .zero⟩ s :=
    (((reachable_writingRun ⟨.default, .zero⟩).step (.race (by decide) rfl)).step
      (.call .commit env ⟨.refl _, .refl _, nofun⟩ (not_panics_of_isSome (by rfl) _))).step
      (.run 0 .abort env rfl trivial ⟨.refl _, .refl _, nofun⟩ (not_panics_of_isSome (by rfl) _))
  have hp : s.pending = [] := rfl
  have hstuck : ∀ s', ¬GoroutineStep s s' := fun _ ⟨i, _, _, hget, _⟩ => by simp [hp] at hget
  have hlog : s.log = [(.owner, .start "r" true), (.owner, .write "r" "k" true),
      (.owner, .prepare "r" true), (.owner, .createTSR "txn" .committed false),
      (.goroutine, .writeTSR "txn" .aborted true), (.goroutine, .abort "r" true true)] := rfl
  have hprep : Prepared s.log "r" := ⟨.owner, by simp [hlog]⟩
  exact ⟨hr, hstuck, rfl, hprep, prepared_all_or_nothing hr hstuck rfl hprep⟩

/-! ## A participant whose `Commit()` fails -/

/-- The commit phase does not look at what a participant's `Commit()` returned. Once no
launched goroutine can run, a participant whose `Commit()` returned an error has had no
other `Commit()`, and the TSR has been deleted all the same: its record may still be
PREPARED with no TSR left, and a reader past its lease rolls it back. -/
theorem deleteTSR_despite_failed_commit {cfg : Config} {s : Sys} (h : Reachable cfg s)
    (hstuck : ∀ s', ¬GoroutineStep s s') {a : Actor} {ds : String}
    (hfail : (a, Event.commit ds false) ∈ s.log) :
    (∃ a id ok, (a, Event.deleteTSR id ok) ∈ s.log) ∧ ∀ a, (a, Event.commit ds true) ∉ s.log := by
  have hnil : s.pending = [] :=
    Classical.byContradiction fun hne => (exists_goroutineStep hne).elim hstuck
  have hcp : CommitPoint s.log := (afterPointInv_reachable h).log (.inl ⟨a, ds, false, hfail⟩)
  have hnodup : (committedIn s.log).Nodup :=
    (commitOnceInv_reachable h).nodup.sublist (List.sublist_append_left _ _)
  refine ⟨by simpa [hnil] using (completeInv_reachable h).deleted hcp, fun a' hok => ?_⟩
  cases eq_of_nodup_filterMap hnodup hfail hok rfl rfl

/-- At `AsyncLevelZero` the participant's `Commit()` fails, and `Commit` deletes the TSR and
returns `nil`. -/
theorem deleteTSR_despite_failed_commit_level_zero :
    let env : Env := { Env.nil ["r"] with commit := fun _ => some "err" }
    let s := (writingRun ⟨.default, .zero⟩).call ⟨.default, .zero⟩ env .commit
    Reachable ⟨.default, .zero⟩ s ∧ (∀ s', ¬GoroutineStep s s') ∧
      (Actor.owner, Event.commit "r" false) ∈ s.log ∧
      ((∃ a id ok, (a, Event.deleteTSR id ok) ∈ s.log) ∧
        ∀ a, (a, Event.commit "r" true) ∉ s.log) := by
  intro env s
  have hr : Reachable ⟨.default, .zero⟩ s := (reachable_writingRun _).step
    (.call .commit env ⟨.refl _, .refl _, fun _ => rfl⟩ (not_panics_of_isSome (by rfl) _))
  have hp : s.pending = [] := rfl
  have hstuck : ∀ s', ¬GoroutineStep s s' := fun _ ⟨i, _, _, hget, _⟩ => by simp [hp] at hget
  have hlog : s.log = [(.owner, .start "r" true), (.owner, .write "r" "k" true),
      (.owner, .prepare "r" true), (.owner, .createTSR "txn" .committed true),
      (.owner, .commit "r" false), (.owner, .deleteTSR "txn" true)] := rfl
  have hfail : (Actor.owner, Event.commit "r" false) ∈ s.log := by simp [hlog]
  exact ⟨hr, hstuck, hfail, deleteTSR_despite_failed_commit hr hstuck hfail⟩

end OreoTxn
