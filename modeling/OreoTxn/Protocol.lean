import OreoTxn.Run

/-!
# The commit protocol

What the coordinator is for, stated over the calls it makes and not over how it makes them.
`Protocol` reads a trace of calls on the participants and on the TSR one by one, and keeps
what the atomic-commit protocol needs to know of it: whether the sync point has succeeded,
whether a `Prepare` was made or failed, and which participants prepared, were told to
commit, or were told to roll back. `Protocol.allows` is its rule for the next call:

* `Start`, `Read`, `Write` and `Delete` on a participant only before any `Prepare` and
  before the decision;
* `Prepare` only before the decision, and the sync point only when no `Prepare` failed;
* a participant `Commit` only after the commit point;
* a rollback (`Abort` with `hasCommitted = false`), and any `Abort` or `WriteTSR` of a
  goroutine, only before it;
* `DeleteTSR` only once every prepared participant's `Commit` has returned.

`Protocol.accepts` runs the rule over a whole trace; `accepts_iff` says what that means
call by call. A trace it accepts tells no participant both to commit and to roll back
(`accepts_not_committed_rolledBack`), by the invariant `Protocol.Sound` of the states it
reaches. `Refinement.lean` shows that the trace of every run of the coordinator is
accepted.
-/

namespace OreoTxn

/-! ## Calls that the protocol records -/

namespace Event

/-- The sync point, succeeded. -/
def isCommitPoint : Event → Bool
  | .createTSR _ .committed true => true
  | _ => false

/-- A `Prepare` that failed. -/
def isFailedPrepare : Event → Bool
  | .prepare _ false => true
  | _ => false

/-- The participant that a successful `Prepare` prepared. -/
def preparedDs : Event → Option String
  | .prepare ds true => some ds
  | _ => none

/-- The participant that a `Commit` went to. -/
def committedDs : Event → Option String
  | .commit ds _ => some ds
  | _ => none

/-- The participant that a rollback went to. -/
def rolledBackDs : Event → Option String
  | .abort ds false _ => some ds
  | _ => none

/-- A call on a participant before the commit phase. -/
def isData : Event → Bool
  | .start .. | .read .. | .write .. | .delete .. => true
  | _ => false

variable {e : Event} {ds : String}

@[simp] theorem isCommitPoint_iff :
    e.isCommitPoint = true ↔ ∃ id, e = .createTSR id .committed true := by
  cases e with
  | createTSR id st ok => cases st <;> cases ok <;> simp [isCommitPoint]
  | _ => simp [isCommitPoint]

@[simp] theorem isFailedPrepare_iff : e.isFailedPrepare = true ↔ ∃ ds, e = .prepare ds false := by
  cases e with
  | prepare ds ok => cases ok <;> simp [isFailedPrepare]
  | _ => simp [isFailedPrepare]

@[simp] theorem preparedDs_eq_some : e.preparedDs = some ds ↔ e = .prepare ds true := by
  cases e with
  | prepare ds ok => cases ok <;> simp [preparedDs, eq_comm]
  | _ => simp [preparedDs]

@[simp] theorem committedDs_eq_some : e.committedDs = some ds ↔ ∃ ok, e = .commit ds ok := by
  cases e <;> simp [committedDs, eq_comm]

@[simp] theorem rolledBackDs_eq_some : e.rolledBackDs = some ds ↔ ∃ ok, e = .abort ds false ok := by
  cases e with
  | abort ds hc ok => cases hc <;> simp [rolledBackDs, eq_comm]
  | _ => simp [rolledBackDs]

end Event

/-! ## The protocol -/

/-- What the protocol keeps of a trace. -/
structure Protocol where
  /-- The sync point `CreateTSR(TxnId, COMMITTED)` has succeeded. -/
  point : Bool
  /-- A `Prepare` has failed. -/
  failed : Bool
  prepared : List String
  committed : List String
  rolledBack : List String
  deriving DecidableEq, Repr, Inhabited

namespace Protocol

/-- Nothing seen yet. -/
def init : Protocol := ⟨false, false, [], [], []⟩

/-- No decision is taken: no commit point and no rollback. -/
def undecided (p : Protocol) : Bool := !p.point && p.rolledBack.isEmpty

/-- No `Prepare` has been made. -/
def unprepared (p : Protocol) : Bool := !p.failed && p.prepared.isEmpty

/-- The rule for the next call. -/
def allows (p : Protocol) : Actor × Event → Bool
  | (_, .start ..) | (_, .read ..) | (_, .write ..) | (_, .delete ..) =>
    p.unprepared && p.undecided
  | (_, .prepare ..) => p.undecided
  | (_, .createTSR ..) => p.undecided && !p.failed
  | (_, .commit ..) => p.point
  | (a, .abort _ hasCommitted _) => a == .owner && hasCommitted || !p.point
  | (a, .writeTSR ..) => a == .owner || !p.point
  | (_, .deleteTSR ..) => p.prepared.all (· ∈ p.committed)

/-- What a call adds to the record. -/
def record (p : Protocol) (x : Actor × Event) : Protocol where
  point := p.point || x.2.isCommitPoint
  failed := p.failed || x.2.isFailedPrepare
  prepared := x.2.preparedDs.toList ++ p.prepared
  committed := x.2.committedDs.toList ++ p.committed
  rolledBack := x.2.rolledBackDs.toList ++ p.rolledBack

/-- One call, if the rule allows it. -/
def step (p : Protocol) (x : Actor × Event) : Option Protocol :=
  if p.allows x then some (p.record x) else none

/-- The record of a whole trace. -/
def view (l : List (Actor × Event)) : Protocol :=
  l.foldl record init

/-- The rule allows every call of the trace. -/
def accepts (l : List (Actor × Event)) : Bool :=
  (l.foldlM step init).isSome

/-! ## Accepted traces, call by call -/

theorem foldlM_step_isSome {p : Protocol} :
    ∀ {l : List (Actor × Event)}, (l.foldlM step p).isSome = true ↔
      ∀ l₁ x l₂, l = l₁ ++ x :: l₂ → (l₁.foldl record p).allows x = true
  | [] => by simp
  | x :: l => by
    by_cases hx : p.allows x = true
    · simp only [List.foldlM_cons, step, hx, if_true, Option.bind_eq_bind, Option.some_bind]
      rw [foldlM_step_isSome]
      constructor
      · intro h l₁ y l₂ hl
        cases l₁ with
        | nil =>
          obtain ⟨rfl, -⟩ := List.cons.inj hl
          exact hx
        | cons z l₁ =>
          rw [List.cons_append, List.cons.injEq] at hl
          obtain ⟨rfl, hl⟩ := hl
          exact h l₁ y l₂ hl
      · exact fun h l₁ y l₂ hl => h (x :: l₁) y l₂ (by rw [hl]; rfl)
    · simp only [List.foldlM_cons, step, hx, Bool.false_eq_true, if_false, Option.bind_eq_bind,
        Option.none_bind, Option.isSome_none, false_iff]
      exact fun h => hx (h [] x l rfl)

/-- A trace is accepted when the rule allows each of its calls after the record of the
calls before it. -/
theorem accepts_iff {l : List (Actor × Event)} :
    accepts l = true ↔ ∀ x, OnlyAfter (· = x) (fun pre => (view pre).allows x = true) l := by
  rw [accepts, foldlM_step_isSome]
  exact ⟨fun h x l₁ y l₂ hl hy => hy ▸ h l₁ y l₂ hl, fun h l₁ y l₂ hl => h y l₁ y l₂ hl rfl⟩

theorem view_append (l m : List (Actor × Event)) : view (l ++ m) = m.foldl record (view l) :=
  List.foldl_append _ _ _ _

/-! ## Accepted traces, block by block -/

section Blocks

variable {l m : List (Actor × Event)}

theorem foldlM_step_eq {p q : Protocol} :
    ∀ {l : List (Actor × Event)}, l.foldlM step p = some q → q = l.foldl record p
  | [], h => (Option.some.inj h).symm
  | x :: l, h => by
    simp only [List.foldlM_cons, step] at h
    split_ifs at h
    · rw [List.foldl_cons]
      exact foldlM_step_eq h
    · cases h

/-- A trace followed by `m` is accepted when the trace is, and `m` is from the trace's
record. -/
theorem accepts_append_iff :
    accepts (l ++ m) = true ↔ accepts l = true ∧ (m.foldlM step (view l)).isSome = true := by
  rw [accepts, accepts, List.foldlM_append]
  cases h : l.foldlM step init with
  | none => simp
  | some q =>
    rw [foldlM_step_eq h]
    simp [view]

/-- Calls that are allowed in every state satisfying `I` and keep it are accepted from any
such state. -/
theorem foldlM_step_isSome_of_inv {I : Protocol → Prop} :
    ∀ {m : List (Actor × Event)}, (∀ x ∈ m, ∀ p, I p → p.allows x = true ∧ I (p.record x)) →
      ∀ {p}, I p → (m.foldlM step p).isSome = true
  | [], _, _, _ => rfl
  | x :: m, h, p, hp => by
    obtain ⟨hx, hI⟩ := h x (List.mem_cons_self _ _) p hp
    simp only [List.foldlM_cons, step, hx, if_true, Option.bind_eq_bind, Option.some_bind]
    exact foldlM_step_isSome_of_inv (fun y hy => h y (List.mem_cons_of_mem _ hy)) hI

theorem accepts_append_of_inv {I : Protocol → Prop} (hl : accepts l = true) (hI : I (view l))
    (hm : ∀ x ∈ m, ∀ p, I p → p.allows x = true ∧ I (p.record x)) : accepts (l ++ m) = true :=
  accepts_append_iff.2 ⟨hl, foldlM_step_isSome_of_inv hm hI⟩

theorem accepts_append_singleton {x : Actor × Event} :
    accepts (l ++ [x]) = true ↔ accepts l = true ∧ (view l).allows x = true := by
  rw [accepts_append_iff]
  by_cases hx : (view l).allows x = true <;> simp [step, hx]

/-- After a trace that the protocol has recorded nothing of, a trace is accepted as it is on
its own. -/
theorem accepts_append_of_view_eq_init (hl : view l = init) :
    accepts (l ++ m) = true ↔ accepts l = true ∧ accepts m = true := by
  rw [accepts_append_iff, hl]
  rfl

end Blocks

/-! ## Calls before the commit phase -/

theorem record_of_isData {p : Protocol} {x : Actor × Event} (h : x.2.isData = true) :
    p.record x = p := by
  obtain ⟨a, e⟩ := x
  cases p
  cases e <;> simp [Event.isData] at h <;>
    simp [Protocol.record, Event.isCommitPoint, Event.isFailedPrepare, Event.preparedDs,
      Event.committedDs, Event.rolledBackDs]

theorem foldl_record_of_isData {p : Protocol} :
    ∀ {l : List (Actor × Event)}, (∀ x ∈ l, x.2.isData = true) → l.foldl record p = p
  | [], _ => rfl
  | x :: l, h => by
    rw [List.foldl_cons, record_of_isData (h x (List.mem_cons_self _ _))]
    exact foldl_record_of_isData fun y hy => h y (List.mem_cons_of_mem _ hy)

theorem init_allows_of_isData {x : Actor × Event} (h : x.2.isData = true) :
    init.allows x = true := by
  obtain ⟨a, e⟩ := x
  cases e <;> simp [Event.isData] at h <;> rfl

/-! ## The record of a trace -/

section Record

variable {l : List (Actor × Event)}

/-- A flag of the record is set once a call of the trace sets it. -/
theorem flag_foldl_record {g : Protocol → Bool} {f : Event → Bool}
    (hg : ∀ p x, g (record p x) = (g p || f x.2)) :
    ∀ {l : List (Actor × Event)} {p : Protocol},
      g (l.foldl record p) = true ↔ g p = true ∨ ∃ x ∈ l, f x.2 = true := by
  intro l
  induction l with
  | nil => simp
  | cons x l ih =>
    intro p
    rw [List.foldl_cons, ih, hg, Bool.or_eq_true, List.exists_mem_cons_iff, or_assoc]

/-- A participant is in a list of the record once a call of the trace adds it. -/
theorem mem_foldl_record {g : Protocol → List String} {f : Event → Option String}
    (hg : ∀ p x, g (record p x) = (f x.2).toList ++ g p) {ds : String} :
    ∀ {l : List (Actor × Event)} {p : Protocol},
      ds ∈ g (l.foldl record p) ↔ ds ∈ g p ∨ ∃ x ∈ l, f x.2 = some ds := by
  intro l
  induction l with
  | nil => simp
  | cons x l ih =>
    intro p
    rw [List.foldl_cons, ih, hg, List.mem_append, Option.mem_toList, Option.mem_def,
      List.exists_mem_cons_iff, or_left_comm, or_assoc]

theorem exists_mem_snd {β : Type} {F : β → Event} :
    (∃ x ∈ l, ∃ y, x.2 = F y) ↔ ∃ a y, (a, F y) ∈ l :=
  ⟨fun ⟨⟨a, _⟩, hx, y, h⟩ => ⟨a, y, h ▸ hx⟩, fun ⟨_, y, hx⟩ => ⟨_, hx, y, rfl⟩⟩

theorem point_view :
    (view l).point = true ↔ ∃ a id, (a, Event.createTSR id .committed true) ∈ l := by
  rw [view, flag_foldl_record fun _ _ => rfl]
  simp only [init, Bool.false_eq_true, false_or, Event.isCommitPoint_iff]
  exact exists_mem_snd

theorem failed_view : (view l).failed = true ↔ ∃ a ds, (a, Event.prepare ds false) ∈ l := by
  rw [view, flag_foldl_record fun _ _ => rfl]
  simp only [init, Bool.false_eq_true, false_or, Event.isFailedPrepare_iff]
  exact exists_mem_snd

theorem mem_prepared_view {ds : String} :
    ds ∈ (view l).prepared ↔ ∃ a, (a, Event.prepare ds true) ∈ l := by
  rw [view, mem_foldl_record fun _ _ => rfl]
  simp only [init, List.not_mem_nil, false_or, Event.preparedDs_eq_some]
  exact ⟨fun ⟨⟨a, _⟩, hx, h⟩ => ⟨a, h ▸ hx⟩, fun ⟨a, hx⟩ => ⟨_, hx, rfl⟩⟩

theorem mem_committed_view {ds : String} :
    ds ∈ (view l).committed ↔ ∃ a ok, (a, Event.commit ds ok) ∈ l := by
  rw [view, mem_foldl_record fun _ _ => rfl]
  simp only [init, List.not_mem_nil, false_or]
  rw [← exists_mem_snd]
  exact exists_congr fun x => and_congr_right fun _ => Event.committedDs_eq_some

theorem mem_rolledBack_view {ds : String} :
    ds ∈ (view l).rolledBack ↔ ∃ a ok, (a, Event.abort ds false ok) ∈ l := by
  rw [view, mem_foldl_record fun _ _ => rfl]
  simp only [init, List.not_mem_nil, false_or]
  rw [← exists_mem_snd]
  exact exists_congr fun x => and_congr_right fun _ => Event.rolledBackDs_eq_some

end Record

/-! ## What an accepted trace guarantees -/

/-- What every state an accepted trace reaches satisfies: a participant `Commit` means the
commit point, and a rollback means none. -/
structure Sound (p : Protocol) : Prop where
  committed : p.committed ≠ [] → p.point = true
  rolledBack : p.rolledBack ≠ [] → p.point = false

theorem sound_init : init.Sound :=
  ⟨fun h => absurd rfl h, fun _ => rfl⟩

theorem Sound.committed_eq_nil {p : Protocol} (hp : p.Sound) (h : p.point = false) :
    p.committed = [] :=
  of_not_not fun hc => Bool.false_ne_true (h ▸ hp.committed hc)

theorem Sound.rolledBack_eq_nil {p : Protocol} (hp : p.Sound) (h : p.point = true) :
    p.rolledBack = [] :=
  of_not_not fun hr => Bool.false_ne_true (h ▸ hp.rolledBack hr).symm

/-- A call that records no sync point, no participant `Commit` and no rollback keeps the
state sound. -/
theorem Sound.record_of_quiet {p : Protocol} {x : Actor × Event} (hp : p.Sound)
    (h₁ : x.2.isCommitPoint = false) (h₂ : x.2.committedDs = none) (h₃ : x.2.rolledBackDs = none) :
    (p.record x).Sound := by
  have hpt : (p.record x).point = p.point := by simp [Protocol.record, h₁]
  exact ⟨fun h => hpt ▸ hp.committed (by simpa [Protocol.record, h₂] using h),
    fun h => hpt ▸ hp.rolledBack (by simpa [Protocol.record, h₃] using h)⟩

/-- A call the rule allows keeps the state sound: the sync point comes before any
participant `Commit` and while no rollback was made, a participant `Commit` after it, and a
rollback before it. -/
theorem Sound.record {p : Protocol} {x : Actor × Event} (hp : p.Sound) (hx : p.allows x = true) :
    (p.record x).Sound := by
  obtain ⟨a, e⟩ := x
  cases e with
  | createTSR id st ok =>
    simp only [allows, undecided, Bool.and_eq_true, Bool.not_eq_true', List.isEmpty_iff] at hx
    constructor <;>
      simp [Protocol.record, Event.committedDs, Event.rolledBackDs, hp.committed_eq_nil hx.1.1,
        hx.1.2]
  | commit ds ok =>
    have hpt : p.point = true := hx
    constructor <;>
      simp [Protocol.record, Event.isCommitPoint, Event.rolledBackDs, hp.rolledBack_eq_nil hpt, hpt]
  | abort ds hc ok =>
    cases hc
    · have hpt : p.point = false := by simpa [allows] using hx
      constructor <;>
        simp [Protocol.record, Event.isCommitPoint, Event.committedDs, hpt, hp.committed_eq_nil hpt]
    · exact hp.record_of_quiet rfl rfl rfl
  | _ => exact hp.record_of_quiet rfl rfl rfl

theorem Sound.foldlM_step {p q : Protocol} (hp : p.Sound) :
    ∀ {l : List (Actor × Event)}, l.foldlM step p = some q → q.Sound
  | [], h => Option.some.inj h ▸ hp
  | x :: l, h => by
    simp only [List.foldlM_cons, step] at h
    split_ifs at h with hx
    · exact (hp.record hx).foldlM_step h
    · cases h

/-- A trace the protocol accepts tells no participant both to commit and to roll back. -/
theorem accepts_not_committed_rolledBack {l : List (Actor × Event)} (h : accepts l = true)
    (ds : String) : ¬(ds ∈ (view l).committed ∧ ds ∈ (view l).rolledBack) := by
  obtain ⟨q, hq⟩ := Option.isSome_iff_exists.1 h
  have hs := sound_init.foldlM_step hq
  rw [foldlM_step_eq hq] at hs
  rintro ⟨h₁, h₂⟩
  have h₃ := hs.committed (List.ne_nil_of_mem h₁)
  rw [hs.rolledBack (List.ne_nil_of_mem h₂)] at h₃
  cases h₃

example : accepts [(.owner, .prepare "r" true), (.owner, .createTSR "t" .committed true),
    (.owner, .commit "r" true), (.owner, .deleteTSR "t" true)] = true := by decide

example : accepts [(.owner, .prepare "r" true), (.owner, .deleteTSR "t" true)] = false := by
  decide

end Protocol

end OreoTxn
