import Mathlib

/-!
# The local hybrid clock

`LocalTimeSource` of `pkg/timesource` keeps a physical time in milliseconds and a logical
counter, and packs the two into one `int64` as `physicalTime * 10^6 + logicalTime`
(`getTime`). `GetTime` refreshes the physical time from the wall clock and resets the
counter once the counter has reached `maxLogicalTime - 10`, and increments it otherwise.
The goroutine `updatePhysicalTime` refreshes the physical time and resets the counter on
every tick. A run of the clock is any interleaving of the two (`ClockStep`), each reading
the wall clock once.

`ClockInv` holds in every reachable state (`clockInv_of_reachable`): the counter stays in
`[0, maxLogicalTime - 10]` and the physical time is a wall-clock reading. From it, every
timestamp is the exact, unwrapped `physicalTime * 10^6 + logicalTime` with the counter in
`[1, maxLogicalTime - 10]`, so that division and remainder by `10^6` decode it and numeric
order is the lexicographic order of the pairs (`reachable_getTime_packed`).

Neither reset checks that the wall clock has moved since the physical time was last read.
A tick within the millisecond of the last reading sends the counter back to `0`, and the
next timestamp repeats an earlier one (`getTime_repeats_after_tick`). When every reset
reads a later wall clock, the timestamps of a run strictly increase
(`runClock_strictly_increasing`).
-/

namespace OreoTxn

/-! ## Go's `int64` arithmetic -/

/-- An `int64` result: the exact value wrapped into `[-2^63, 2^63)`. -/
def toInt64 (x : Int) : Int := x.bmod (2 ^ 64)

/-- The wrap leaves a value that fits unchanged. -/
theorem toInt64_of_lt {x : Int} (h0 : 0 ≤ x) (h : x < 2 ^ 63) : toInt64 x = x := by
  have hmod : x % ((2 ^ 64 : Nat) : Int) = x := Int.emod_eq_of_lt h0 (by omega)
  rw [toInt64, Int.bmod_pos _ _ (by rw [hmod]; omega), hmod]

/-- `int64(math.Pow10(n))`: `math.Pow10` is exact on the powers of ten an `int64` holds. -/
def pow10 (n : Nat) : Int := 10 ^ n

/-! ## The clock -/

/-- The fields of `LocalTimeSource` that `GetTime` and `updatePhysicalTime` read. -/
structure LocalTimeSource where
  logicalTimeBits : Nat
  /-- The counter's bound, `2^logicalTimeBits - 1`. -/
  maxLogicalTime : Int
  /-- Milliseconds, as `time.Now().UnixMilli()` last returned them. -/
  physicalTime : Int
  logicalTime : Int
  deriving DecidableEq, Repr

/-- `NewLocalTimeSource`, with the wall clock reading `now`. -/
def newLocalTimeSource (now : Int) : LocalTimeSource where
  logicalTimeBits := 6
  maxLogicalTime := ((1 <<< 6 : Nat) : Int) - 1
  physicalTime := now
  logicalTime := 0

/-- One tick of `updatePhysicalTime`, reading the wall clock `now`. -/
def updatePhysicalTime (ts : LocalTimeSource) (now : Int) : LocalTimeSource :=
  { ts with physicalTime := now, logicalTime := 0 }

/-- `GetTime` with the wall clock reading `now`: the clock after the call and the timestamp
it returns. Its error is always `nil`, and `mode` only adds a debug delay. -/
def getTime (ts : LocalTimeSource) (now : Int) : LocalTimeSource × Int :=
  let ts := if ts.logicalTime ≥ ts.maxLogicalTime - 10 then
    { ts with physicalTime := now, logicalTime := 0 } else ts
  let ts := { ts with logicalTime := toInt64 (ts.logicalTime + 1) }
  (ts, toInt64 (toInt64 (ts.physicalTime * pow10 ts.logicalTimeBits) + ts.logicalTime))

/-- A `GetTime` call or a tick, with the wall-clock reading it makes. -/
inductive ClockStep
  | get (now : Int)
  | tick (now : Int)
  deriving DecidableEq, Repr

/-- The wall-clock reading of a step. -/
def ClockStep.now : ClockStep → Int
  | get now => now
  | tick now => now

/-- The clock after a step. -/
def ClockStep.apply : ClockStep → LocalTimeSource → LocalTimeSource
  | get now, ts => (getTime ts now).1
  | tick now, ts => updatePhysicalTime ts now

/-- The timestamps the `GetTime` calls of a run return, in order. -/
def runClock : LocalTimeSource → List ClockStep → List Int
  | _, [] => []
  | ts, .get now :: steps => (getTime ts now).2 :: runClock (getTime ts now).1 steps
  | ts, .tick now :: steps => runClock (updatePhysicalTime ts now) steps

/-- A tick within the millisecond of the clock's first reading repeats the first
timestamp: the second `GetTime` returns what the first returned. -/
theorem getTime_repeats_after_tick (p : Int) :
    runClock (newLocalTimeSource p) [.get p, .tick p, .get p] =
      [toInt64 (toInt64 (p * pow10 6) + 1), toInt64 (toInt64 (p * pow10 6) + 1)] := by
  rfl

/-! ## The invariant -/

/-- A wall-clock reading the packing covers: `0 ≤ p` and `p * 10^6 + 63 ≤ 2^63 - 1`. -/
def WallClock (p : Int) : Prop := 0 ≤ p ∧ p * 10 ^ 6 + 63 ≤ 2 ^ 63 - 1

/-- Clocks reachable from `NewLocalTimeSource` by `GetTime` calls and ticks, every reading
of the wall clock a `WallClock` one. -/
inductive ClockReachable : LocalTimeSource → Prop
  | new {now : Int} : WallClock now → ClockReachable (newLocalTimeSource now)
  | step {ts : LocalTimeSource} (s : ClockStep) :
      ClockReachable ts → WallClock s.now → ClockReachable (s.apply ts)

/-- What every reachable clock satisfies. -/
structure ClockInv (ts : LocalTimeSource) : Prop where
  bits : ts.logicalTimeBits = 6
  max : ts.maxLogicalTime = 63
  physical : WallClock ts.physicalTime
  logical_nonneg : 0 ≤ ts.logicalTime
  logical_le : ts.logicalTime ≤ ts.maxLogicalTime - 10

theorem clockInv_new {now : Int} (h : WallClock now) : ClockInv (newLocalTimeSource now) :=
  ⟨rfl, rfl, h, Int.le_refl 0, by simp only [newLocalTimeSource]; decide⟩

theorem clockInv_tick {ts : LocalTimeSource} {now : Int} (hi : ClockInv ts)
    (h : WallClock now) : ClockInv (updatePhysicalTime ts now) :=
  ⟨hi.bits, hi.max, h, Int.le_refl 0, by simp only [updatePhysicalTime, hi.max]; decide⟩

/-- `GetTime` from a clock in the invariant either restarts the counter at `1` with the
wall clock as physical time, or moves the counter up by one. -/
theorem getTime_cases {ts : LocalTimeSource} (hi : ClockInv ts) (now : Int) :
    (53 ≤ ts.logicalTime ∧ (getTime ts now).1 = { ts with physicalTime := now, logicalTime := 1 }) ∨
    (ts.logicalTime < 53 ∧ (getTime ts now).1 = { ts with logicalTime := ts.logicalTime + 1 }) := by
  have hmax := hi.max
  by_cases h : 53 ≤ ts.logicalTime
  · refine .inl ⟨h, ?_⟩
    simp only [getTime, hmax, if_pos (show ts.logicalTime ≥ 63 - 10 by omega)]
    rw [toInt64_of_lt (by decide) (by decide)]
    rfl
  · refine .inr ⟨by omega, ?_⟩
    simp only [getTime, hmax, if_neg (show ¬ts.logicalTime ≥ 63 - 10 by omega)]
    rw [toInt64_of_lt (by have := hi.logical_nonneg; omega) (by omega)]

/-- The timestamp `GetTime` returns is computed from the clock it leaves behind. -/
theorem getTime_snd (ts : LocalTimeSource) (now : Int) :
    (getTime ts now).2 = toInt64 (toInt64 ((getTime ts now).1.physicalTime *
      pow10 (getTime ts now).1.logicalTimeBits) + (getTime ts now).1.logicalTime) := rfl

theorem clockInv_getTime {ts : LocalTimeSource} {now : Int} (hi : ClockInv ts)
    (h : WallClock now) : ClockInv (getTime ts now).1 ∧ 1 ≤ (getTime ts now).1.logicalTime := by
  rcases getTime_cases hi now with ⟨-, he⟩ | ⟨hl, he⟩ <;> rw [he]
  · exact ⟨⟨hi.bits, hi.max, h, by simp only; decide, by simp only [hi.max]; decide⟩,
      Int.le_refl 1⟩
  · have := hi.logical_nonneg
    exact ⟨⟨hi.bits, hi.max, hi.physical, by simp only; omega, by simp only [hi.max]; omega⟩,
      by simp only; omega⟩

theorem clockInv_of_reachable {ts : LocalTimeSource} (h : ClockReachable ts) : ClockInv ts := by
  induction h with
  | new hn => exact clockInv_new hn
  | step s _ hn ih =>
    cases s with
    | get now => exact (clockInv_getTime ih hn).1
    | tick now => exact clockInv_tick ih hn

/-! ## Packing -/

/-- Under the invariant, with the counter at least `1`, the two wraps of `GetTime`'s
arithmetic change nothing. -/
theorem toInt64_timestamp {ts : LocalTimeSource} (hi : ClockInv ts) (h1 : 1 ≤ ts.logicalTime) :
    toInt64 (toInt64 (ts.physicalTime * pow10 ts.logicalTimeBits) + ts.logicalTime) =
      ts.physicalTime * 10 ^ 6 + ts.logicalTime := by
  obtain ⟨hp0, hp⟩ := hi.physical
  have hl := hi.logical_le
  rw [hi.max] at hl
  have hmul : toInt64 (ts.physicalTime * 10 ^ 6) = ts.physicalTime * 10 ^ 6 :=
    toInt64_of_lt (by omega) (by omega)
  rw [hi.bits, pow10, hmul, toInt64_of_lt (by omega) (by omega)]

/-- A `GetTime` result, the clock after the call and the timestamp, whose timestamp packs
the clock's two components exactly: the counter in `[1, maxLogicalTime - 10]`, the value an
`int64`, and division and remainder by `10^6` giving the two back. -/
structure Packed (r : LocalTimeSource × Int) : Prop where
  eq : r.2 = r.1.physicalTime * 10 ^ 6 + r.1.logicalTime
  one_le : 1 ≤ r.1.logicalTime
  le_max : r.1.logicalTime ≤ r.1.maxLogicalTime - 10
  lt_int64 : r.2 < 2 ^ 63
  div : r.2 / 10 ^ 6 = r.1.physicalTime
  mod : r.2 % 10 ^ 6 = r.1.logicalTime

theorem packed_getTime {ts : LocalTimeSource} {now : Int} (hi : ClockInv ts) (h : WallClock now) :
    Packed (getTime ts now) := by
  obtain ⟨hi', h1⟩ := clockInv_getTime hi h
  have heq := (getTime_snd ts now).trans (toInt64_timestamp hi' h1)
  have hl := hi'.logical_le
  have hp := hi'.physical
  rw [hi'.max] at hl
  unfold WallClock at hp
  exact ⟨heq, h1, hi'.logical_le, by omega, by omega, by omega⟩

/-- Two timestamps of the clock compare as their (physical time, counter) pairs do
lexicographically. -/
theorem timestamp_lt_iff {r₁ r₂ : LocalTimeSource × Int} (h₁ : Packed r₁) (h₂ : Packed r₂)
    (hb₁ : r₁.1.maxLogicalTime = 63) (hb₂ : r₂.1.maxLogicalTime = 63) :
    r₁.2 < r₂.2 ↔ r₁.1.physicalTime < r₂.1.physicalTime ∨
      (r₁.1.physicalTime = r₂.1.physicalTime ∧ r₁.1.logicalTime < r₂.1.logicalTime) := by
  have := h₁.le_max; have := h₂.le_max; have := h₁.one_le; have := h₂.one_le
  rw [h₁.eq, h₂.eq]
  omega

/-- Every reachable clock keeps its counter in `[0, maxLogicalTime - 10]`, below
`2^logicalTimeBits`; every timestamp `GetTime` returns from it is the exact
`physicalTime * 10^6 + logicalTime` of the clock it leaves, with the counter in
`[1, maxLogicalTime - 10]`, decoded by division and remainder by `10^6`; and two such
timestamps compare as their pairs do lexicographically. -/
theorem reachable_getTime_packed {ts₁ ts₂ : LocalTimeSource} (h₁ : ClockReachable ts₁)
    (h₂ : ClockReachable ts₂) {n₁ n₂ : Int} (hn₁ : WallClock n₁) (hn₂ : WallClock n₂) :
    (0 ≤ ts₁.logicalTime ∧ ts₁.logicalTime ≤ ts₁.maxLogicalTime - 10 ∧
      ts₁.maxLogicalTime - 10 < 2 ^ ts₁.logicalTimeBits) ∧
    Packed (getTime ts₁ n₁) ∧
    ((getTime ts₁ n₁).2 < (getTime ts₂ n₂).2 ↔
      (getTime ts₁ n₁).1.physicalTime < (getTime ts₂ n₂).1.physicalTime ∨
      ((getTime ts₁ n₁).1.physicalTime = (getTime ts₂ n₂).1.physicalTime ∧
        (getTime ts₁ n₁).1.logicalTime < (getTime ts₂ n₂).1.logicalTime)) := by
  have hi₁ := clockInv_of_reachable h₁
  have hi₂ := clockInv_of_reachable h₂
  refine ⟨⟨hi₁.logical_nonneg, hi₁.logical_le, ?_⟩, packed_getTime hi₁ hn₁,
    timestamp_lt_iff (packed_getTime hi₁ hn₁) (packed_getTime hi₂ hn₂)
      (clockInv_getTime hi₁ hn₁).1.max (clockInv_getTime hi₂ hn₂).1.max⟩
  rw [hi₁.max, hi₁.bits]
  decide

theorem reachable_getTime_packed_new :
    WallClock 0 ∧ ClockReachable (newLocalTimeSource 0) ∧ Packed (getTime (newLocalTimeSource 0) 0) :=
  have hw : WallClock 0 := ⟨Int.le_refl 0, by decide⟩
  have hr := ClockReachable.new hw
  ⟨hw, hr, (reachable_getTime_packed hr hr hw hw).2.1⟩

/-! ## Order of the timestamps -/

/-- Every reset of the run, a tick or a `GetTime` that finds the counter at its bound,
reads a wall clock later than the physical time it replaces. -/
def Advances : LocalTimeSource → List ClockStep → Prop
  | _, [] => True
  | ts, .get now :: steps => (ts.maxLogicalTime - 10 ≤ ts.logicalTime → ts.physicalTime < now) ∧
      Advances (getTime ts now).1 steps
  | ts, .tick now :: steps => ts.physicalTime < now ∧ Advances (updatePhysicalTime ts now) steps

/-- `GetTime` returns a timestamp above the packed value of the clock it was called on, when
a reset it makes reads a later wall clock. -/
theorem lt_getTime {ts : LocalTimeSource} {now : Int} (hi : ClockInv ts) (h : WallClock now)
    (ha : ts.maxLogicalTime - 10 ≤ ts.logicalTime → ts.physicalTime < now) :
    ts.physicalTime * 10 ^ 6 + ts.logicalTime < (getTime ts now).2 := by
  rw [(packed_getTime hi h).eq]
  have := hi.logical_le; have := hi.logical_nonneg; have := hi.max
  rcases getTime_cases hi now with ⟨hl, he⟩ | ⟨-, he⟩ <;> rw [he] <;> simp only
  · have := ha (by omega)
    omega
  · omega

/-- When every reset reads a later wall clock, each `GetTime` of a run returns more than
every earlier one, and more than the clock's packed value at the start. -/
theorem runClock_strictly_increasing {ts : LocalTimeSource} {steps : List ClockStep}
    (hi : ClockInv ts) (hw : ∀ s ∈ steps, WallClock s.now) (ha : Advances ts steps) :
    (∀ t ∈ runClock ts steps, ts.physicalTime * 10 ^ 6 + ts.logicalTime < t) ∧
      (runClock ts steps).Pairwise (· < ·) := by
  induction steps generalizing ts with
  | nil => simp [runClock]
  | cons s steps ih =>
    have hw' : ∀ s ∈ steps, WallClock s.now := fun s hs => hw s (List.mem_cons_of_mem _ hs)
    cases s with
    | get now =>
      have hn : WallClock now := hw _ (List.mem_cons_self _ _)
      obtain ⟨hi', -⟩ := clockInv_getTime hi hn
      obtain ⟨hrest, hpair⟩ := ih hi' hw' ha.2
      have hlt := lt_getTime hi hn ha.1
      rw [← (packed_getTime hi hn).eq] at hrest
      simp only [runClock, List.mem_cons, List.pairwise_cons, forall_eq_or_imp]
      exact ⟨⟨hlt, fun t ht => Int.lt_trans hlt (hrest t ht)⟩, hrest, hpair⟩
    | tick now =>
      have hn : WallClock now := hw _ (List.mem_cons_self _ _)
      obtain ⟨hrest, hpair⟩ := ih (clockInv_tick hi hn) hw' ha.2
      have := hi.logical_le; have := hi.max
      refine ⟨fun t ht => ?_, hpair⟩
      have := hrest t ht
      simp only [updatePhysicalTime] at this
      have := ha.1
      omega

theorem runClock_strictly_increasing_tick :
    Advances (newLocalTimeSource 0) [.get 0, .get 0, .tick 1, .get 1] ∧
      (runClock (newLocalTimeSource 0) [.get 0, .get 0, .tick 1, .get 1]).Pairwise (· < ·) :=
  have hw : ∀ n : Int, 0 ≤ n → n ≤ 1 → WallClock n := fun n h0 h1 => ⟨h0, by omega⟩
  have ha : Advances (newLocalTimeSource 0) [.get 0, .get 0, .tick 1, .get 1] := by
    simp [Advances, getTime, newLocalTimeSource, updatePhysicalTime, toInt64, pow10]
  ⟨ha, (runClock_strictly_increasing (clockInv_new (hw 0 le_rfl (by norm_num)))
    (by simp only [List.mem_cons, List.mem_nil_iff, or_false]
        rintro s (rfl | rfl | rfl | rfl) <;> exact hw _ (by decide) (by decide)) ha).2⟩

end OreoTxn
