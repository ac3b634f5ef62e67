/-
# How the clock falls behind the timer it polls

Every call of `UpdateTimerQueue` converts the ticks since the last call and then begins to count
anew, so that what the conversion drops is never made up for.  The clock stays within one unit of
the conversion exactly as long as all that was dropped is not more than one unit.  `QueueClockEvent`
polls as well, and the event that it inserts must not belong between two others.
-/
import Northport.Lib.Run
import Northport.Tasking.ClockInsert

namespace Northport.Tasking

open Lib Arch List PollTimer ClockQueue

/-- What an event was queued for, with the ticks and the nanoseconds that had passed by then. -/
structure ClockRequest where
  nanos : ℕ
  ticks : ℕ
  subtracted : ℕ

/-- The time that is left when so many nanoseconds have been taken from the queue. -/
def ClockRequest.left (r : ClockRequest) (subtracted : ℕ) : ℕ := r.subtracted + r.nanos - subtracted

/-- The clock queue since the ticks `startTicks`. -/
structure Polled where
  queue : ClockQueue
  startTicks : ℕ
  /-- The nanoseconds that were taken from the queue. -/
  subtracted : ℕ := 0
  /-- The parts of a unit that the conversions have dropped. -/
  dropped : ℕ := 0
  /-- The events that were queued. -/
  requests : ℕ → Option ClockRequest := fun _ => none

/-- A call of `UpdateTimerQueue` or of `QueueClockEvent`, so many ticks after the last one. -/
inductive ClockOp where
  | poll (ticks : ℕ)
  | queue (ticks event nanos : ℕ)
deriving DecidableEq, Repr

def ClockOp.ticks : ClockOp → ℕ
  | poll ticks => ticks
  | queue ticks _ _ => ticks

namespace Polled

variable (timer : PollTimer) (coreId : ℕ)

/-- The queue before the first event, in any memory. -/
def start (q : ClockQueue) : Polled where
  queue := { q with head := 0, tail := 0 }
  startTicks := q.modifiedTicks

/-- The ticks since the start. -/
def ticks (s : Polled) : ℕ := s.queue.modifiedTicks - s.startTicks

/-- The queue was brought up to date. -/
def passed (s : Polled) (ticks : ℕ) (q : ClockQueue) : Polled :=
  { s with
    queue := q
    subtracted := s.subtracted + s.queue.elapsed timer (s.queue.modifiedTicks + ticks)
    dropped := s.dropped + timer.dropped ticks }

/-- An event was queued. -/
def ask (s : Polled) (event nanos : ℕ) : Polled :=
  { s with requests := Function.update s.requests event (some ⟨nanos, s.ticks, s.subtracted⟩) }

/-- What the timer and the caller provide: ticks of 64 bits, and an event with a DPC that is not
queued. -/
def Valid (s : Polled) : ClockOp → Prop
  | .poll ticks => s.queue.modifiedTicks + ticks < wordSize
  | .queue ticks event nanos => s.queue.modifiedTicks + ticks < wordSize ∧ event ≠ 0 ∧
      event < wordSize ∧ s.queue.dpc event ≠ 0 ∧ nanos < wordSize ∧ (s.requests event).isNone

instance (s : Polled) : ∀ o, Decidable (s.Valid o)
  | .poll _ => inferInstanceAs (Decidable (_ < _))
  | .queue .. => inferInstanceAs (Decidable (_ ∧ _))

/-- A step; no list of events is longer than the memory. -/
def step (s : Polled) (o : ClockOp) : Option Polled :=
  if s.Valid o then
    match o with
    | .poll ticks =>
      (s.queue.updateTimerQueue (wordSize + 1) timer (s.queue.modifiedTicks + ticks)).map
        (s.passed timer ticks)
    | .queue ticks event nanos =>
      ((s.queue.setDuration event ⟨.nanos, nanos⟩).queueClockEvent (wordSize + 1) timer
        (s.queue.modifiedTicks + ticks) coreId event).map fun q =>
          (s.passed timer ticks q).ask event nanos
  else none

/-- These are the events that were queued, each with the time that is left. -/
def Lists (s : Polled) (l : List (ℕ × ℕ)) : Prop :=
  ∀ event, position l event = (s.requests event).map (·.left s.subtracted)

/-- **The clock is on time**: what was taken from the queue lags the exact time by no more than one
unit, no event is lost, and an event is due at most one unit late. -/
structure OnTime (s : Polled) : Prop where
  lag : timer.exactNanos s.ticks ≤ (s.subtracted + timer.unitNanos : ℕ)
  held : ∃ l, s.queue.Represents l ∧ s.Lists l ∧ ∀ event, ∀ r ∈ s.requests event,
    ((r.nanos + timer.unitNanos : ℕ) : ℚ) ≤ timer.exactNanos (s.ticks - r.ticks) →
      position l event = some 0

/-- The conversion does not wrap around, and what it drops does not bring all that was dropped above
one unit. -/
def PollOk (s : Polled) (ticks : ℕ) : Prop :=
  timer.Fits ticks ∧ s.dropped + timer.dropped ticks ≤ timer.unitParts

/-- A new event is due before or with the first one in the queue, or after the last one. -/
def FirstOrLast (s : Polled) : ClockOp → Prop
  | .poll _ => True
  | .queue ticks _ nanos => ∀ l, s.queue.Represents l →
      InsertOk (advance (pollTicksToNanos timer ticks) l) nanos

def StepOk (s : Polled) (o : ClockOp) : Prop :=
  s.Valid o → s.PollOk timer o.ticks ∧ s.FirstOrLast timer o

/-- The time is accounted for: it was taken from the queue or dropped. -/
structure Timed (s : Polled) : Prop where
  later : s.startTicks ≤ s.queue.modifiedTicks
  parts : timer.parts s.ticks * timer.unitNanos =
    s.subtracted * timer.unitParts + s.dropped * timer.unitNanos
  asked : ∀ event, ∀ r ∈ s.requests event,
    r.ticks ≤ s.ticks ∧ r.subtracted ≤ timer.exactNanos r.ticks

structure Accounted (s : Polled) : Prop where
  held : ∃ l, s.queue.Represents l ∧ s.Lists l
  timed : s.Timed timer

variable {timer coreId} {l : List (ℕ × ℕ)} {s s' : Polled} {q : ClockQueue} {n e d : ℕ}
  {o : ClockOp}

/-! ### The time -/

lemma elapsed_add (timer : PollTimer) (hn : s.queue.modifiedTicks + n < wordSize) :
    s.queue.elapsed timer (s.queue.modifiedTicks + n) = pollTicksToNanos timer n := by
  rw [elapsed, sub64_eq hn (Nat.le_add_right _ _), Nat.add_sub_cancel_left]

section Time

variable (h : s.Timed timer) (hn : s.queue.modifiedTicks + n < wordSize)
  (hq : q.modifiedTicks = s.queue.modifiedTicks + n)
include h hq

lemma Timed.ticks_passed : (s.passed timer n q).ticks = s.ticks + n := by
  have hlater := h.later
  show q.modifiedTicks - s.startTicks = s.queue.modifiedTicks - s.startTicks + n
  omega

include hn

lemma Timed.passed (hfits : timer.Fits n) : (s.passed timer n q).Timed timer where
  later := by
    have hlater := h.later
    show s.startTicks ≤ q.modifiedTicks
    omega
  parts := by
    rw [h.ticks_passed hq, timer.parts_add, add_mul, h.parts, parts_of_fits hfits, Polled.passed,
      elapsed_add timer hn]
    ring
  asked := by
    intro event r hr
    rw [h.ticks_passed hq]
    exact ⟨(h.asked event r hr).1.trans (Nat.le_add_right _ _), (h.asked event r hr).2⟩

/-- The clock lags by no more than a unit exactly if the poll meets its condition. -/
lemma Timed.lag_iff : timer.exactNanos (s.passed timer n q).ticks ≤
      ((s.passed timer n q).subtracted + timer.unitNanos : ℕ) ↔ s.PollOk timer n := by
  rw [exactNanos_le_iff, h.ticks_passed hq, timer.parts_add, add_mul, h.parts, Polled.passed,
    elapsed_add timer hn]
  by_cases hfits : timer.Fits n
  · rw [parts_of_fits hfits]
    have hcancel : s.subtracted * timer.unitParts + s.dropped * timer.unitNanos +
        (pollTicksToNanos timer n * timer.unitParts + timer.dropped n * timer.unitNanos) ≤
        (s.subtracted + pollTicksToNanos timer n + timer.unitNanos) * timer.unitParts ↔
        (s.dropped + timer.dropped n) * timer.unitNanos ≤ timer.unitParts * timer.unitNanos := by
      constructor <;> intro hle <;> nlinarith
    rw [hcancel, Nat.mul_le_mul_right_iff timer.unitNanos_pos]
    exact ⟨fun hle => ⟨hfits, hle⟩, And.right⟩
  · have hover := parts_of_not_fits hfits
    refine iff_of_false (fun hle => ?_) fun hand => hfits hand.1
    nlinarith

end Time

lemma requests_ask (s : Polled) (e d p : ℕ) : (s.ask e d).requests p =
    if p = e then some ⟨d, s.ticks, s.subtracted⟩ else s.requests p :=
  Function.update_apply _ _ _ _

lemma Timed.ask (h : s.Timed timer) : (s.ask e d).Timed timer where
  later := h.later
  parts := h.parts
  asked := by
    intro event r hr
    rw [requests_ask] at hr
    split_ifs at hr
    · cases hr
      refine ⟨le_rfl, le_exactNanos_iff.mpr ?_⟩
      rw [h.parts]
      exact Nat.le_add_right _ _
    · exact h.asked event r hr

/-- An event that is more than the lag overdue has no time left. -/
lemma Accounted.onTime (h : s.Accounted timer)
    (hlag : timer.exactNanos s.ticks ≤ (s.subtracted + timer.unitNanos : ℕ)) : s.OnTime timer where
  lag := hlag
  held := by
    obtain ⟨l, hrep, hl⟩ := h.held
    refine ⟨l, hrep, hl, fun event r hr hdue => ?_⟩
    obtain ⟨hticks, hsub⟩ := h.timed.asked event r hr
    have hsum := timer.exactNanos_add r.ticks (s.ticks - r.ticks)
    rw [Nat.add_sub_cancel' hticks] at hsum
    have hle : (r.subtracted + (r.nanos + timer.unitNanos) : ℕ) ≤
        ((s.subtracted + timer.unitNanos : ℕ) : ℚ) := by
      push_cast at hdue hlag ⊢
      linarith
    have hle' := Nat.cast_le.mp hle
    rw [hl, hr, Option.map_some, ClockRequest.left, Nat.sub_eq_zero_of_le (by omega)]

/-! ### The queue -/

lemma length_le_of_represents (h : q.Represents l) : l.length < wordSize + 1 := by
  have hsub : l.map (·.1) ⊆ range wordSize := by
    intro p hp
    obtain ⟨x, hx, rfl⟩ := mem_map.mp hp
    exact mem_range.mpr (h.addresses x hx)
  have hle := (subperm_of_subset h.nodup hsub).length_le
  rw [length_map, length_range] at hle
  omega

/-- Time passes. -/
lemma Lists.passed (h : s.Lists l) (hn : s.queue.modifiedTicks + n < wordSize) (q : ClockQueue) :
    (s.passed timer n q).Lists (advance (pollTicksToNanos timer n) l) := by
  intro event
  rw [position_advance, h, Option.map_map, Polled.passed, elapsed_add timer hn]
  exact congrArg (Option.map · _) (funext fun r => Nat.sub_sub _ _ _)

/-- The queue holds the new event as well exactly if it was put where it is due. -/
lemma Lists.ask_iff (h : s.Lists l) :
    (∃ l', s.queue.Represents l' ∧ (s.ask e d).Lists l') ↔ s.queue.QueuedAt l e d := by
  have hlists : ∀ l', (s.ask e d).Lists l' ↔
      position l' e = some d ∧ ∀ p, p ≠ e → position l' p = position l p := by
    intro l'
    constructor
    · intro hl'
      refine ⟨?_, fun p hp => ?_⟩
      · rw [hl', requests_ask, if_pos rfl]
        exact congrArg some (Nat.add_sub_cancel_left _ _)
      · rw [hl', h, requests_ask, if_neg hp]
        rfl
    · rintro ⟨hself, hother⟩ p
      rw [requests_ask]
      split_ifs with hp
      · rw [hp, hself]
        exact congrArg some (Nat.add_sub_cancel_left _ _).symm
      · exact (hother p hp).trans (h p)
  constructor
  · rintro ⟨l', hrep, hl'⟩
    obtain ⟨hself, hother⟩ := (hlists l').mp hl'
    exact ⟨l', hrep, hself, hother, pairwise_position hrep.nodup⟩
  · rintro ⟨l', hrep, hself, hother, -⟩
    exact ⟨l', hrep, (hlists l').mpr ⟨hself, hother⟩⟩

/-! ### The steps -/

/-- **What a step does**: how far it lets the clock fall behind, and whether the queue is right
after it. -/
lemma Accounted.step_spec (h : s.Accounted timer) (hv : s.Valid o) :
    ∃ s', s.step timer coreId o = some s' ∧
      (timer.exactNanos s'.ticks ≤ (s'.subtracted + timer.unitNanos : ℕ) ↔
        s.PollOk timer o.ticks) ∧
      ((∃ l, s'.queue.Represents l ∧ s'.Lists l) ↔ s.FirstOrLast timer o) ∧
      (timer.Fits o.ticks → s'.Timed timer) := by
  obtain ⟨l, hrep, hl⟩ := h.held
  have hfuel := length_le_of_represents hrep
  cases o with
  | poll n =>
    have hn : s.queue.modifiedTicks + n < wordSize := hv
    obtain ⟨dur, hrun, hadv, -⟩ := hrep.updateTimerQueue timer (s.queue.modifiedTicks + n) hfuel
    rw [elapsed_add timer hn] at hadv
    refine ⟨_, ?_, h.timed.lag_iff hn rfl, iff_of_true ⟨_, hadv, hl.passed hn _⟩ trivial,
      h.timed.passed hn rfl⟩
    rw [step, if_pos hv, hrun]
    rfl
  | queue n e d =>
    obtain ⟨hn, hne, haddr, hdpc, hsmall, hfresh⟩ := id hv
    have hnot : e ∉ l.map (·.1) := by
      intro hmem
      obtain ⟨m, -, hm, -⟩ := position_of_mem hmem
      rw [hl, Option.isNone_iff_eq_none.mp hfresh] at hm
      cases hm
    have hnew : NewEvent (s.queue.setDuration e ⟨.nanos, d⟩) l e d :=
      ⟨hne, haddr, hdpc, hnot, Function.update_self _ _ _, hsmall⟩
    obtain ⟨q, hrun, hticks, hqueued⟩ := queueClockEvent_spec timer
      (s.queue.modifiedTicks + n) coreId (hrep.setDuration hnot _) hnew hfuel
    refine ⟨(s.passed timer n q).ask e d, ?_, h.timed.lag_iff hn hticks, ?_,
      fun hfits => (h.timed.passed hn hticks hfits).ask⟩
    · rw [step, if_pos hv, hrun]
      rfl
    · rw [show (s.queue.setDuration e ⟨.nanos, d⟩).elapsed timer _ = _ from elapsed_add timer hn]
        at hqueued
      refine (hl.passed hn q).ask_iff.trans (hqueued.trans ⟨fun hok l' hrep' => ?_, ?_⟩)
      · rwa [hrep'.linked.unique hrep.linked stands_unique]
      · exact fun hok => hok l hrep

/-- A step that meets its condition keeps the account, and the clock is on time after it. -/
lemma Accounted.step (h : s.Accounted timer) (hok : s.StepOk timer o)
    (hs : s.step timer coreId o = some s') : s'.Accounted timer ∧ s'.OnTime timer := by
  have hv : s.Valid o := (Option.ite_none_right_eq_some.mp hs).1
  obtain ⟨_, hs'', hlag, hheld, htimed⟩ := h.step_spec hv
  cases hs.symm.trans hs''
  obtain ⟨hpoll, hfirst⟩ := hok hv
  have haccounted : s'.Accounted timer := ⟨hheld.mpr hfirst, htimed hpoll.1⟩
  exact ⟨haccounted, haccounted.onTime (hlag.mpr hpoll)⟩

/-- The clock is on time after a step exactly if the step meets its condition. -/
lemma Accounted.step_iff (h : s.Accounted timer) (o : ClockOp) :
    (∀ s', s.step timer coreId o = some s' → s'.OnTime timer) ↔ s.StepOk timer o := by
  refine ⟨fun hall hv => ?_, fun hok s' hs' => (h.step hok hs').2⟩
  obtain ⟨s', hs', hlag, hheld, -⟩ := h.step_spec hv
  obtain ⟨hlate, l, hrep, hl, -⟩ := hall s' hs'
  exact ⟨hlag.mp hlate, hheld.mp ⟨l, hrep, hl⟩⟩

variable (timer) in
lemma accounted_start (q : ClockQueue) : (start q).Accounted timer where
  held := ⟨[], ⟨rfl, rfl, .nil, by simp, by simp⟩, fun _ => rfl⟩
  timed :=
    { later := le_rfl
      parts := by
        have hzero : timer.parts 0 = 0 := by cases timer <;> simp [parts]
        simp [start, ticks, hzero]
      asked := by simp [start] }

/-- **Every sequence of polls and of events that are queued**: the clock is always on time exactly
if every step meets its condition. -/
theorem onTime_always_iff (timer : PollTimer) (coreId : ℕ) (q : ClockQueue) (ops : List ClockOp) :
    Always (step timer coreId) (OnTime timer) (start q) ops ↔
      Allowed (step timer coreId) (StepOk timer) (start q) ops := by
  refine always_iff_allowed (Accounted timer) (OnTime timer) (fun _ o hs _ => hs.step_iff o)
    (fun _ _ _ hs hok hstep => (hs.step hok hstep).1) (accounted_start timer q) ?_ ops
  refine (accounted_start timer q).onTime ?_
  rw [exactNanos_le_iff, (accounted_start timer q).timed.parts]
  simp [start]

/-- A timer with three million ticks in a millisecond. -/
def threeGigahertz : PollTimer := .tsc 3000000 (by decide)

/-- An event of 10 nanoseconds is queued and then polled for twice, each time a tick short of a
millisecond. -/
def shortPolls : List ClockOp := [.queue 0 0x4000 10, .poll 2999999, .poll 2999999]

lemma shortPolls_isSome : (run (step threeGigahertz 0) (start twoEvents) shortPolls).isSome := by
  decide +kernel

/-- The two polls take nothing from the queue: after almost two milliseconds the event of 10
nanoseconds is not due. -/
theorem polls_fall_behind : ∃ s, run (step threeGigahertz 0) (start twoEvents) shortPolls = some s ∧
    s.subtracted = 0 ∧ s.queue.units 0x4000 = 10 ∧ ¬ s.OnTime threeGigahertz := by
  refine ⟨Option.get _ shortPolls_isSome, (Option.some_get _).symm, by decide +kernel,
    by decide +kernel, fun h => ?_⟩
  have hlag := exactNanos_le_iff.mp h.lag
  exact absurd hlag (by decide +kernel)

end Polled

end Northport.Tasking
