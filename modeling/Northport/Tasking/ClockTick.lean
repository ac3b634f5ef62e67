/-
# Taking events out of the clock queue (`Clock.cpp`)

`UpdateTimerQueue` brings the durations up to date.  After it, `ClockTickHandler` hands the events
that are due to their cores, and `DequeueClockEvent` removes one event.  Both use the operations of
the list only, so they are written on the events in their order, each with its duration.
-/
import Northport.Tasking.ClockInsert

namespace Northport.Tasking

open Lib Arch List Option

/-- The time that the timer is armed with for the first event, if there is one. -/
def clockArmTime (l : List (ℕ × ℕ)) : Option ℕ :=
  l.head?.map fun front => min interruptTimerMaxNanos front.2

/-! ### `ClockTickHandler` -/

/-- The calls by which the handler gives a DPC away. -/
inductive DpcCall where
  | queueDpc (dpc : ℕ)
  | queueRemoteDpc (core dpc : ℕ)
deriving DecidableEq, Repr

namespace ClockQueue

/-- What the core `coreId` does with an event that is due. -/
def handOver (q : ClockQueue) (coreId event : ℕ) : DpcCall :=
  if q.callbackCore event = coreId then .queueDpc (q.dpc event)
  else .queueRemoteDpc (q.callbackCore event) (q.dpc event)

/-- The loop of `ClockTickHandler`: the events that stay and the calls. -/
def tickLoop (q : ClockQueue) (coreId : ℕ) : List (ℕ × ℕ) → List (ℕ × ℕ) × List DpcCall
  | [] => ([], [])
  | (event, units) :: l =>
    if units ≠ 0 then ((event, units) :: l, [])
    else ((q.tickLoop coreId l).1, q.handOver coreId event :: (q.tickLoop coreId l).2)

/-- `ClockTickHandler` after `UpdateTimerQueue`: the events that stay, the calls, and the time that
the timer is armed with. -/
def clockTickHandler (q : ClockQueue) (coreId : ℕ) (l : List (ℕ × ℕ)) :
    List (ℕ × ℕ) × List DpcCall × Option ℕ :=
  ((q.tickLoop coreId l).1, (q.tickLoop coreId l).2, clockArmTime (q.tickLoop coreId l).1)

variable {q : ClockQueue} {l : List (ℕ × ℕ)}

/-- The loop takes the events that are due from the front of the list, by induction on them. -/
lemma tickLoop_append (coreId : ℕ) (due : List (ℕ × ℕ)) (hl : ∀ y ∈ l.head?, y.2 ≠ 0) :
    q.tickLoop coreId (due.map (fun x => (x.1, 0)) ++ l) =
      (l, due.map fun y => q.handOver coreId y.1) := by
  induction due with
  | nil =>
    cases l with
    | nil => rfl
    | cons y l => exact if_pos (hl y rfl)
  | cons y due ih =>
    rw [map_cons, cons_append, tickLoop, ih]
    rfl

/-- **A tick of the clock.**  The queue is brought up to date: the time `t` that has passed is taken
from the position of every event.  The events whose position was at most `t` are handed over, in
their order, and the others stay in the list. -/
theorem clockTickHandler_spec {timer : PollTimer} {pollTicks fuel t : ℕ} (h : q.Represents l)
    (hfuel : l.length < fuel) (ht : t = q.elapsed timer pollTicks) (coreId : ℕ) :
    ∃ q' l₁ due rest l', q.updateTimerQueue fuel timer pollTicks = some q' ∧ q'.Represents l₁ ∧
      (∀ p, position l₁ p = (position l p).map (· - t)) ∧ l = due ++ rest ∧
      (∀ y ∈ due, ∃ n ≤ t, position l y.1 = some n) ∧
      (∀ y ∈ rest, ∃ n > t, position l y.1 = some n) ∧
      q'.clockTickHandler coreId l₁ =
        (l', due.map fun y => q.handOver coreId y.1, clockArmTime l') ∧
      l'.map (·.1) = rest.map (·.1) ∧
      ∀ y ∈ rest, position l' y.1 = (position l y.1).map (· - t) := by
  obtain ⟨dur, hrun, hrep, -⟩ := h.updateTimerQueue timer pollTicks hfuel
  rw [← ht] at hrep
  obtain ⟨due, rest, rfl, hle, hlt, heq⟩ := advance_eq t l
  have hnd := h.nodup
  rw [map_append, nodup_append] at hnd
  -- the positions of the events that stay
  have hrest : ∀ y ∈ rest, ∃ n, t < deltaSum due + n ∧ position rest y.1 = some n ∧
      position (due ++ rest) y.1 = some (deltaSum due + n) := by
    intro y hy
    have hkey : y.1 ∈ rest.map (·.1) := mem_map_of_mem hy
    obtain ⟨n, -, hn, hhead⟩ := position_of_mem hkey
    have hfirst := hlt _ (head?_eq_some_head (ne_nil_of_mem hy))
    have := hhead _ (head?_eq_some_head (ne_nil_of_mem hy))
    refine ⟨n, by omega, hn, ?_⟩
    rw [position_append_of_notMem fun hdue => hnd.2.2 _ hdue _ hkey rfl, hn]
    rfl
  have hfirst : ∀ y ∈ (advance (t - deltaSum due) rest).head?, y.2 ≠ 0 := by
    cases rest with
    | nil => simp [advance]
    | cons x rest =>
      have := hlt x rfl
      simp only [advance, head?_cons, mem_some_iff, forall_eq']
      omega
  refine ⟨_, _, due, rest, advance (t - deltaSum due) rest, hrun, hrep, position_advance t _, rfl,
    fun y hy => ?_, fun y hy => ?_, ?_, keys_advance _ rest, fun y hy => ?_⟩
  · have hkey : y.1 ∈ due.map (·.1) := mem_map_of_mem hy
    obtain ⟨n, hn, heq, -⟩ := position_of_mem hkey
    exact ⟨n, hn.trans hle, (position_append_of_mem hkey rest).trans heq⟩
  · obtain ⟨n, hn, -, heq⟩ := hrest y hy
    exact ⟨_, hn, heq⟩
  · rw [clockTickHandler, heq, tickLoop_append coreId due hfirst]
    rfl
  · obtain ⟨n, hn, heq, heq'⟩ := hrest y hy
    rw [position_advance, heq, heq', map_some, map_some]
    congr 1
    omega

/-- A tick after which both of two events are due. -/
theorem clockTickHandler_twoEvents : ∃ q' l₁ due rest l',
    twoEvents.updateTimerQueue 3 .pit 1 = some q' ∧ q'.Represents l₁ ∧
      [(0x1000, 10), (0x2000, 20)] = due ++ rest ∧ q'.clockTickHandler 0 l₁ =
        (l', due.map fun y => twoEvents.handOver 0 y.1, clockArmTime l') := by
  obtain ⟨q', l₁, due, rest, l', hrun, hrep, -, hl, -, -, htick, -⟩ := clockTickHandler_spec
    twoEvents_represents (show 2 < 3 by decide) (rfl : _ = twoEvents.elapsed .pit 1) 0
  exact ⟨q', l₁, due, rest, l', hrun, hrep, hl, htick⟩

end ClockQueue

/-! ### `DequeueClockEvent` -/

/-- The duration of the first event changes by `g`. -/
def changeFirst (g : ℕ → ℕ) : List (ℕ × ℕ) → List (ℕ × ℕ)
  | [] => []
  | (b, y) :: l => (b, g y) :: l

/-- The event goes out of the list, and the duration of the one behind it changes by `f`. -/
def removeEvent (f : ℕ → ℕ → ℕ) (event : ℕ) : List (ℕ × ℕ) → List (ℕ × ℕ)
  | [] => []
  | (a, x) :: l => if a = event then changeFirst (f x) l else (a, x) :: removeEvent f event l

/-- What `DequeueClockEvent` does after `UpdateTimerQueue`, on the events with their durations, and
the time that it arms the timer with. -/
def dequeueClockEvent (event : ℕ) (l : List (ℕ × ℕ)) : List (ℕ × ℕ) × Option ℕ :=
  if l.head?.map (·.1) = some event then
    let l := removeEvent (fun x y => sub64 y x) event l
    (l, clockArmTime l)
  else (removeEvent (fun x y => add64 y x) event l, none)

/-- The event is gone and every other one is due when it was before. -/
def Dequeued (l' l : List (ℕ × ℕ)) (event : ℕ) : Prop :=
  l'.map (·.1) = (l.map (·.1)).erase event ∧ ∀ p, p ≠ event → position l' p = position l p

/-- If the event is in the list, then its duration and the one behind it are as `ok` says. -/
def Removable (ok : ℕ → ℕ → Prop) (event : ℕ) : List (ℕ × ℕ) → Prop
  | [] => True
  | (a, x) :: l => if a = event then ∀ z ∈ l.head?, ok x z.2 else Removable ok event l

/-- **When `DequeueClockEvent` works**: the duration of the event is added to the one behind it
without an overflow, and if it is the first event, then the difference happens to be the sum. -/
def DequeueOk (event : ℕ) (l : List (ℕ × ℕ)) : Prop :=
  if l.head?.map (·.1) = some event then
    Removable (fun x y => x = 0 ∨ x = 2 ^ 63 ∧ y < 2 ^ 63) event l
  else Removable (fun x y => x + y < wordSize) event l

/-- **An event is removed rightly** if the new duration behind it is the sum. -/
lemma dequeued_removeEvent {f : ℕ → ℕ → ℕ} {ok : ℕ → ℕ → Prop} {e : ℕ} {l : List (ℕ × ℕ)}
    (hnd : (l.map (·.1)).Nodup) (hdur : ∀ z ∈ l, z.2 < wordSize)
    (hok : ∀ x y, x < wordSize → y < wordSize → (f x y = x + y ↔ ok x y)) :
    Dequeued (removeEvent f e l) l e ↔ Removable ok e l := by
  induction l with
  | nil => exact iff_of_true ⟨rfl, fun _ _ => rfl⟩ trivial
  | cons z l ih =>
    obtain ⟨a, x⟩ := z
    obtain ⟨ha, hnd⟩ := nodup_cons.mp hnd
    rw [removeEvent, Removable]
    by_cases hae : a = e
    · subst hae
      rw [if_pos rfl, Dequeued, map_cons, erase_cons_head]
      cases l with
      | nil =>
        exact iff_of_true ⟨rfl, fun p hp => by simp [changeFirst, position, Ne.symm hp]⟩ (by simp)
      | cons z l =>
        obtain ⟨b, y⟩ := z
        have hba : b ≠ a := fun heq => ha (heq ▸ mem_cons_self)
        simp only [head?_cons, mem_some_iff, forall_eq']
        rw [← hok x y (hdur (a, x) (by simp)) (hdur (b, y) (by simp))]
        refine ⟨fun h => ?_, fun hsum => ⟨rfl, fun p hp => ?_⟩⟩
        · simpa [changeFirst, position, hba.symm] using h.2 b hba
        · rw [changeFirst, hsum, position_cons_of_ne (Ne.symm hp), position, position]
          split_ifs
          · rfl
          · simp [Function.comp_def, add_assoc]
    · rw [if_neg hae, if_neg hae, ← ih hnd fun z hz => hdur z (mem_cons_of_mem _ hz), Dequeued,
        Dequeued, map_cons, map_cons, erase_cons_tail (by simpa using hae)]
      constructor
      · rintro ⟨hkeys, hpos⟩
        refine ⟨(cons.inj hkeys).2, fun p hp => ?_⟩
        by_cases hap : a = p
        · have habsent : a ∉ (removeEvent f e l).map (·.1) := by
            rw [(cons.inj hkeys).2]
            exact fun hmem => ha (mem_of_mem_erase hmem)
          rw [← hap, position_of_notMem habsent, position_of_notMem ha]
        · have := hpos p hp
          rw [position_cons_of_ne hap, position_cons_of_ne hap] at this
          exact map_injective (fun _ _ => Nat.add_left_cancel) this
      · rintro ⟨hkeys, hpos⟩
        refine ⟨congrArg (a :: ·) hkeys, fun p hp => ?_⟩
        rw [position, position, hpos p hp]

/-- **`DequeueClockEvent` on any queue**, when no time passes: it removes the event and leaves the
others where they are exactly if the arithmetic of the code gives the sum of two durations. -/
theorem dequeueClockEvent_iff {q : ClockQueue} {l : List (ℕ × ℕ)} {fuel pollTicks : ℕ}
    {timer : PollTimer} (h : q.Represents l) (hfuel : l.length < fuel)
    (ht : q.elapsed timer pollTicks = 0) (event : ℕ) :
    ∃ q' : ClockQueue, q.updateTimerQueue fuel timer pollTicks = some q' ∧ q'.Represents l ∧
      (Dequeued (dequeueClockEvent event l).1 l event ↔ DequeueOk event l) := by
  obtain ⟨dur, hrun, hrep, -⟩ := h.updateTimerQueue timer pollTicks hfuel
  rw [ht, advance_zero] at hrep
  refine ⟨_, hrun, hrep, ?_⟩
  rw [dequeueClockEvent, DequeueOk]
  split_ifs
  · refine dequeued_removeEvent h.nodup h.durations fun x y hx hy => ?_
    rw [sub64]
    rw [wordSize] at *
    omega
  · refine dequeued_removeEvent h.nodup h.durations fun x y hx hy => ?_
    rw [add64, add_comm y]
    exact Nat.mod_eq_iff_lt wordSize_pos.ne'

/-- The last of two events is removed. -/
theorem dequeueClockEvent_second : ∃ q', ClockQueue.twoEvents.updateTimerQueue 3 .pit 0 = some q' ∧
    q'.Represents [(0x1000, 10), (0x2000, 20)] ∧
      Dequeued [(0x1000, 10)] [(0x1000, 10), (0x2000, 20)] 0x2000 := by
  obtain ⟨q', hrun, hrep, hiff⟩ := dequeueClockEvent_iff ClockQueue.twoEvents_represents
    (show 2 < 3 by decide) (rfl : ClockQueue.elapsed .pit 0 _ = 0) 0x2000
  exact ⟨q', hrun, hrep, hiff.mpr (by simp [DequeueOk, Removable])⟩

/-- The first of two events is removed, and the second one is due 20 nanoseconds too early. -/
theorem dequeueClockEvent_first :
    (dequeueClockEvent 0x1000 [(0x1000, 10), (0x2000, 20)]).1 = [(0x2000, 10)] ∧
      ¬ Dequeued [(0x2000, 10)] [(0x1000, 10), (0x2000, 20)] 0x1000 :=
  ⟨rfl, fun h => absurd (h.2 0x2000 (by decide)) (by decide)⟩

end Northport.Tasking
