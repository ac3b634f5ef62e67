/-
# The clock queue (`Clock.cpp`)

The events that wait for the clock are linked in the order in which they are due.  The duration of
an event is the time from the event before it, so that time passes at the front of the list only.
The memory of the events is modelled field by field, and a pointer is the number of an address:
`QueueClockEvent` computes with the pointer `next` of an event.
-/
import Northport.Arch.Timers
import Northport.Lib.DeltaList
import Northport.Lib.RecordList

namespace Northport.Tasking

open Lib Arch Function

inductive TimeScale where
  | millis
  | micros
  | nanos
deriving DecidableEq, Repr

/-- The value of the enumeration: units in a second. -/
def TimeScale.value : TimeScale → ℕ
  | millis => 1000
  | micros => 1000000
  | nanos => 1000000000

structure ScaledTime where
  scale : TimeScale
  units : ℕ
deriving DecidableEq, Repr

def ScaledTime.toScale (t : ScaledTime) (newScale : TimeScale) : ScaledTime :=
  let ratio := newScale.value / t.scale.value
  ⟨newScale, mul64 t.units ratio⟩

/-- `sizeof(ClockEvent)` -/
def clockEventBytes : ℕ := 48

def noCoreAffinity : ℕ := wordSize - 1

def interruptTimerMaxNanos : ℕ := wordSize - 1

/-- `globalQueue`, with the fields of the events at each address. -/
structure ClockQueue where
  next : ℕ → ℕ
  dpc : ℕ → ℕ
  duration : ℕ → ScaledTime
  callbackCore : ℕ → ℕ
  head : ℕ
  tail : ℕ
  modifiedTicks : ℕ
  /-- What the interrupt timer was last armed with. -/
  armed : Option ℕ

namespace ClockQueue

section

variable (q : ClockQueue)

def units (p : ℕ) : ℕ := (q.duration p).units

def setDuration (p : ℕ) (d : ScaledTime) : ClockQueue :=
  { q with duration := update q.duration p d }

def setUnits (p n : ℕ) : ClockQueue :=
  q.setDuration p { q.duration p with units := n }

/-! ### The operations of the list -/

def pushFront (p : ℕ) : ClockQueue :=
  { q with
    next := update q.next p q.head
    head := p
    tail := if q.tail = 0 then p else q.tail }

def pushBack (p : ℕ) : ClockQueue :=
  if q.head = 0 then { q with next := update q.next p 0, head := p, tail := p }
  else { q with next := update (update q.next p 0) q.tail p, tail := p }

def insertAfter (it p : ℕ) : ClockQueue :=
  { q with
    next := update (update q.next p (q.next it)) it p
    tail := if it = q.tail then p else q.tail }

end

/-! ### The clock -/

/-- The loop of `UpdateTimerQueue`; `none` when its assertion fires or it does not end. -/
def updateScan : ℕ → ClockQueue → ℕ → ℕ → Option ClockQueue
  | 0, _, _, _ => none
  | fuel + 1, q, scan, listDelta =>
    if scan = 0 ∨ listDelta = 0 then some q
    else if scan = q.next scan then none
    else if q.units scan = 0 then updateScan fuel q (q.next scan) listDelta
    else if listDelta < q.units scan then some (q.setUnits scan (q.units scan - listDelta))
    else updateScan fuel (q.setUnits scan 0) (q.next scan) (listDelta - q.units scan)

/-- `UpdateTimerQueue`, when `PollTimer` returns `pollTicks`. -/
def updateTimerQueue (fuel : ℕ) (timer : PollTimer) (pollTicks : ℕ) (q : ClockQueue) :
    Option ClockQueue :=
  let listDelta := pollTicksToNanos timer (sub64 pollTicks q.modifiedTicks)
  updateScan fuel { q with modifiedTicks := pollTicks } q.head listDelta

/-- The end of the loop of `QueueClockEvent`: `event->next -= event->duration.units`, where `next`
is a pointer to a `ClockEvent`. -/
def insertBetween (q : ClockQueue) (scan event : ℕ) : ClockQueue :=
  let q := q.insertAfter scan event
  if q.next event ≠ 0 then
    { q with
      next := update q.next event
        (sub64 (q.next event) (mul64 clockEventBytes (q.units event))) }
  else q

/-- The loop of `QueueClockEvent`. -/
def insertScan : ℕ → ClockQueue → ℕ → ℕ → Option ClockQueue
  | 0, _, _, _ => none
  | fuel + 1, q, event, scan =>
    if scan = 0 then some (q.pushBack event)
    else
      let q := q.setUnits event (sub64 (q.units event) (q.units scan))
      if q.next scan = 0 then some (q.pushBack event)
      else if q.units (q.next scan) < q.units event then insertScan fuel q event (q.next scan)
      else some (q.insertBetween scan event)

/-- The first lines of `QueueClockEvent` under the lock: the duration in nanoseconds. -/
def setNanos (q : ClockQueue) (event : ℕ) : ClockQueue :=
  q.setDuration event ((q.duration event).toScale .nanos)

/-- The insertion of `QueueClockEvent`, after the queue is up to date. -/
def insert (fuel : ℕ) (q : ClockQueue) (event : ℕ) : Option ClockQueue :=
  if q.head = 0 ∨ q.units event < q.units q.head then
    let q := if q.head ≠ 0 then q.setUnits q.head (sub64 (q.units q.head) (q.units event)) else q
    let q := q.pushFront event
    some { q with armed := some (min interruptTimerMaxNanos (q.units event)) }
  else insertScan fuel q event q.head

/-- `QueueClockEvent` on the core that owns the queue. -/
def queueClockEvent (fuel : ℕ) (timer : PollTimer) (pollTicks coreId : ℕ) (q : ClockQueue)
    (event : ℕ) : Option ClockQueue :=
  if event = 0 ∨ q.dpc event = 0 then some q
  else
    let q := if q.callbackCore event = noCoreAffinity then
      { q with callbackCore := update q.callbackCore event coreId } else q
    (q.updateTimerQueue fuel timer pollTicks).bind fun q => (q.setNanos event).insert fuel event

/-! ### What the queue holds -/

/-- An event at the pointer `p` with the pointer `q` behind it. -/
def Stands (next : ℕ → ℕ) (duration : ℕ → ScaledTime) (p : ℕ) (x : ℕ × ℕ) (q : ℕ) : Prop :=
  x = (p, (duration p).units) ∧ q = next p

/-- **What the queue holds**: the events with their durations, from the front on. -/
structure Represents (q : ClockQueue) (l : List (ℕ × ℕ)) : Prop where
  linked : RecordList (Stands q.next q.duration) q.head l
  tail : q.tail = (l.map (·.1)).getLastD 0
  nodup : (l.map (·.1)).Nodup
  addresses : ∀ x ∈ l, x.1 < wordSize
  durations : ∀ x ∈ l, x.2 < wordSize

end ClockQueue

end Northport.Tasking
