/-
# Waiting for events (`Waitable.cpp`)

A `Waitable` counts the signals it was given and queues the entries of the waits for it.  A
wait for many events has one entry for each of them, its cohort; it ends when it can take
one signal of each event, or of any one of them.  `Signal` and `WaitMany` run one after the
other; the locks and run levels that bring this about are not part of the model.

The ghost fields record what was given to each event, how often its counter wrapped around,
and what each finished wait took.
-/
import Northport.Lib.FwdList
import Northport.Lib.Run
import Northport.Lib.Word

namespace Northport.Tasking

open Lib Function

/-- `sl::Span`: an array of objects, by the number of its first one. -/
structure PtrSpan where
  base : ℕ
  size : ℕ
deriving DecidableEq, Repr

def PtrSpan.ptrs (s : PtrSpan) : List ℕ := List.range' s.base s.size

/-- `WaitEntry`, without the pointer that belongs to the list it is in. -/
structure WaitEntry (T : Type) where
  event : ℕ
  thread : T
  cohort : PtrSpan
  signalled : Bool
  waitAll : Bool

/-- A wait that has ended: its events, those whose entries are signalled, and what
`WaitMany` returns. -/
structure Finished where
  events : List ℕ
  waitAll : Bool
  consumed : List ℕ
  result : ℕ
deriving DecidableEq, Repr

structure WaitState (T : Type) where
  entry : ℕ → WaitEntry T
  next : ℕ → Option ℕ
  waiters : ℕ → List ℕ
  signalCount : ℕ → ℕ
  blocked : T → Bool
  given : ℕ → ℕ
  wraps : ℕ → ℕ
  finished : List Finished

namespace WaitState

variable {T : Type} [DecidableEq T]

/-- The state in which nothing has happened yet. -/
def init (entry : ℕ → WaitEntry T) (next : ℕ → Option ℕ) : WaitState T where
  entry := entry
  next := next
  waiters _ := []
  signalCount _ := 0
  blocked _ := false
  given _ := 0
  wraps _ := 0
  finished := []

/-- The event of an entry. -/
def eventOf (s : WaitState T) (p : ℕ) : ℕ := (s.entry p).event

/-- An entry takes a signal of its event. -/
def consume (s : WaitState T) (p : ℕ) : WaitState T :=
  { s with
    signalCount := update s.signalCount (s.eventOf p)
      (sub64 (s.signalCount (s.eventOf p)) 1)
    entry := update s.entry p { s.entry p with signalled := true } }

/-- The first loop of `TryFinish`; `none` when it runs to its end. -/
def tryFinishScan (s : WaitState T) (waitAll : Bool) : List ℕ → Option (WaitState T × Bool)
  | [] => none
  | p :: ps =>
      if s.signalCount (s.eventOf p) = 0 then
        if waitAll then some (s, false) else tryFinishScan s waitAll ps
      else if waitAll then tryFinishScan s waitAll ps
      else some (s.consume p, true)

def tryFinish (s : WaitState T) (entries : List ℕ) (waitAll : Bool) : WaitState T × Bool :=
  match s.tryFinishScan waitAll entries with
  | some r => r
  | none => if !waitAll then (s, false) else (entries.foldl consume s, true)

/-- The wait of these entries has ended. -/
def record (s : WaitState T) (entries : List ℕ) (waitAll : Bool) (result : ℕ) : WaitState T :=
  { s with finished :=
      ⟨entries.map s.eventOf, waitAll,
        (entries.filter fun p => (s.entry p).signalled).map s.eventOf, result⟩ :: s.finished }

/-- `waiters.PushBack` of the entry's event. -/
def enqueue (s : WaitState T) (p : ℕ) : WaitState T :=
  { s with
    next := pushBack s.next (s.waiters (s.eventOf p)) p
    waiters := update s.waiters (s.eventOf p) (s.waiters (s.eventOf p) ++ [p]) }

/-- `waiters.Remove` of the entry's event. -/
def dequeue (s : WaitState T) (p : ℕ) : WaitState T :=
  { s with
    next := unlink s.next (s.waiters (s.eventOf p)) p
    waiters := update s.waiters (s.eventOf p) ((s.waiters (s.eventOf p)).erase p) }

/-- The initial setup of the entries of a wait. -/
def setup (s : WaitState T) (events entries : PtrSpan) (thread : T) (waitAll : Bool) :
    WaitState T :=
  { s with
    next := fun p => if p ∈ entries.ptrs then none else s.next p
    entry := fun p =>
      if p ∈ entries.ptrs then
        { event := events.base + (p - entries.base), thread := thread, cohort := entries,
          signalled := false, waitAll := waitAll }
      else s.entry p }

/-- The greatest time, which stands for a wait without a timeout. -/
def timeInfinite : ℕ := wordSize - 1

/-- `WaitMany`, up to its return or to the `Yield` of a thread that has to wait. -/
def waitMany (s : WaitState T) (events entries : PtrSpan) (thread : T) (timeout : ℕ)
    (waitAll : Bool) : WaitState T × Option ℕ :=
  if events.size ≠ entries.size then (s, some 0)
  else if ¬ (timeout = 0 ∨ timeout = timeInfinite) then (s, some 0)
  else
    let s := s.setup events entries thread waitAll
    let (s, done) := s.tryFinish entries.ptrs waitAll
    if done || timeout = 0 then
      let completeCount := (entries.ptrs.filter fun p => (s.entry p).signalled).length
      (if done then s.record entries.ptrs waitAll completeCount else s, some completeCount)
    else
      let s := entries.ptrs.foldl enqueue s
      ({ s with blocked := update s.blocked thread true }, none)

/-- A queued wait has ended: its entries leave their queues and its thread runs again. -/
def wake (s : WaitState T) (waiter : ℕ) : WaitState T :=
  let entries := (s.entry waiter).cohort.ptrs
  let waitAll := (s.entry waiter).waitAll
  let thread := (s.entry waiter).thread
  let s := s.record entries waitAll (if waitAll then entries.length else 1)
  let s := entries.foldl dequeue s
  { s with blocked := update s.blocked thread false }

/-- The loop of `Signal` over the waiters of the event. -/
def signalLoop (event : ℕ) : ℕ → WaitState T → Option ℕ → ℕ → Option (WaitState T × ℕ)
  | _, s, none, wokeCount => some (s, wokeCount)
  | 0, _, some _, _ => none
  | fuel + 1, s, some waiter, wokeCount =>
      let (s, done) := s.tryFinish (s.entry waiter).cohort.ptrs (s.entry waiter).waitAll
      let (s, wokeCount) := if done then (s.wake waiter, wokeCount + 1) else (s, wokeCount)
      if s.signalCount event = 0 then some (s, wokeCount)
      else signalLoop event fuel s (s.next waiter) wokeCount

def signal (s : WaitState T) (event count : ℕ) : Option (WaitState T × ℕ) :=
  let sum := s.signalCount event + count
  let s := { s with
    signalCount := update s.signalCount event (sum % wordSize)
    given := update s.given event (s.given event + count)
    wraps := update s.wraps event (s.wraps event + sum / wordSize) }
  signalLoop event (s.waiters event).length s (s.waiters event).head? 0

end WaitState

/-- The calls. -/
inductive WaitOp (T : Type) where
  | waitMany (events entries : PtrSpan) (thread : T) (timeout : ℕ) (waitAll : Bool)
  | signal (event count : ℕ)

namespace WaitOp

variable {T : Type} [DecidableEq T]

def step (s : WaitState T) : WaitOp T → Option (WaitState T)
  | waitMany events entries thread timeout waitAll =>
      some (s.waitMany events entries thread timeout waitAll).1
  | signal event count => (s.signal event count).map Prod.fst

/-- The entries of a new wait are not those of a queued one, whose thread still waits. -/
def Ok (s : WaitState T) : WaitOp T → Prop
  | waitMany _ entries _ _ _ => ∀ p ∈ entries.ptrs, ∀ e, p ∉ s.waiters e
  | signal _ _ => True

end WaitOp

end Northport.Tasking
