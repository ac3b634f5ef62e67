/-
# The scheduler (`Scheduler.cpp`)

Each core has an engine with a queue of its own; the engines of a cluster share another queue.
Where a thread is can be read off its state, the queues, the slot `pendingThread` of an engine and
the thread that a core runs; the functions of the scheduler keep all of these.

A call is one step here.  The intrusive lists are lists of threads.
-/
import Northport.Lib.Run
import Mathlib.Data.List.Count

namespace Northport.Tasking

open Lib

inductive ThreadState where
  | setup
  | dead
  | ready
  | queued
  | running
deriving DecidableEq, Repr

/-- The work queues: one for each engine and one for each cluster. -/
inductive QueueId (Core Cluster : Type*) where
  | localQueue (core : Core)
  | sharedQueue (cluster : Cluster)
deriving DecidableEq, Repr

/-- The union `engineOrQueue` of a thread. -/
inductive EngineOrQueue (Core Cluster : Type*) where
  | engineId (core : Core)
  | queue (queue : QueueId Core Cluster)
deriving DecidableEq, Repr

structure WorkQueue (T : Type*) where
  depth : ℕ
  threads : List T
deriving DecidableEq, Repr

structure Engine (T : Type*) where
  /-- The flag `ReschedulePending`; while it is set, the reschedule DPC is queued. -/
  reschedulePending : Bool
  localTickets : ℕ
  sharedTickets : ℕ
  pendingThread : Option T
  /-- The thread that the core runs, `CoreLocal()[LocalPtr::Thread]`. -/
  current : Option T
deriving DecidableEq, Repr

/-- What stays as it is: the engines and clusters, what the threads ask for, and the lists. -/
structure Machine (T Core Cluster : Type*) where
  engines : List Core
  clusters : List Cluster
  cluster : Core → Cluster
  engineCount : Cluster → ℕ
  idleThread : Core → T
  affinity : T → Option Core
  /-- Whether `IntrFwdList::Remove` returns something, when it has taken the thread out of the list. -/
  remove : List T → T → Bool

/-- The state of the scheduler. -/
structure Sched (T Core Cluster : Type*) where
  state : T → ThreadState
  engineOrQueue : T → EngineOrQueue Core Cluster
  queue : QueueId Core Cluster → WorkQueue T
  engine : Core → Engine T

inductive SchedOp (T Core : Type*) where
  | enqueueThread (t : T)
  /-- `DequeueThread` on a core, by its own code or for a mail of another core. -/
  | dequeueThread (core : Core) (t : T)
  | queueReschedule (core : Core)
  | doReschedule (core : Core)
  | doPendingSwitch (core : Core)

variable {T Core Cluster : Type*}

/-- `GetRunnableThread`: take threads from the queue until one of them is `Queued`. -/
def getRunnableThread (state : T → ThreadState) (depth : ℕ) : List T → Option T × WorkQueue T
  | [] => (none, ⟨depth, []⟩)
  | t :: threads =>
    if state t ≠ .queued then getRunnableThread state (depth - 1) threads
    else (some t, ⟨depth - 1, threads⟩)

namespace Sched

/-- Some threads are `Ready`, none is queued yet, and no engine has begun. -/
def init (ready : T → Bool) (unset : EngineOrQueue Core Cluster) : Sched T Core Cluster where
  state t := if ready t then .ready else .setup
  engineOrQueue _ := unset
  queue _ := ⟨0, []⟩
  engine _ := ⟨false, 0, 0, none, none⟩

variable [DecidableEq T] [DecidableEq Core] [DecidableEq Cluster]
variable (m : Machine T Core Cluster) (s : Sched T Core Cluster)

def setState (t : T) (state : ThreadState) : Sched T Core Cluster :=
  { s with state := Function.update s.state t state }

def setQueue (q : QueueId Core Cluster) (queue : WorkQueue T) : Sched T Core Cluster :=
  { s with queue := Function.update s.queue q queue }

def setEngine (core : Core) (engine : Engine T) : Sched T Core Cluster :=
  { s with engine := Function.update s.engine core engine }

/-- The thread becomes `Queued` at the end of the queue. -/
def pushBack (q : QueueId Core Cluster) (t : T) : Sched T Core Cluster :=
  { (s.setState t .queued).setQueue q ⟨(s.queue q).depth + 1, (s.queue q).threads ++ [t]⟩ with
    engineOrQueue := Function.update s.engineOrQueue t (.queue q) }

/-- The search for the cluster with the shortest queue, from `queueSize = -1ul` on. -/
def leastWorked (clusters : List Cluster) : Option Cluster :=
  (clusters.foldl (fun best c =>
    if (s.queue (.sharedQueue c)).depth < best.2 then (some c, (s.queue (.sharedQueue c)).depth)
    else best) (none, 2 ^ 64 - 1)).1

/-- The queue that `EnqueueThread` selects. -/
def selectQueue (t : T) : Option (QueueId Core Cluster) :=
  match m.affinity t with
  | some core => if core ∈ m.engines then some (.localQueue core) else none
  | none => (s.leastWorked m.clusters).map .sharedQueue

def enqueueThread (t : T) : Sched T Core Cluster :=
  if s.state t = .ready then
    match s.selectQueue m t with
    | some q => s.pushBack q t
    | none => s
  else s

section

variable (core : Core)

def queueReschedule : Sched T Core Cluster :=
  s.setEngine core { s.engine core with reschedulePending := true }

/-- `DequeueThread`; `none` when the assertion fires or the union holds the other member. -/
def dequeueThread (t : T) : Option (Sched T Core Cluster) :=
  match s.state t, s.engineOrQueue t with
  | .running, .engineId core' =>
    if core' = core then
      if (s.engine core).current = some t then some ((s.setState t .ready).queueReschedule core)
      else some ((s.setState t .ready).setEngine core { s.engine core with pendingThread := none })
    else
      -- the other core gets a mail, on which it calls `DequeueThread`
      some (s.setState t .ready)
  | .queued, .queue q =>
    if t ∈ (s.queue q).threads ∧ m.remove (s.queue q).threads t then
      some ((s.setState t .ready).setQueue q
        ⟨(s.queue q).depth - 1, (s.queue q).threads.erase t⟩)
    else none
  | .running, .queue _ => none
  | .queued, .engineId _ => none
  | _, _ => some s

/-- The tickets are counted anew when the shared ones are used up. -/
def resetTickets : Sched T Core Cluster :=
  if (s.engine core).sharedTickets = 0 then
    s.setEngine core { s.engine core with
      sharedTickets := (s.queue (.sharedQueue (m.cluster core))).depth
      localTickets := (s.queue (.localQueue core)).depth * m.engineCount (m.cluster core) }
  else s

/-- `GetRunnableThread` on a queue. -/
def takeFrom (q : QueueId Core Cluster) : Option T × Sched T Core Cluster :=
  let (next, queue) := getRunnableThread s.state (s.queue q).depth (s.queue q).threads
  (next, s.setQueue q queue)

/-- A thread of the queue of the cluster. -/
def takeShared : Option T × Sched T Core Cluster :=
  match s.takeFrom (.sharedQueue (m.cluster core)) with
  | (some t, s) => (some t, s.setEngine core { s.engine core with
      sharedTickets := (s.engine core).sharedTickets - 1 })
  | (none, s) => (none, s)

/-- The next thread: one of the engine's own queue as long as there are tickets for it, else one of
the cluster. -/
def takeNext : Option T × Sched T Core Cluster :=
  if 0 < (s.engine core).localTickets then
    match s.takeFrom (.localQueue core) with
    | (some t, s) => (some t, s.setEngine core { s.engine core with
        localTickets := (s.engine core).localTickets - 1 })
    | (none, s) => s.takeShared m core
  else s.takeShared m core

/-- The thread becomes the pending one of the engine. -/
def setPending (t : T) : Sched T Core Cluster :=
  { (s.setState t .running).setEngine core { s.engine core with
      pendingThread := some t, reschedulePending := false } with
    engineOrQueue := Function.update s.engineOrQueue t (.engineId core) }

/-- The thread that `DoReschedule` takes from a queue. -/
def selectThread : Option T × Sched T Core Cluster :=
  (s.resetTickets m core).takeNext m core

def doReschedule : Sched T Core Cluster :=
  let (next, s) := s.selectThread m core
  s.setPending core (next.getD (m.idleThread core))

/-- The current thread goes back into a queue if it is still `Running`; `none` when it asks for
another core. -/
def requeueCurrent : Option (Sched T Core Cluster) :=
  match (s.engine core).current with
  | none => some s
  | some current =>
    if current ≠ m.idleThread core ∧ s.state current = .running then
      match m.affinity current with
      | none => some (s.pushBack (.sharedQueue (m.cluster core)) current)
      | some affinity =>
        if affinity = core then some (s.pushBack (.localQueue core) current) else none
    else some s

def doPendingSwitch : Option (Sched T Core Cluster) :=
  match (s.engine core).pendingThread with
  | none => none
  | some next => (s.requeueCurrent m core).map fun s =>
      s.setEngine core { s.engine core with current := some next, pendingThread := none }

end

/-- A step.  The reschedule DPC runs when it is queued, and `LowerRunLevel` switches when a thread
is pending. -/
def step : SchedOp T Core → Option (Sched T Core Cluster)
  | .enqueueThread t => some (s.enqueueThread m t)
  | .dequeueThread core t => if core ∈ m.engines then s.dequeueThread m core t else none
  | .queueReschedule core => if core ∈ m.engines then some (s.queueReschedule core) else none
  | .doReschedule core =>
    if core ∈ m.engines ∧ (s.engine core).reschedulePending then some (s.doReschedule m core)
    else none
  | .doPendingSwitch core => if core ∈ m.engines then s.doPendingSwitch m core else none

end Sched

end Northport.Tasking
