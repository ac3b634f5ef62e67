/-
# When the idle thread runs

`DoReschedule` takes a thread of the engine's own queue only as long as there are tickets for it, and
the tickets are counted anew only when those for the queue of the cluster are used up.  In between,
other engines may have emptied the queue of the cluster: then the idle thread becomes pending while
a thread waits in the engine's own queue.
-/
import Northport.Tasking.SchedulerQueues

namespace Northport.Tasking.Sched

open Lib

variable {T Core Cluster : Type*} {m : Machine T Core Cluster} {s : Sched T Core Cluster}
  {core : Core}

/-- The first thread of the queue that could be run. -/
def firstQueued (s : Sched T Core Cluster) (q : QueueId Core Cluster) : Option T :=
  (s.queue q).threads.find? fun t => s.state t = .queued

/-- There is a thread to run in the queue. -/
def HasQueued (s : Sched T Core Cluster) (q : QueueId Core Cluster) : Prop :=
  ∃ t ∈ (s.queue q).threads, s.state t = .queued

/-- The engine will have tickets for its own queue: they are left, or they are counted anew and
there is something to count. -/
def HasTickets (m : Machine T Core Cluster) (s : Sched T Core Cluster) (core : Core) : Prop :=
  if (s.engine core).sharedTickets = 0 then
    0 < (s.queue (.localQueue core)).depth * m.engineCount (m.cluster core)
  else 0 < (s.engine core).localTickets

instance : Decidable (s.HasTickets m core) := inferInstanceAs (Decidable (ite _ _ _))

/-- The thread that a reschedule finds: one of the engine's own queue, if there are tickets for it,
else one of the cluster. -/
def nextQueued (m : Machine T Core Cluster) (s : Sched T Core Cluster) (core : Core) : Option T :=
  (if s.HasTickets m core then s.firstQueued (.localQueue core) else none).or
    (s.firstQueued (.sharedQueue (m.cluster core)))

lemma firstQueued_eq_none {q : QueueId Core Cluster} : s.firstQueued q = none ↔ ¬ s.HasQueued q := by
  simp [firstQueued, HasQueued]

lemma getRunnableThread_fst (state : T → ThreadState) (depth : ℕ) (threads : List T) :
    (getRunnableThread state depth threads).1 = threads.find? fun t => state t = .queued := by
  induction threads generalizing depth with
  | nil => rfl
  | cons t threads ih =>
    rw [getRunnableThread]
    split_ifs with ht
    · rw [ih, List.find?_cons_of_neg (by simpa using ht)]
    · rw [List.find?_cons_of_pos (by simpa using ht)]

variable [DecidableEq Core] [DecidableEq Cluster]

lemma takeFrom_fst (s : Sched T Core Cluster) (q : QueueId Core Cluster) :
    (s.takeFrom q).1 = s.firstQueued q := getRunnableThread_fst ..

lemma takeShared_fst (s : Sched T Core Cluster) :
    (s.takeShared m core).1 = s.firstQueued (.sharedQueue (m.cluster core)) := by
  rw [takeShared, ← takeFrom_fst]
  split <;> simp_all

/-- **What `DoReschedule` takes**, said on the state before the call. -/
lemma selectThread_fst (s : Sched T Core Cluster) :
    (s.selectThread m core).1 = s.nextQueued m core := by
  have hfirst : ∀ q, (s.resetTickets m core).firstQueued q = s.firstQueued q := by
    intro q
    rw [resetTickets]
    split_ifs <;> rfl
  have htickets : 0 < ((s.resetTickets m core).engine core).localTickets ↔ s.HasTickets m core := by
    rw [resetTickets, HasTickets]
    split_ifs
    · rw [engine_setEngine_self]
    · rfl
  rw [selectThread, takeNext, nextQueued, ← hfirst, ← hfirst, ← takeFrom_fst]
  simp only [htickets]
  split_ifs with hlocal
  · cases htake : (s.resetTickets m core).takeFrom (.localQueue core) with
    | mk next s₁ =>
      cases next with
      | some t => rfl
      | none =>
        -- the queue of the cluster is as it was
        have hs₁ : s₁ = ((s.resetTickets m core).takeFrom (.localQueue core)).2 := by rw [htake]
        rw [Option.none_or]
        refine (takeShared_fst s₁).trans ?_
        rw [hs₁, firstQueued, takeFrom, queue_setQueue_of_ne (by simp)]
        rfl
  · rw [takeShared_fst, Option.none_or]

variable [DecidableEq T]

/-- **The idle thread runs only if nothing else is to be run**: a reschedule that makes it pending
finds no `Queued` thread in the engine's own queue nor in that of the cluster. -/
def IdleRight (m : Machine T Core Cluster) (s : Sched T Core Cluster) : SchedOp T Core → Prop
  | .doReschedule core => ∀ s', s.step m (.doReschedule core) = some s' →
      (s'.engine core).pendingThread = some (m.idleThread core) →
        ¬ s.HasQueued (.localQueue core) ∧ ¬ s.HasQueued (.sharedQueue (m.cluster core))
  | _ => True

/-- **The condition of a reschedule**: the thread it finds is not the idle thread itself, and if a
thread waits in the engine's own queue only, there are tickets for it. -/
def Served (m : Machine T Core Cluster) (s : Sched T Core Cluster) : SchedOp T Core → Prop
  | .doReschedule core => core ∈ m.engines → (s.engine core).reschedulePending = true →
      s.nextQueued m core ≠ some (m.idleThread core) ∧
        (s.HasQueued (.localQueue core) → ¬ s.HasQueued (.sharedQueue (m.cluster core)) →
          s.HasTickets m core)
  | _ => True

lemma pendingThread_doReschedule (m : Machine T Core Cluster) (s : Sched T Core Cluster)
    (core : Core) : ((s.doReschedule m core).engine core).pendingThread =
      some ((s.nextQueued m core).getD (m.idleThread core)) := by
  rw [doReschedule_eq, setPending, selectThread_fst]
  exact congrArg Engine.pendingThread engine_setEngine_self

/-- One reschedule. -/
lemma idleRight_iff (s : Sched T Core Cluster) (op : SchedOp T Core) :
    s.IdleRight m op ↔ s.Served m op := by
  cases op with
  | doReschedule core =>
    have hnone : s.nextQueued m core = none ↔
        (s.HasTickets m core → ¬ s.HasQueued (.localQueue core)) ∧
          ¬ s.HasQueued (.sharedQueue (m.cluster core)) := by
      rw [nextQueued, Option.or_eq_none_iff, ← firstQueued_eq_none, ← firstQueued_eq_none]
      split_ifs with htickets <;> simp [htickets]
    have hpending := pendingThread_doReschedule m s core
    rw [IdleRight, Served, step]
    by_cases hguard : core ∈ m.engines ∧ (s.engine core).reschedulePending = true
    · simp only [hguard, and_self, if_true, forall_const, Option.some.injEq, forall_eq', hpending]
      cases hnext : s.nextQueued m core with
      | none =>
        rw [hnext] at hnone
        simp only [Option.getD_none, ne_eq, reduceCtorEq, not_false_eq_true, true_and, forall_const]
        tauto
      | some t =>
        rw [hnext] at hnone
        simp only [Option.getD_some, Option.some.injEq, ne_eq, reduceCtorEq, false_iff] at hnone ⊢
        tauto
    · rw [if_neg hguard]
      exact iff_of_true (fun s' h => by cases h) fun hcore hpend => absurd ⟨hcore, hpend⟩ hguard
  | enqueueThread => exact Iff.rfl
  | dequeueThread => exact Iff.rfl
  | queueReschedule => exact Iff.rfl
  | doPendingSwitch => exact Iff.rfl

/-- **When the idle thread is made pending only if nothing else is to be run**, along a run on any
number of engines: exactly if no reschedule finds a thread in the engine's own queue only and has no
ticket for it (or finds the idle thread itself in a queue). -/
theorem idle_right_iff (m : Machine T Core Cluster) (ready : T → Bool)
    (unset : EngineOrQueue Core Cluster) (ops : List (SchedOp T Core)) :
    Allowed (fun s op => s.step m op) (IdleRight m) (init ready unset) ops ↔
      Allowed (fun s op => s.step m op) (Served m) (init ready unset) ops :=
  allowed_iff (fun _ => True) (fun s op _ => s.idleRight_iff op) (fun _ _ _ _ _ _ => trivial)
    trivial ops

/-- Two cores of a cluster with the idle threads 0 and 1; the thread 4 asks for the core 0. -/
def twoCores : Machine (Fin 5) (Fin 2) Unit where
  engines := [0, 1]
  clusters := [()]
  cluster _ := ()
  engineCount _ := 2
  idleThread core := core.castLE (by decide)
  affinity t := if t = 4 then some 0 else none
  remove threads t := t ∈ threads

/-- Each core takes a thread of the cluster; core 0 counted its tickets when both were there.  Then
the thread 4 is queued for core 0, which runs its idle thread. -/
theorem idle_beside_queued : ∃ s s', run (fun s op => s.step twoCores op)
    (init (fun t => 1 < t.val) (.engineId 0)) [.enqueueThread 2, .enqueueThread 3,
      .queueReschedule 0, .doReschedule 0, .queueReschedule 1, .doReschedule 1, .enqueueThread 4,
      .queueReschedule 0] = some s ∧ s.HasQueued (.localQueue 0) ∧
    s.step twoCores (.doReschedule 0) = some s' ∧
      (s'.engine 0).pendingThread = some (twoCores.idleThread 0) :=
  ⟨_, _, rfl, ⟨4, by decide, by decide⟩, rfl, by decide⟩

end Northport.Tasking.Sched
