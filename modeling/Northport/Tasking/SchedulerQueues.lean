/-
# The threads in the queues of the scheduler

No runnable thread is lost when a `Queued` thread is in one queue and a `Running` thread is the
current or the pending thread of one engine.  What putting a thread into a queue and taking one out
of it do to the queues is said here once.
-/
import Northport.Tasking.Scheduler

namespace Northport.Tasking

open Lib List Function Option

variable {T Core Cluster : Type*}

/-- The thread is the idle thread of an engine. -/
def Machine.Idle (m : Machine T Core Cluster) (t : T) : Prop :=
  ∃ core ∈ m.engines, m.idleThread core = t

namespace Sched

/-- The engine has the thread as its current or pending one. -/
def Holds (s : Sched T Core Cluster) (core : Core) (t : T) : Prop :=
  (s.engine core).current = some t ∨ (s.engine core).pendingThread = some t

/-- A thread that would be lost if the engine's pending thread were forgotten. -/
def OnlyPending (m : Machine T Core Cluster) (s : Sched T Core Cluster) (core : Core) (t : T) :
    Prop :=
  (s.engine core).pendingThread = some t ∧ (s.engine core).current ≠ some t ∧
    s.state t = .running ∧ ¬ m.Idle t

variable [DecidableEq T]

/-- How often a thread is in a queue. -/
def copies (s : Sched T Core Cluster) (t : T) (q : QueueId Core Cluster) : ℕ :=
  (s.queue q).threads.count t

def InNoQueue (s : Sched T Core Cluster) (t : T) : Prop := ∀ q, s.copies t q = 0

variable [DecidableEq Core] [DecidableEq Cluster]

def InOneQueue (s : Sched T Core Cluster) (t : T) : Prop :=
  ∃ q, ∀ q', s.copies t q' = if q' = q then 1 else 0

/-- **No runnable thread is lost**, and the queues know their lengths. -/
structure Sound (m : Machine T Core Cluster) (s : Sched T Core Cluster) : Prop where
  depth : ∀ q, (s.queue q).depth = (s.queue q).threads.length
  queued : ∀ t, s.state t = .queued → s.InOneQueue t
  running : ∀ t, s.state t = .running → ¬ m.Idle t → ∃! core, s.Holds core t

/-- **The invariant**: moreover, a thread of its own that is not `Queued` is in no queue, and a
`Running` one is with the engine that it names.  Idle threads are run without being queued. -/
structure Inv (m : Machine T Core Cluster) (s : Sched T Core Cluster) : Prop extends Sound m s where
  free : ∀ t, ¬ m.Idle t → s.state t ≠ .queued → s.InNoQueue t
  held : ∀ t core, ¬ m.Idle t → s.state t = .running → s.engineOrQueue t = .engineId core →
    s.Holds core t

variable {m : Machine T Core Cluster} {s s' : Sched T Core Cluster} {t : T} {core : Core}
  {q : QueueId Core Cluster} {queue : WorkQueue T} {t' : T} {e : Engine T} {core' : Core}
  {next : Option T}

omit [DecidableEq T] [DecidableEq Core] [DecidableEq Cluster] in
lemma init_state (ready : T → Bool) (unset : EngineOrQueue Core Cluster) (t : T) :
    (init ready unset).state t ≠ .queued ∧ (init ready unset).state t ≠ .running := by
  simp only [init]
  split_ifs <;> exact ⟨by decide, by decide⟩

lemma inv_init (ready : T → Bool) (unset : EngineOrQueue Core Cluster) :
    Inv m (init ready unset) := by
  have hstate := init_state ready unset
  refine ⟨⟨fun q => rfl, fun t h => ?_, fun t h _ => ?_⟩, fun t _ _ q => rfl, fun t core _ h => ?_⟩
  · exact absurd h (hstate t).1
  · exact absurd h (hstate t).2
  · exact absurd h (hstate t).2

omit [DecidableEq T] in
lemma queue_setQueue_self : (s.setQueue q queue).queue q = queue :=
  update_self ..

omit [DecidableEq T] in
lemma queue_setQueue_of_ne {q' : QueueId Core Cluster} (h : q' ≠ q) :
    (s.setQueue q queue).queue q' = s.queue q' :=
  update_of_ne h ..

/-! ### Putting a thread into a queue -/

lemma copies_pushBack (t' : T) (q' : QueueId Core Cluster) : (s.pushBack q t).copies t' q' =
    s.copies t' q' + if q' = q ∧ t' = t then 1 else 0 := by
  simp only [copies, pushBack, setQueue]
  by_cases hq : q' = q
  · subst hq
    by_cases ht : t' = t
    · simp [ht]
    · simp [ht, Ne.symm ht]
  · rw [update_of_ne hq, if_neg fun h => hq h.1]
    rfl

lemma state_pushBack_self : (s.pushBack q t).state t = .queued := update_self ..

lemma state_pushBack_of_ne (h : t' ≠ t) : (s.pushBack q t).state t' = s.state t' :=
  update_of_ne h ..

/-- A thread that was in no queue is in one afterwards. -/
lemma InNoQueue.pushBack (h : s.InNoQueue t) : (s.pushBack q t).InOneQueue t := by
  refine ⟨q, fun q' => ?_⟩
  rw [copies_pushBack, h q']
  simp

/-- A thread that is in one queue afterwards was in none. -/
lemma inNoQueue_of_pushBack (h : (s.pushBack q t).InOneQueue t) : s.InNoQueue t := by
  obtain ⟨q₀, hq₀⟩ := h
  intro q'
  have hself := hq₀ q
  have hq' := hq₀ q'
  rw [copies_pushBack] at hself hq'
  split_ifs at hself hq' <;> first | omega | simp_all

/-- **A call for the thread `t`** that is not `Running` afterwards: the rest of the invariant is about
the other threads, for which nothing has changed. -/
lemma Inv.of_others (hs : Inv m s) (hengine : s'.engine = s.engine)
    (hothers : ∀ t', t' ≠ t → s'.state t' = s.state t' ∧ (∀ q, s'.copies t' q = s.copies t' q) ∧
      s'.engineOrQueue t' = s.engineOrQueue t')
    (hdepth : ∀ q, (s'.queue q).depth = (s'.queue q).threads.length)
    (hrunning : s'.state t ≠ .running) (hqueued : s'.state t = .queued → s'.InOneQueue t)
    (hfree : ¬ m.Idle t → s'.state t ≠ .queued → s'.InNoQueue t) : Inv m s' := by
  have hholds : ∀ core t', s'.Holds core t' ↔ s.Holds core t' := fun core t' => by
    rw [Holds, Holds, hengine]
  have hne : ∀ t', s'.state t' = .running → t' ≠ t := fun t' h heq => hrunning (heq ▸ h)
  refine ⟨⟨hdepth, fun t' h => ?_, fun t' h hidle => ?_⟩, fun t' hidle h => ?_,
    fun t' core hidle h hcore => (hholds core t').mpr ?_⟩
  · by_cases heq : t' = t
    · exact heq ▸ hqueued (heq ▸ h)
    · obtain ⟨hstate, hcopies, -⟩ := hothers t' heq
      obtain ⟨q, hq⟩ := hs.queued t' (hstate ▸ h)
      exact ⟨q, fun q' => (hcopies q').trans (hq q')⟩
  · obtain ⟨hstate, -⟩ := hothers t' (hne t' h)
    exact (existsUnique_congr fun core => hholds core t').mpr (hs.running t' (hstate ▸ h) hidle)
  · by_cases heq : t' = t
    · exact heq ▸ hfree (heq ▸ hidle) (heq ▸ h)
    · obtain ⟨hstate, hcopies, -⟩ := hothers t' heq
      exact fun q => (hcopies q).trans (hs.free t' hidle (hstate ▸ h) q)
  · obtain ⟨hstate, -, hplace⟩ := hothers t' (hne t' h)
    exact hs.held t' core hidle (hstate ▸ h) (hplace ▸ hcore)

lemma Inv.pushBack (hs : Inv m s) (ht : s.InNoQueue t) : Inv m (s.pushBack q t) := by
  have hself := state_pushBack_self (s := s) (q := q) (t := t)
  refine hs.of_others rfl (fun t' heq => ⟨state_pushBack_of_ne heq, fun q' => ?_,
    update_of_ne heq ..⟩) (fun q' => ?_) (hself ▸ by decide) (fun _ => ht.pushBack)
    fun _ h => absurd hself h
  · rw [copies_pushBack, if_neg fun h => heq h.2, add_zero]
  · simp only [Sched.pushBack, setQueue]
    by_cases hq : q' = q
    · subst hq
      rw [update_self, length_append, length_singleton, hs.depth]
    · rw [update_of_ne hq]
      exact hs.depth q'

/-! ### Changing what the engines hold -/

section

omit [DecidableEq T] [DecidableEq Cluster]

lemma engine_setEngine_self : (s.setEngine core e).engine core = e :=
  update_self ..

lemma engine_setEngine_of_ne (h : core' ≠ core) :
    (s.setEngine core e).engine core' = s.engine core' :=
  update_of_ne h ..

lemma holds_setEngine_of_ne (h : core' ≠ core) :
    (s.setEngine core e).Holds core' t ↔ s.Holds core' t := by
  rw [Holds, engine_setEngine_of_ne h, Holds]

lemma holds_setEngine_self : (s.setEngine core e).Holds core t ↔
    e.current = some t ∨ e.pendingThread = some t := by
  rw [Holds, engine_setEngine_self]

end

/-- The engine of a core changes, but not which of the running threads it holds. -/
lemma Inv.changeEngine (hs : Inv m s) (hholds : ∀ t, s.state t = .running →
      ¬ m.Idle t → ((e.current = some t ∨ e.pendingThread = some t) ↔ s.Holds core t)) :
    Inv m (s.setEngine core e) := by
  have hiff : ∀ t core', s.state t = .running → ¬ m.Idle t →
      ((s.setEngine core e).Holds core' t ↔ s.Holds core' t) := by
    intro t core' hrunning hidle
    by_cases h : core' = core
    · subst h
      rw [holds_setEngine_self]
      exact hholds t hrunning hidle
    · exact holds_setEngine_of_ne h
  refine ⟨⟨hs.depth, hs.queued, fun t h hidle => ?_⟩, hs.free, fun t core' hidle h hc => ?_⟩
  · exact (existsUnique_congr fun core => hiff t core h hidle).mpr (hs.running t h hidle)
  · exact (hiff t core' h hidle).mpr (hs.held t core' hidle h hc)

/-- Flags and tickets say nothing about the threads. -/
lemma Inv.setEngine (hs : Inv m s) (hcurrent : e.current = (s.engine core).current)
    (hpending : e.pendingThread = (s.engine core).pendingThread) : Inv m (s.setEngine core e) := by
  refine hs.changeEngine fun t _ _ => ?_
  rw [hcurrent, hpending, Holds]

/-! ### Taking a thread out -/

/-- **What taking the next thread does**: threads that are not `Queued` may be dropped from the
queues, and of the others only the one that is taken, from a queue of the engine. -/
structure Taken (m : Machine T Core Cluster) (core : Core) (s s' : Sched T Core Cluster)
    (next : Option T) : Prop where
  state : s'.state = s.state
  engineOrQueue : s'.engineOrQueue = s.engineOrQueue
  engine : ∀ core, (s'.engine core).current = (s.engine core).current ∧
    (s'.engine core).pendingThread = (s.engine core).pendingThread
  depth : (∀ q, (s.queue q).depth = (s.queue q).threads.length) →
    ∀ q, (s'.queue q).depth = (s'.queue q).threads.length
  copies_le : ∀ t q, s'.copies t q ≤ s.copies t q
  copies_eq : ∀ t q, s.state t = .queued → next ≠ some t → s'.copies t q = s.copies t q
  taken : ∀ t, next = some t → s.state t = .queued ∧
    ∃ q, (q = .localQueue core ∨ q = .sharedQueue (m.cluster core)) ∧
      ∀ q', s.copies t q' = s'.copies t q' + if q' = q then 1 else 0

lemma Taken.refl (s : Sched T Core Cluster) : Taken m core s s none where
  state := rfl
  engineOrQueue := rfl
  engine _ := ⟨rfl, rfl⟩
  depth h := h
  copies_le _ _ := le_rfl
  copies_eq _ _ _ _ := rfl
  taken _ h := absurd h (by simp)

lemma Taken.trans {s₁ : Sched T Core Cluster} (h : Taken m core s s₁ none)
    (h' : Taken m core s₁ s' next) : Taken m core s s' next where
  state := h'.state.trans h.state
  engineOrQueue := h'.engineOrQueue.trans h.engineOrQueue
  engine core :=
    ⟨(h'.engine core).1.trans (h.engine core).1, (h'.engine core).2.trans (h.engine core).2⟩
  depth hdepth := h'.depth (h.depth hdepth)
  copies_le t q := (h'.copies_le t q).trans (h.copies_le t q)
  copies_eq t q ht hne :=
    (h'.copies_eq t q (h.state ▸ ht) hne).trans (h.copies_eq t q ht (by simp))
  taken t ht := by
    obtain ⟨hstate, q, hserved, hq⟩ := h'.taken t ht
    rw [h.state] at hstate
    refine ⟨hstate, q, hserved, fun q' => ?_⟩
    rw [← h.copies_eq t q' hstate (by simp)]
    exact hq q'

/-- Flags and tickets may change. -/
lemma Taken.setEngine (h : Taken m core s s' next)
    (hcurrent : e.current = (s'.engine core).current)
    (hpending : e.pendingThread = (s'.engine core).pendingThread) :
    Taken m core s (s'.setEngine core e) next := by
  refine ⟨h.state, h.engineOrQueue, fun core' => ?_, h.depth, h.copies_le, h.copies_eq, h.taken⟩
  rw [← (h.engine core').1, ← (h.engine core').2]
  by_cases heq : core' = core
  · subst heq
    rw [engine_setEngine_self]
    exact ⟨hcurrent, hpending⟩
  · rw [engine_setEngine_of_ne heq]
    exact ⟨rfl, rfl⟩

omit [DecidableEq T] in
/-- `GetRunnableThread` drops what is not `Queued`, takes the next thread and counts what it took
away. -/
lemma getRunnableThread_spec (state : T → ThreadState) (depth : ℕ) (threads : List T) :
    ∃ dropped, (∀ t ∈ dropped, state t ≠ .queued) ∧
      (∀ t ∈ (getRunnableThread state depth threads).1, state t = .queued) ∧
      threads = dropped ++ (getRunnableThread state depth threads).1.toList ++
        (getRunnableThread state depth threads).2.threads ∧
      (getRunnableThread state depth threads).2.depth = depth - (dropped.length +
        (getRunnableThread state depth threads).1.toList.length) := by
  induction threads generalizing depth with
  | nil => exact ⟨[], by simp [getRunnableThread]⟩
  | cons t threads ih =>
    rw [getRunnableThread]
    by_cases ht : state t ≠ .queued
    · rw [if_pos ht]
      obtain ⟨dropped, hdropped, hnext, hthreads, hdepth⟩ := ih (depth - 1)
      refine ⟨t :: dropped, ?_, hnext, ?_, ?_⟩
      · exact forall_mem_cons.mpr ⟨ht, hdropped⟩
      · rw [cons_append, cons_append, ← hthreads]
      · rw [hdepth, length_cons]
        omega
    · rw [if_neg ht]
      exact ⟨[], by simp, by simpa using ht, rfl, rfl⟩

section

variable (s : Sched T Core Cluster)

lemma taken_takeFrom (hq : q = .localQueue core ∨ q = .sharedQueue (m.cluster core)) :
    Taken m core s (s.takeFrom q).2 (s.takeFrom q).1 := by
  obtain ⟨dropped, hdropped, hnext, hthreads, hdepth⟩ :=
    getRunnableThread_spec s.state (s.queue q).depth (s.queue q).threads
  rw [takeFrom]
  generalize getRunnableThread s.state (s.queue q).depth (s.queue q).threads = taken at *
  obtain ⟨next, queue⟩ := taken
  dsimp only at hnext hthreads hdepth ⊢
  -- what is counted in the queue, before and after
  have hself : ∀ t, s.copies t q =
      dropped.count t + next.toList.count t + queue.threads.count t := by
    intro t
    rw [copies, hthreads, count_append, count_append]
  have hcopies : ∀ t q', (s.setQueue q queue).copies t q' =
      if q' = q then queue.threads.count t else s.copies t q' := by
    intro t q'
    rw [copies]
    by_cases h : q' = q
    · subst h
      rw [if_pos rfl, queue_setQueue_self]
    · rw [if_neg h, queue_setQueue_of_ne h, copies]
  refine ⟨rfl, rfl, fun _ => ⟨rfl, rfl⟩, fun h q' => ?_, fun t q' => ?_,
    fun t q' ht hne => ?_, fun t ht => ⟨hnext t ht, q, hq, fun q' => ?_⟩⟩
  · by_cases heq : q' = q
    · subst heq
      have hlength := congrArg length hthreads
      rw [length_append, length_append, ← h q'] at hlength
      rw [queue_setQueue_self]
      omega
    · rw [queue_setQueue_of_ne heq]
      exact h q'
  · rw [hcopies]
    split_ifs with h
    · rw [h, hself]
      omega
    · exact le_rfl
  · rw [hcopies]
    split_ifs with h
    · have hdrop : dropped.count t = 0 := count_eq_zero.mpr fun h => hdropped t h ht
      have htake : next.toList.count t = 0 :=
        count_eq_zero.mpr fun h => hne (mem_toList.mp h)
      rw [h, hself, hdrop]
      omega
    · rfl
  · rw [hcopies]
    split_ifs with h
    · have hdrop : dropped.count t = 0 := count_eq_zero.mpr fun h => hdropped t h (hnext t ht)
      rw [h, hself, ht]
      rw [toList_some, count_singleton_self]
      omega
    · rfl

lemma taken_takeShared : Taken m core s (s.takeShared m core).2 (s.takeShared m core).1 := by
  have h : Taken m core s _ _ := taken_takeFrom s (.inr rfl)
  rw [takeShared]
  generalize s.takeFrom (.sharedQueue (m.cluster core)) = taken at h ⊢
  obtain ⟨next, s₁⟩ := taken
  cases next with
  | none => exact h
  | some t => exact h.setEngine rfl rfl

lemma taken_takeNext : Taken m core s (s.takeNext m core).2 (s.takeNext m core).1 := by
  rw [takeNext]
  split_ifs with htickets
  · have h : Taken m core s _ _ := taken_takeFrom s (.inl rfl)
    generalize s.takeFrom (.localQueue core) = taken at h ⊢
    obtain ⟨next, s₁⟩ := taken
    cases next with
    | none => exact h.trans (taken_takeShared s₁)
    | some t => exact h.setEngine rfl rfl
  · exact taken_takeShared s

lemma taken_resetTickets : Taken m core s (s.resetTickets m core) none := by
  rw [resetTickets]
  split_ifs
  · exact (Taken.refl s).setEngine rfl rfl
  · exact Taken.refl s

lemma taken_selectThread (core : Core) :
    Taken m core s (s.selectThread m core).2 (s.selectThread m core).1 :=
  (taken_resetTickets s).trans (taken_takeNext _)

end

/-! ### The pending thread -/

section

omit [DecidableEq Cluster]

lemma state_setPending_self : (s.setPending core t).state t = .running := update_self ..

lemma state_setPending_of_ne (h : t' ≠ t) : (s.setPending core t).state t' = s.state t' :=
  update_of_ne h ..

lemma engineOrQueue_setPending_self : (s.setPending core t).engineOrQueue t = .engineId core :=
  update_self ..

lemma engineOrQueue_setPending_of_ne (h : t' ≠ t) :
    (s.setPending core t).engineOrQueue t' = s.engineOrQueue t' :=
  update_of_ne h ..

lemma holds_setPending_self : (s.setPending core t).Holds core t' ↔
    (s.engine core).current = some t' ∨ t = t' := by
  rw [Holds, setPending, setEngine]
  simp only [update_self, some_inj]

lemma holds_setPending_of_ne (h : core' ≠ core) :
    (s.setPending core t).Holds core' t' ↔ s.Holds core' t' :=
  holds_setEngine_of_ne h

end

lemma doReschedule_eq (s : Sched T Core Cluster) (core : Core) : s.doReschedule m core =
    (s.selectThread m core).2.setPending core
      ((s.selectThread m core).1.getD (m.idleThread core)) :=
  rfl

lemma Taken.holds_iff (h : Taken m core s s' next) : s'.Holds core' t ↔ s.Holds core' t := by
  rw [Holds, Holds, (h.engine core').1, (h.engine core').2]

end Sched

end Northport.Tasking
