/-
# Runs of the scheduler

Each function keeps the invariant under a condition, and without the condition a thread is lost or
doubled at once.  So no runnable thread is lost along a run exactly if every step meets its
condition.
-/
import Northport.Tasking.SchedulerQueues

namespace Northport.Tasking

open Lib Option Function List

variable {T Core Cluster : Type*} [DecidableEq T] [DecidableEq Core] [DecidableEq Cluster]

/-- The thread may be in the queue. -/
def Machine.Fits (m : Machine T Core Cluster) (t : T) : QueueId Core Cluster → Prop
  | .localQueue core => m.affinity t = some core
  | .sharedQueue _ => m.affinity t = none

/-- The engine may run the thread. -/
def Machine.MayRun (m : Machine T Core Cluster) (core : Core) (t : T) : Prop :=
  t = m.idleThread core ∨ m.affinity t = none ∨ m.affinity t = some core

namespace Sched

/-- **What a step must not do**: `DoReschedule` forget a pending thread, or take a thread that
another engine still has; the rest is about idle threads that somebody put into a queue. -/
def Harmless (m : Machine T Core Cluster) (s : Sched T Core Cluster) : SchedOp T Core → Prop
  | .enqueueThread t =>
    m.Idle t → s.state t = .ready → (s.selectQueue m t).isSome → s.InNoQueue t
  | .dequeueThread core t =>
    m.Idle t → s.state t = .running → s.engineOrQueue t = .engineId core →
      (s.engine core).current ≠ some t → ∀ p, p ≠ t → ¬ s.OnlyPending m core p
  | .queueReschedule _ => True
  | .doReschedule core =>
    (∀ p, ¬ s.OnlyPending m core p) ∧
      ∀ t ∈ (s.selectThread m core).1, ¬ m.Idle t → ∀ core' ≠ core, ¬ s.Holds core' t
  | .doPendingSwitch core =>
    ∀ c ∈ (s.engine core).current, m.Idle c → c ≠ m.idleThread core → s.state c = .running →
      s.InNoQueue c

/-- A step that fails does no harm. -/
def KeepsThreads (m : Machine T Core Cluster) (s : Sched T Core Cluster) (op : SchedOp T Core) :
    Prop :=
  (s.step m op).isSome → s.Harmless m op

variable {m : Machine T Core Cluster} {s s' : Sched T Core Cluster} {t : T} {core : Core}
  {next : Option T} {op : SchedOp T Core}

/-! ### `EnqueueThread` -/

lemma inv_enqueueThread (hs : Inv m s) (h : s.Harmless m (.enqueueThread t)) :
    Inv m (s.enqueueThread m t) := by
  rw [enqueueThread]
  by_cases hready : s.state t = .ready
  · rw [if_pos hready]
    cases hq : s.selectQueue m t with
    | none => exact hs
    | some q =>
      refine hs.pushBack ?_
      by_cases hidle : m.Idle t
      · exact h hidle hready (hq ▸ rfl)
      · exact hs.free t hidle (hready ▸ by decide)
  · rw [if_neg hready]
    exact hs

lemma harmless_enqueueThread (h : Sound m (s.enqueueThread m t)) :
    s.Harmless m (.enqueueThread t) := by
  intro _ hready hq
  obtain ⟨q, hq⟩ := isSome_iff_exists.mp hq
  rw [enqueueThread, if_pos hready, hq] at h
  exact inNoQueue_of_pushBack (h.queued t state_pushBack_self)

/-! ### `DequeueThread` -/

/-- A thread that is `Ready` and in no queue is no concern of the invariant. -/
lemma Inv.setReady (hs : Inv m s) (ht : s.state t ≠ .queued) : Inv m (s.setState t .ready) := by
  have hself : (s.setState t .ready).state t = .ready := update_self ..
  exact hs.of_others rfl (fun t' heq => ⟨update_of_ne heq .., fun _ => rfl, rfl⟩) hs.depth
    (by simp [hself]) (by simp [hself]) fun hidle _ => hs.free t hidle ht

/-- The engine forgets its pending thread, which is the one that was dequeued. -/
lemma Inv.clearPending (hs : Inv m s) (hp : ∀ p, ¬ s.OnlyPending m core p) :
    Inv m (s.setEngine core { s.engine core with pendingThread := none }) := by
  refine hs.changeEngine fun t hrunning hidle => ?_
  refine ⟨fun h => .inl (h.resolve_right (by simp)), fun h => .inl ?_⟩
  by_contra hcurrent
  exact hp t ⟨h.resolve_left hcurrent, hcurrent, hrunning, hidle⟩

lemma copies_remove {q : QueueId Core Cluster} {depth : ℕ} (t' : T) (q' : QueueId Core Cluster) :
    ((s.setState t .ready).setQueue q ⟨depth, (s.queue q).threads.erase t⟩).copies t' q' =
      s.copies t' q' - if q' = q ∧ t' = t then 1 else 0 := by
  rw [copies]
  by_cases hq : q' = q
  · subst hq
    rw [queue_setQueue_self, count_erase, copies]
    simp only [beq_iff_eq, eq_comm (a := t), true_and]
  · rw [queue_setQueue_of_ne hq, if_neg fun h => hq h.1]
    rfl

/-- The thread leaves its queue. -/
lemma Inv.remove {q : QueueId Core Cluster} (hs : Inv m s) (ht : s.state t = .queued)
    (hq : t ∈ (s.queue q).threads) : Inv m ((s.setState t .ready).setQueue q
      ⟨(s.queue q).depth - 1, (s.queue q).threads.erase t⟩) := by
  have hself : (s.setState t .ready).state t = .ready := update_self ..
  refine hs.of_others rfl (fun t' heq => ⟨update_of_ne heq .., fun q' => ?_, rfl⟩) (fun q' => ?_)
    (hself.trans_ne (by decide)) (fun h => absurd (hself.symm.trans h) (by decide))
    fun _ _ q' => ?_
  · rw [copies_remove, if_neg fun h => heq h.2, Nat.sub_zero]
  · by_cases heq : q' = q
    · subst heq
      rw [queue_setQueue_self, length_erase_of_mem hq, hs.depth]
    · rw [queue_setQueue_of_ne heq]
      exact hs.depth q'
  · -- the thread was in this queue once and in no other one
    obtain ⟨q₀, hq₀⟩ := hs.queued t ht
    have hpos : 0 < s.copies t q := count_pos_iff.mpr hq
    obtain rfl : q = q₀ := by
      by_contra hne
      rw [hq₀, if_neg hne] at hpos
      exact lt_irrefl 0 hpos
    rw [copies_remove, hq₀]
    split_ifs <;> simp_all

lemma inv_dequeueThread (hs : Inv m s) (h : s.Harmless m (.dequeueThread core t))
    (hs' : s.dequeueThread m core t = some s') : Inv m s' := by
  rw [dequeueThread] at hs'
  split at hs'
  · rename_i core' hrunning hplace
    have hready := hs.setReady (t := t) (hrunning ▸ by decide)
    split_ifs at hs' with hcore hcurrent
    · cases hs'
      exact hready.setEngine rfl rfl
    · cases hs'
      subst hcore
      refine hready.clearPending fun p hp => ?_
      have hne : p ≠ t := by
        rintro rfl
        exact absurd hp.2.2.1 (by simp [setState])
      have hponly : s.OnlyPending m core' p :=
        ⟨hp.1, hp.2.1, (update_of_ne hne ..).symm.trans hp.2.2.1, hp.2.2.2⟩
      by_cases hidle : m.Idle t
      · exact h hidle hrunning hplace hcurrent p hne hponly
      · -- the thread itself is the pending one
        have hpending := (hs.held t core' hidle hrunning hplace).resolve_left hcurrent
        exact hne (some.inj (hponly.1.symm.trans hpending))
    · cases hs'
      exact hready
  · rename_i q hqueued hplace
    obtain ⟨⟨hq, -⟩, hs'⟩ := ite_none_right_eq_some.mp hs'
    cases hs'
    exact hs.remove hqueued hq
  · cases hs'
  · cases hs'
  · cases hs'
    exact hs

/-- A thread that only its slot keeps is lost when the slot is overwritten. -/
lemma not_sound_of_forgotten {p : T} (hs : Sound m s) (hp : s.OnlyPending m core p)
    (hstate : s'.state p = .running) (hgone : ¬ s'.Holds core p)
    (hother : ∀ core', core' ≠ core → (s'.Holds core' p ↔ s.Holds core' p)) : ¬ Sound m s' := by
  intro hs'
  obtain ⟨hponly, -, hrunning, hidle⟩ := hp
  obtain ⟨core', hcore', -⟩ := hs'.running p hstate hidle
  by_cases heq : core' = core
  · subst heq
    exact hgone hcore'
  · exact heq ((hs.running p hrunning hidle).unique ((hother core' heq).mp hcore') (.inr hponly))

lemma harmless_dequeueThread (hs : Sound m s)
    (h : ∀ s', s.dequeueThread m core t = some s' → Sound m s') :
    s.Harmless m (.dequeueThread core t) := by
  intro _ hrunning hplace hcurrent p hne hp
  refine not_sound_of_forgotten hs hp ?_ ?_ ?_ (h ((s.setState t .ready).setEngine core
    { s.engine core with pendingThread := none }) ?_)
  · exact (update_of_ne hne ..).trans hp.2.2.1
  · rw [holds_setEngine_self]
    exact fun h => hp.2.1 (h.resolve_right (by simp))
  · exact fun core' heq => holds_setEngine_of_ne heq
  · rw [dequeueThread, hrunning, hplace]
    dsimp only
    rw [if_pos rfl, if_neg hcurrent]

/-! ### `DoReschedule` -/

/-- A thread that was in one queue is in none once it has been taken. -/
lemma Taken.inNoQueue (h : Taken m core s s' next) (hs : Sound m s) (ht : next = some t) :
    s'.InNoQueue t := by
  obtain ⟨hstate, q, -, hq⟩ := h.taken t ht
  obtain ⟨q₀, hq₀⟩ := hs.queued t hstate
  have hself := hq q
  rw [hq₀ q, if_pos rfl] at hself
  have heq : q = q₀ := by
    by_contra hne
    rw [if_neg hne] at hself
    omega
  intro q'
  have hq' := hq q'
  rw [hq₀ q', heq] at hq'
  omega

omit [DecidableEq T] [DecidableEq Core] [DecidableEq Cluster] in
/-- The thread that becomes pending is the one that was taken, unless it is an idle thread. -/
lemma next_eq_some (hcore : core ∈ m.engines) (hidle : ¬ m.Idle (next.getD (m.idleThread core))) :
    next = some (next.getD (m.idleThread core)) := by
  cases next with
  | none => exact absurd ⟨core, hcore, rfl⟩ hidle
  | some t => rfl

/-- `DoReschedule` keeps the invariant when it forgets no thread and takes none that another engine
has. -/
lemma Inv.setPending (hs : Inv m s) (h : Taken m core s s' next) (hcore : core ∈ m.engines)
    (hforget : ∀ p, ¬ s.OnlyPending m core p)
    (hother : ∀ t ∈ next, ¬ m.Idle t → ∀ core' ≠ core, ¬ s.Holds core' t) :
    Inv m (s'.setPending core (next.getD (m.idleThread core))) := by
  have hnext : ¬ m.Idle (next.getD (m.idleThread core)) → _ := next_eq_some hcore
  have hsome : ∀ t, next = some t → t = next.getD (m.idleThread core) := by
    rintro t rfl
    rfl
  generalize next.getD (m.idleThread core) = n at hnext hsome ⊢
  have hstate : ∀ t, t ≠ n → (s'.setPending core n).state t = s.state t :=
    fun t hne => (state_setPending_of_ne hne).trans (congrFun h.state t)
  -- what the engines have of the other threads stays
  have hholds : ∀ t core', t ≠ n → s.state t = .running → ¬ m.Idle t →
      ((s'.setPending core n).Holds core' t ↔ s.Holds core' t) := by
    intro t core' hne hrunning hidle
    by_cases heq : core' = core
    · subst heq
      rw [holds_setPending_self, (h.engine _).1]
      refine ⟨fun h => .inl (h.resolve_right (Ne.symm hne)), fun h => .inl ?_⟩
      by_contra hcurrent
      exact hforget t ⟨h.resolve_left hcurrent, hcurrent, hrunning, hidle⟩
    · rw [holds_setPending_of_ne heq, h.holds_iff]
  refine ⟨⟨h.depth hs.depth, fun t ht => ?_, fun t ht hidle => ?_⟩, fun t hidle ht => ?_,
    fun t core' hidle ht hplace => ?_⟩
  · have hne : t ≠ n := by
      rintro rfl
      exact absurd (state_setPending_self.symm.trans ht) (by decide)
    rw [hstate t hne] at ht
    obtain ⟨q, hq⟩ := hs.queued t ht
    refine ⟨q, fun q' => ?_⟩
    exact (h.copies_eq t q' ht fun heq => hne (hsome t heq)).trans (hq q')
  · by_cases heq : t = n
    · subst heq
      refine ⟨core, holds_setPending_self.mpr (.inr rfl), fun core' hcore' => ?_⟩
      by_contra hne
      have hcore' := h.holds_iff.mp ((holds_setPending_of_ne hne).mp hcore')
      exact hother t (hnext hidle) hidle core' hne hcore'
    · rw [hstate t heq] at ht
      exact (existsUnique_congr fun core' => hholds t core' heq ht hidle).mpr
        (hs.running t ht hidle)
  · by_cases heq : t = n
    · subst heq
      exact h.inNoQueue hs.toSound (hnext hidle)
    · rw [hstate t heq] at ht
      exact fun q' => Nat.le_zero.mp ((h.copies_le t q').trans (hs.free t hidle ht q').le)
  · by_cases heq : t = n
    · subst heq
      obtain rfl : core = core' :=
        EngineOrQueue.engineId.inj (engineOrQueue_setPending_self.symm.trans hplace)
      exact holds_setPending_self.mpr (.inr rfl)
    · rw [hstate t heq] at ht
      have hplace : s.engineOrQueue t = .engineId core' := by
        rw [← h.engineOrQueue, ← engineOrQueue_setPending_of_ne heq]
        exact hplace
      exact (hholds t core' heq ht hidle).mpr (hs.held t core' hidle ht hplace)

lemma inv_doReschedule (hs : Inv m s) (hcore : core ∈ m.engines)
    (h : s.Harmless m (.doReschedule core)) : Inv m (s.doReschedule m core) :=
  hs.setPending (taken_selectThread s core) hcore h.1 h.2

lemma harmless_doReschedule (hs : Sound m s) (hcore : core ∈ m.engines)
    (hs' : Sound m (s.doReschedule m core)) : s.Harmless m (.doReschedule core) := by
  have h := taken_selectThread (m := m) s core
  obtain ⟨n, hn⟩ : ∃ n, n = (s.selectThread m core).1.getD (m.idleThread core) := ⟨_, rfl⟩
  rw [doReschedule_eq, ← hn] at hs'
  constructor
  · intro p hp
    -- neither a queued thread nor an idle one is running
    have hne : p ≠ n := by
      intro heq
      have hidle := hp.2.2.2
      rw [heq, hn] at hidle
      have hqueued := (h.taken n (hn ▸ next_eq_some hcore hidle)).1
      exact absurd (hp.2.2.1.symm.trans (heq ▸ hqueued)) (by decide)
    refine not_sound_of_forgotten hs hp ?_ ?_ ?_ hs'
    · rw [state_setPending_of_ne hne, h.state]
      exact hp.2.2.1
    · rw [holds_setPending_self, (h.engine _).1]
      exact fun h => hp.2.1 (h.resolve_right (Ne.symm hne))
    · intro core' heq
      rw [holds_setPending_of_ne heq, h.holds_iff]
  · intro t ht hidle core' hne hcore'
    obtain rfl : t = n := by
      rw [hn, show (s.selectThread m core).1 = some t from ht]
      rfl
    have hunique := hs'.running t state_setPending_self hidle
    refine hne (hunique.unique ?_ (holds_setPending_self.mpr (.inr rfl)))
    exact (holds_setPending_of_ne hne).mpr (h.holds_iff.mpr hcore')

/-! ### `DoPendingSwitch` -/

/-- The current thread goes back into a queue, or it is none that has to run on. -/
lemma requeueCurrent_cases (h : s.requeueCurrent m core = some s') :
    (∃ c q, (s.engine core).current = some c ∧ c ≠ m.idleThread core ∧ s.state c = .running ∧
      s' = s.pushBack q c) ∨
    s' = s ∧ ∀ c ∈ (s.engine core).current, c ≠ m.idleThread core → s.state c ≠ .running := by
  rw [requeueCurrent] at h
  cases hcurrent : (s.engine core).current with
  | none =>
    rw [hcurrent] at h
    exact .inr ⟨(some.inj h).symm, fun c hc => absurd hc (not_mem_none c)⟩
  | some c =>
    rw [hcurrent] at h
    dsimp only at h
    by_cases hc : c ≠ m.idleThread core ∧ s.state c = .running
    · rw [if_pos hc] at h
      split at h
      · exact .inl ⟨c, _, rfl, hc.1, hc.2, (some.inj h).symm⟩
      · obtain ⟨-, h⟩ := ite_none_right_eq_some.mp h
        exact .inl ⟨c, _, rfl, hc.1, hc.2, (some.inj h).symm⟩
    · rw [if_neg hc] at h
      refine .inr ⟨(some.inj h).symm, fun c' heq hne hrunning => hc ?_⟩
      cases heq
      exact ⟨hne, hrunning⟩

/-- The pending thread becomes the current one in place of a thread that need not run on. -/
lemma Inv.switch {next : T} (hs : Inv m s) (hpending : (s.engine core).pendingThread = some next)
    (hcurrent : ∀ t, s.state t = .running → ¬ m.Idle t → (s.engine core).current ≠ some t) :
    Inv m (s.setEngine core
      { s.engine core with current := some next, pendingThread := none }) := by
  refine hs.changeEngine fun t hrunning hidle => ?_
  rw [Holds, hpending]
  constructor
  · exact fun h => .inr (h.resolve_right (by simp))
  · exact fun h => .inl (h.resolve_left (hcurrent t hrunning hidle))

lemma inv_doPendingSwitch (hs : Inv m s) (hcore : core ∈ m.engines)
    (h : s.Harmless m (.doPendingSwitch core)) (hs' : s.doPendingSwitch m core = some s') :
    Inv m s' := by
  rw [doPendingSwitch] at hs'
  cases hpending : (s.engine core).pendingThread with
  | none => exact absurd (hpending ▸ hs') (by simp)
  | some next =>
    rw [hpending] at hs'
    obtain ⟨s₁, hs₁, rfl⟩ := map_eq_some_iff.mp hs'
    rcases requeueCurrent_cases hs₁ with ⟨c, q, hc, hne, hrunning, rfl⟩ | ⟨rfl, hcurrent⟩
    · have hfree : s.InNoQueue c := by
        by_cases hidle : m.Idle c
        · exact h c hc hidle hne hrunning
        · exact hs.free c hidle (hrunning ▸ by decide)
      refine (hs.pushBack hfree).switch hpending fun t ht _ heq => ?_
      cases hc.symm.trans heq
      exact absurd (state_pushBack_self.symm.trans ht) (by decide)
    · refine hs.switch hpending fun t ht hidle heq => hcurrent t heq ?_ ht
      exact fun heq => hidle ⟨core, hcore, heq.symm⟩

lemma harmless_doPendingSwitch (hs' : s.doPendingSwitch m core = some s') (h : Sound m s') :
    s.Harmless m (.doPendingSwitch core) := by
  intro c hc _ hne hrunning
  rw [doPendingSwitch] at hs'
  cases hpending : (s.engine core).pendingThread with
  | none => exact absurd (hpending ▸ hs') (by simp)
  | some next =>
    rw [hpending] at hs'
    obtain ⟨s₁, hs₁, rfl⟩ := map_eq_some_iff.mp hs'
    rcases requeueCurrent_cases hs₁ with ⟨c', q, hc', -, -, rfl⟩ | ⟨rfl, hcurrent⟩
    · cases hc.symm.trans hc'
      exact inNoQueue_of_pushBack (h.queued c (state_pushBack_self (s := s) (q := q)))
    · exact absurd hrunning (hcurrent c hc hne)

/-! ### Runs -/

/-- **The step lemma.** -/
lemma Inv.step (hs : Inv m s) (hop : s.KeepsThreads m op) (h : s.step m op = some s') :
    Inv m s' := by
  have hop := hop (h ▸ rfl)
  cases op with
  | enqueueThread t =>
    cases h
    exact inv_enqueueThread hs hop
  | dequeueThread core t =>
    obtain ⟨-, h⟩ := ite_none_right_eq_some.mp h
    exact inv_dequeueThread hs hop h
  | queueReschedule core =>
    obtain ⟨-, h⟩ := ite_none_right_eq_some.mp h
    cases h
    exact hs.setEngine rfl rfl
  | doReschedule core =>
    obtain ⟨⟨hcore, -⟩, h⟩ := ite_none_right_eq_some.mp h
    cases h
    exact inv_doReschedule hs hcore hop
  | doPendingSwitch core =>
    obtain ⟨hcore, h⟩ := ite_none_right_eq_some.mp h
    exact inv_doPendingSwitch hs hcore hop h

/-- A step after which no thread is lost meets its condition. -/
lemma keepsThreads_of_sound (hs : Inv m s) (h : ∀ s', s.step m op = some s' → Sound m s') :
    s.KeepsThreads m op := by
  intro hsome
  obtain ⟨s', hs'⟩ := isSome_iff_exists.mp hsome
  have hsound := h s' hs'
  cases op with
  | enqueueThread t =>
    cases hs'
    exact harmless_enqueueThread hsound
  | dequeueThread core t =>
    obtain ⟨hcore, -⟩ := ite_none_right_eq_some.mp hs'
    exact harmless_dequeueThread hs.toSound fun s' hs' => h s' ((if_pos hcore).trans hs')
  | queueReschedule core => exact trivial
  | doReschedule core =>
    obtain ⟨⟨hcore, -⟩, hs'⟩ := ite_none_right_eq_some.mp hs'
    cases hs'
    exact harmless_doReschedule hs.toSound hcore hsound
  | doPendingSwitch core =>
    obtain ⟨-, hs'⟩ := ite_none_right_eq_some.mp hs'
    exact harmless_doPendingSwitch hs' hsound

/-- **No runnable thread is lost** along a run, on any number of engines, exactly if every step of
the run is harmless. -/
theorem threads_kept_iff (m : Machine T Core Cluster) (ready : T → Bool)
    (unset : EngineOrQueue Core Cluster) (ops : List (SchedOp T Core)) :
    Always (fun s op => s.step m op) (Sound m) (init ready unset) ops ↔
      Allowed (fun s op => s.step m op) (KeepsThreads m) (init ready unset) ops := by
  refine always_iff_allowed (Inv m) (Sound m) (fun s op hs _ => ?_)
    (fun s op s' hs hop h => hs.step hop h) (inv_init ready unset) (inv_init ready unset).toSound ops
  exact ⟨fun h => keepsThreads_of_sound hs h, fun hop s' h => (hs.step hop h).toSound⟩

/-- One engine whose idle thread is 0. -/
def oneEngine : Machine (Fin 3) Unit Unit where
  engines := [()]
  clusters := [()]
  cluster _ := ()
  engineCount _ := 1
  idleThread _ := haveI : NeZero 3 := ⟨by decide⟩; 0
  affinity _ := none
  remove threads t := t ∈ threads

/-- Two reschedules before the switch: the thread that was taken first is `Running`, but no engine
has it. -/
theorem rescheduled_twice : ∃ s, run (fun s op => s.step oneEngine op)
    (init (fun t => t ≠ 0) (.engineId ())) [.enqueueThread 1, .enqueueThread 2, .queueReschedule (),
      .doReschedule (), .queueReschedule (), .doReschedule ()] = some s ∧ ¬ Sound oneEngine s := by
  have hidle : ¬ oneEngine.Idle 1 := by
    rintro ⟨core, -, h⟩
    exact absurd (show (0 : Fin 3) = 1 from h) (by decide)
  refine ⟨_, rfl, fun h => ?_⟩
  obtain ⟨⟨⟩, hcore, -⟩ := h.running 1 rfl hidle
  rcases hcore with hcore | hcore
  · cases hcore
  · cases hcore

/-! ### Threads that ask for a core -/

/-- **Threads are where they may be.** -/
structure Placed (m : Machine T Core Cluster) (s : Sched T Core Cluster) : Prop where
  fits : ∀ t q, 0 < s.copies t q → m.Fits t q
  mayRun : ∀ core t, s.Holds core t → m.MayRun core t

variable {q : QueueId Core Cluster}

omit [DecidableEq Core] [DecidableEq Cluster] in
lemma placed_init (ready : T → Bool) (unset : EngineOrQueue Core Cluster) :
    Placed m (init ready unset) :=
  ⟨fun t q h => absurd h (lt_irrefl 0), fun core t h => absurd h (by simp [Holds, init])⟩

omit [DecidableEq Cluster] in
/-- Flags, tickets and a forgotten thread do no harm. -/
lemma Placed.setEngine (hs : Placed m s) {e : Engine T}
    (he : ∀ t, e.current = some t ∨ e.pendingThread = some t → s.Holds core t) :
    Placed m (s.setEngine core e) := by
  refine ⟨hs.fits, fun core' t h => ?_⟩
  by_cases heq : core' = core
  · subst heq
    exact hs.mayRun core' t (he t (holds_setEngine_self.mp h))
  · exact hs.mayRun core' t ((holds_setEngine_of_ne heq).mp h)

omit [DecidableEq T] [DecidableEq Cluster] in
lemma fits_selectQueue (h : s.selectQueue m t = some q) : m.Fits t q := by
  rw [selectQueue] at h
  split at h
  · rename_i haffinity
    obtain ⟨-, h⟩ := ite_none_right_eq_some.mp h
    cases h
    exact haffinity
  · rename_i haffinity
    obtain ⟨c, -, rfl⟩ := map_eq_some_iff.mp h
    exact haffinity

lemma Placed.pushBack (hs : Placed m s) (hfits : m.Fits t q) : Placed m (s.pushBack q t) := by
  refine ⟨fun t' q' h => ?_, hs.mayRun⟩
  rw [copies_pushBack] at h
  split_ifs at h with hnew
  · exact hnew.1 ▸ hnew.2 ▸ hfits
  · exact hs.fits t' q' h

/-- The queues of an engine hold threads that it may run. -/
lemma Taken.mayRun (h : Taken m core s s' next) (hs : Placed m s) :
    m.MayRun core (next.getD (m.idleThread core)) := by
  cases next with
  | none => exact .inl rfl
  | some t =>
    obtain ⟨-, q, hserved, hq⟩ := h.taken t rfl
    have hself := hq q
    rw [if_pos rfl] at hself
    have hfits := hs.fits t q (by omega)
    rcases hserved with rfl | rfl
    · exact .inr (.inr hfits)
    · exact .inr (.inl hfits)

lemma Placed.setPending (hs : Placed m s) (h : Taken m core s s' next) :
    Placed m (s'.setPending core (next.getD (m.idleThread core))) := by
  refine ⟨fun t q ht => hs.fits t q (ht.trans_le (h.copies_le t q)), fun core' t ht => ?_⟩
  by_cases heq : core' = core
  · subst heq
    rcases holds_setPending_self.mp ht with hcurrent | rfl
    · exact hs.mayRun core' t (.inl ((h.engine core').1.symm.trans hcurrent))
    · exact h.mayRun hs
  · exact hs.mayRun core' t (h.holds_iff.mp ((holds_setPending_of_ne heq).mp ht))

section

variable (hs : Placed m s)

include hs

lemma Placed.dequeueThread (h : s.dequeueThread m core t = some s') : Placed m s' := by
  have hready : Placed m (s.setState t .ready) := ⟨hs.fits, hs.mayRun⟩
  rw [Sched.dequeueThread] at h
  split at h
  · split_ifs at h
    · cases h
      exact hready.setEngine fun _ h => h
    · cases h
      exact hready.setEngine fun _ h => .inl (h.resolve_right (by simp))
    · cases h
      exact hready
  · obtain ⟨-, h⟩ := ite_none_right_eq_some.mp h
    cases h
    refine ⟨fun t' q' h => hs.fits t' q' ?_, hs.mayRun⟩
    rw [copies_remove] at h
    omega
  · cases h
  · cases h
  · cases h
    exact hs

/-- The thread that goes back into a queue runs on the core that it asks for. -/
lemma Placed.requeueCurrent (core : Core) :
    ∃ s', s.requeueCurrent m core = some s' ∧ Placed m s' ∧ s'.engine = s.engine := by
  rw [Sched.requeueCurrent]
  split
  · exact ⟨s, rfl, hs, rfl⟩
  · rename_i c hcurrent
    split_ifs with hc
    · split
      · rename_i haffinity
        exact ⟨_, rfl, hs.pushBack haffinity, rfl⟩
      · rename_i affinity haffinity
        rcases hs.mayRun core c (.inl hcurrent) with h | h | h
        · exact absurd h hc.1
        · cases haffinity.symm.trans h
        · cases haffinity.symm.trans h
          exact ⟨_, if_pos rfl, hs.pushBack haffinity, rfl⟩
    · exact ⟨s, rfl, hs, rfl⟩

lemma Placed.doPendingSwitch (h : (s.engine core).pendingThread = some t) :
    ∃ s', s.doPendingSwitch m core = some s' ∧ Placed m s' := by
  obtain ⟨s₁, hs₁, hplaced, hengine⟩ := hs.requeueCurrent core
  refine ⟨_, by rw [Sched.doPendingSwitch, h, hs₁]; rfl, hplaced.setEngine fun t' ht => .inr ?_⟩
  rw [hengine, h]
  exact ht.resolve_right (by simp)

lemma Placed.step (h : s.step m op = some s') : Placed m s' := by
  cases op with
  | enqueueThread t =>
    cases h
    rw [enqueueThread]
    split_ifs
    · split
      · rename_i q hq
        exact hs.pushBack (fits_selectQueue hq)
      · exact hs
    · exact hs
  | dequeueThread core t =>
    obtain ⟨-, h⟩ := ite_none_right_eq_some.mp h
    exact hs.dequeueThread h
  | queueReschedule core =>
    obtain ⟨-, h⟩ := ite_none_right_eq_some.mp h
    cases h
    exact hs.setEngine fun _ h => h
  | doReschedule core =>
    obtain ⟨-, h⟩ := ite_none_right_eq_some.mp h
    cases h
    exact hs.setPending (taken_selectThread s core)
  | doPendingSwitch core =>
    obtain ⟨-, h⟩ := ite_none_right_eq_some.mp h
    cases hpending : (s.engine core).pendingThread with
    | none => simp [Sched.doPendingSwitch, hpending] at h
    | some t =>
      obtain ⟨s₁, hs₁, hplaced⟩ := hs.doPendingSwitch hpending
      exact some.inj (hs₁.symm.trans h) ▸ hplaced

end

/-- **Affinities are kept** in every run, also in one that loses threads: each engine has only threads
that may run on it, so that the assertion of `DoPendingSwitch` holds when a thread is pending. -/
theorem affinities_kept (m : Machine T Core Cluster) (ready : T → Bool)
    (unset : EngineOrQueue Core Cluster) (ops : List (SchedOp T Core)) :
    Always (fun s op => s.step m op) (fun s => ∀ core, (∀ t, s.Holds core t → m.MayRun core t) ∧
      ((s.engine core).pendingThread.isSome → (s.doPendingSwitch m core).isSome))
      (init ready unset) ops := by
  refine always_of_invariant (Placed m) (fun s hs core => ⟨hs.mayRun core, fun hpending => ?_⟩)
    (fun s op s' hs h => hs.step h) (placed_init ready unset) ops
  obtain ⟨t, ht⟩ := isSome_iff_exists.mp hpending
  obtain ⟨s', hs', -⟩ := hs.doPendingSwitch ht
  exact hs' ▸ rfl

end Sched

end Northport.Tasking
