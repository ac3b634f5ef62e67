/-
# Histories of signals and waits

After every history of calls the books of each event balance, every finished wait took what
it was waiting for, and no queued wait could be finished: no wake-up is lost, although
`Signal` walks only the queue of its own event, removes entries from other queues while it
does so, and stops early.
-/
import Northport.Tasking.WaitableSteps

namespace Northport.Tasking

open Lib List Function WaitState

/-- The signals of an event that the finished waits took. -/
def consumedBy (finished : List Finished) (e : ℕ) : ℕ :=
  (finished.map fun f => f.consumed.count e).sum

lemma consumedBy_cons (f : Finished) (l : List Finished) (e : ℕ) :
    consumedBy (f :: l) e = f.consumed.count e + consumedBy l e := by
  simp [consumedBy]

/-- A wait for all took one signal of each of its events, a wait for any one signal of one of
them, and `WaitMany` returns how many. -/
structure Finished.Ok (f : Finished) : Prop where
  nodup : f.events.Nodup
  all : f.waitAll = true → f.consumed = f.events
  any : f.waitAll = false → ∃ e ∈ f.events, f.consumed = [e]
  result : f.result = f.consumed.length

namespace WaitState

variable {T : Type} {s s' : WaitState T} {p q w ev : ℕ} {k : ℕ → ℕ} {e : ℕ} {c : List ℕ}
  {waitAll : Bool} {entries : PtrSpan}

/-- The events of the wait that an entry belongs to. -/
def waitEvents (s : WaitState T) (p : ℕ) : List ℕ := (s.entry p).cohort.ptrs.map s.eventOf

/-- **The queued waits**: an entry is queued together with its whole cohort, and the events
of a cohort are distinct. -/
structure Queues (s : WaitState T) : Prop extends Lists s where
  mem : ∀ e, ∀ p ∈ s.waiters e, p ∈ (s.entry p).cohort.ptrs
  distinct : ∀ e, ∀ p ∈ s.waiters e, (s.waitEvents p).Nodup
  queued : ∀ e, ∀ p ∈ s.waiters e, ∀ q ∈ (s.entry p).cohort.ptrs, q ∈ s.waiters (s.eventOf q)
  cohort : ∀ e, ∀ p ∈ s.waiters e, ∀ q ∈ (s.entry p).cohort.ptrs,
    (s.entry q).cohort = (s.entry p).cohort
  waitAll : ∀ e, ∀ p ∈ s.waiters e, ∀ q ∈ (s.entry p).cohort.ptrs,
    (s.entry q).waitAll = (s.entry p).waitAll
  unsignalled : ∀ e, ∀ p ∈ s.waiters e, (s.entry p).signalled = false

/-- The wait of an entry could not be finished with these counters. -/
def Stuck (s : WaitState T) (k : ℕ → ℕ) (p : ℕ) : Prop :=
  ¬ Finishable k (s.waitEvents p) (s.entry p).waitAll

/-- **The books** of the events and of the finished waits. -/
structure Books (s : WaitState T) : Prop where
  count_lt : ∀ e, s.signalCount e < wordSize
  given : ∀ e, s.given e = consumedBy s.finished e + s.signalCount e + wordSize * s.wraps e
  ok : ∀ f ∈ s.finished, f.Ok

/-- **The invariant** between two calls. -/
structure Inv (s : WaitState T) : Prop where
  queues : Queues s
  books : Books s
  stuck : ∀ e, ∀ p ∈ s.waiters e, Stuck s s.signalCount p

lemma Stuck.mono {k' : ℕ → ℕ} (h : Stuck s k p) (hk : ∀ e ∈ s.waitEvents p, k' e ≤ k e) :
    Stuck s k' p :=
  fun hfin => h (hfin.mono hk)

/-- Only entries that are in no queue have changed, or marks. -/
lemma stuck_congr (hentry : ∀ q ∈ (s.entry p).cohort.ptrs, s'.eventOf q = s.eventOf q)
    (hcohort : (s'.entry p).cohort = (s.entry p).cohort)
    (hall : (s'.entry p).waitAll = (s.entry p).waitAll) : Stuck s' k p ↔ Stuck s k p := by
  have hevents : s'.waitEvents p = s.waitEvents p := by
    rw [waitEvents, hcohort]
    exact map_congr_left hentry
  rw [Stuck, Stuck, hevents, hall]

/-- What is asked of a queued entry. -/
structure Waits (s : WaitState T) (p : ℕ) : Prop where
  mem : p ∈ (s.entry p).cohort.ptrs
  distinct : (s.waitEvents p).Nodup
  queued : ∀ q ∈ (s.entry p).cohort.ptrs, q ∈ s.waiters (s.eventOf q)
  cohort : ∀ q ∈ (s.entry p).cohort.ptrs, (s.entry q).cohort = (s.entry p).cohort
  waitAll : ∀ q ∈ (s.entry p).cohort.ptrs, (s.entry q).waitAll = (s.entry p).waitAll
  unsignalled : (s.entry p).signalled = false

lemma Queues.waits (h : Queues s) (hp : p ∈ s.waiters e) : Waits s p :=
  ⟨h.mem e p hp, h.distinct e p hp, h.queued e p hp, h.cohort e p hp, h.waitAll e p hp,
    h.unsignalled e p hp⟩

lemma queues_of_waits (hlists : Lists s) (h : ∀ e, ∀ p ∈ s.waiters e, Waits s p) : Queues s :=
  ⟨hlists, fun e p hp => (h e p hp).mem, fun e p hp => (h e p hp).distinct,
    fun e p hp => (h e p hp).queued, fun e p hp => (h e p hp).cohort,
    fun e p hp => (h e p hp).waitAll, fun e p hp => (h e p hp).unsignalled⟩

/-- A wait depends on the entries of its cohort alone, which have to stay queued. -/
lemma Waits.congr (h : Waits s p) (hentry : ∀ q ∈ (s.entry p).cohort.ptrs, s'.entry q = s.entry q)
    (hkeep : ∀ q ∈ (s.entry p).cohort.ptrs, q ∈ s'.waiters (s.eventOf q)) : Waits s' p := by
  have hp := hentry p h.mem
  have hevent : ∀ q ∈ (s.entry p).cohort.ptrs, s'.eventOf q = s.eventOf q := fun q hq => by
    rw [eventOf, eventOf, hentry q hq]
  have hevents : s'.waitEvents p = s.waitEvents p := by
    rw [waitEvents, hp]
    exact map_congr_left hevent
  refine ⟨hp ▸ h.mem, hevents ▸ h.distinct, ?_, ?_, ?_, hp ▸ h.unsignalled⟩ <;> rw [hp] <;>
    intro q hq
  · rw [hevent q hq]
    exact hkeep q hq
  · rw [hentry q hq]
    exact h.cohort q hq
  · rw [hentry q hq]
    exact h.waitAll q hq

/-- The queued waits do not depend on entries that are in no queue. -/
lemma Queues.congr (h : Queues s) (s' : WaitState T) (hwaiters : s'.waiters = s.waiters)
    (hnext : ∀ e, ∀ p ∈ s.waiters e, s'.next p = s.next p)
    (hentry : ∀ e, ∀ p ∈ s.waiters e, s'.entry p = s.entry p) :
    Queues s' ∧ ∀ e, ∀ p ∈ s.waiters e, ∀ k, Stuck s' k p ↔ Stuck s k p := by
  have hsame : ∀ e, ∀ p ∈ s.waiters e, ∀ q ∈ (s.entry p).cohort.ptrs, s'.entry q = s.entry q :=
    fun e p hp q hq => hentry _ q (h.queued e p hp q hq)
  refine ⟨queues_of_waits ⟨?_, ?_, ?_⟩ ?_, fun e p hp k => ?_⟩
  · rw [hwaiters]
    exact h.nodup
  · intro e
    rw [hwaiters]
    exact (h.chain e).congr (hnext e)
  · rw [hwaiters]
    intro e p hp
    rw [eventOf, hentry e p hp]
    exact h.event e p hp
  · rw [hwaiters]
    intro e p hp
    exact (h.waits hp).congr (hsame e p hp) (by rw [hwaiters]; exact h.queued e p hp)
  · refine stuck_congr (fun q hq => ?_) ?_ ?_
    · rw [eventOf, eventOf, hsame e p hp q hq]
    · rw [hentry e p hp]
    · rw [hentry e p hp]

/-! ### Finished waits -/

lemma Took.eventOf_eq (ht : Took s c waitAll s') : s'.eventOf = s.eventOf := by
  ext q
  rw [eventOf, ht.entry]
  rfl

/-- A wait that has just taken its signals is entered in the books. -/
lemma books_record {result : ℕ} (h : Books s) (ht : Took s c waitAll s')
    (hnd : (c.map s.eventOf).Nodup)
    (hresult : result = (c.filter fun p => (s'.entry p).signalled).length) :
    Books (s'.record c waitAll result) := by
  have hevent := ht.eventOf_eq
  obtain ⟨k, entry, rfl⟩ : ∃ k entry, s' = { s with signalCount := k, entry := entry } :=
    ⟨_, _, ht.frame⟩
  refine ⟨fun e => ?_, fun e => ?_, forall_mem_cons.mpr ⟨⟨?_, fun hall => ?_, fun hany => ?_, ?_⟩,
    h.ok⟩⟩
  · exact lt_of_le_of_lt (Nat.le.intro (ht.count e)) (h.count_lt e)
  · have hbook := h.given e
    have hcount := ht.count e
    simp only [record, consumedBy_cons, hevent] at hcount ⊢
    omega
  · simp only [hevent]
    exact hnd
  · simp only [ht.all hall]
  · obtain ⟨p, hp, hfilter⟩ := ht.any hany
    simp only [hfilter]
    exact ⟨_, mem_map_of_mem hp, rfl⟩
  · simp only [length_map]
    exact hresult

/-- Two queued waits that share an entry are the same wait. -/
lemma Queues.notMem_cohort (h : Queues s) {e' : ℕ} (hp : p ∈ s.waiters e) (hw : w ∈ s.waiters e')
    (hpw : p ∉ (s.entry w).cohort.ptrs) (hq : q ∈ (s.entry p).cohort.ptrs) :
    q ∉ (s.entry w).cohort.ptrs := by
  intro hqw
  have heq : (s.entry p).cohort = (s.entry w).cohort :=
    (h.cohort e p hp q hq).symm.trans (h.cohort e' w hw q hqw)
  exact hpw (heq ▸ h.mem e p hp)

/-- Of the queue of one event, a cohort has no entry but the one that waits there. -/
lemma Queues.filter_cohort (h : Queues s) (hw : w ∈ s.waiters ev) :
    (s.waiters ev).filter (fun p => decide (p ∉ (s.entry w).cohort.ptrs))
      = (s.waiters ev).erase w := by
  rw [(h.nodup ev).erase_eq_filter]
  refine filter_congr fun q hq => ?_
  have hiff : q ∈ (s.entry w).cohort.ptrs ↔ q = w := by
    constructor
    · intro hqc
      refine inj_on_of_nodup_map (h.distinct ev w hw) hqc (h.mem ev w hw) ?_
      rw [h.event ev q hq, h.event ev w hw]
    · rintro rfl
      exact h.mem ev q hw
  simp only [hiff]
  by_cases hqw : q = w <;> simp [hqw]

variable [DecidableEq T]

/-- **Waking a waiter**: its cohort leaves the queues, and nothing else changes in them. -/
lemma wake_spec (hq : Queues s) (hb : Books s) (hw : w ∈ s.waiters ev)
    (ht : Took s (s.entry w).cohort.ptrs (s.entry w).waitAll s') :
    Queues (s'.wake w) ∧ Books (s'.wake w) ∧ (s'.wake w).signalCount = s'.signalCount ∧
      (s'.wake w).next w = s.next w ∧
      (∀ e, (s'.wake w).waiters e
        = (s.waiters e).filter fun p => decide (p ∉ (s.entry w).cohort.ptrs)) ∧
      ∀ p k, Stuck (s'.wake w) k p ↔ Stuck s k p := by
  have hnd := hq.distinct ev w hw
  have hqueued := hq.queued ev w hw
  have hevent := ht.eventOf_eq
  have hnd' : ((s.entry w).cohort.ptrs.map s'.eventOf).Nodup := hevent ▸ hnd
  have hcohort : ∀ p, (s'.entry p).cohort = (s.entry p).cohort := fun p => by rw [ht.entry]
  have hwaitAll : ∀ p, (s'.entry p).waitAll = (s.entry p).waitAll := fun p => by rw [ht.entry]
  have hresult : (if (s.entry w).waitAll then (s.entry w).cohort.ptrs.length else 1)
      = ((s.entry w).cohort.ptrs.filter fun p => (s'.entry p).signalled).length := by
    cases hall : (s.entry w).waitAll with
    | true => simp [ht.all hall]
    | false =>
      obtain ⟨p, -, hfilter⟩ := ht.any hall
      simp [hfilter]
  have hbooks := books_record hb ht hnd hresult
  obtain ⟨k', entry, rfl⟩ : ∃ k entry, s' = { s with signalCount := k, entry := entry } :=
    ⟨_, _, ht.frame⟩
  rw [wake, hcohort, hwaitAll]
  obtain ⟨next, waiters, hrun, hlists, hwaiters, hnext, -⟩ :=
    dequeueAll_spec (c := (s.entry w).cohort.ptrs)
      (s := record { s with signalCount := k', entry := entry } _ _ _)
      ⟨hq.nodup, hq.chain, fun e p hp => (congrFun hevent p).trans (hq.event e p hp)⟩
      (fun p hp => (congrFun hevent p).symm ▸ hqueued p hp) hnd'
  rw [hrun]
  refine ⟨queues_of_waits { hlists with } fun e p hp => ?_, { hbooks with }, rfl,
    hnext w (hq.mem ev w hw), hwaiters,
    fun p k => stuck_congr (fun q _ => congrFun hevent q) (hcohort p) (hwaitAll p)⟩
  replace hp : p ∈ waiters e := hp
  rw [hwaiters, mem_filter] at hp
  obtain ⟨hpe, hpc⟩ := hp
  have hout : ∀ q ∈ (s.entry p).cohort.ptrs, q ∉ (s.entry w).cohort.ptrs := fun q hqp =>
    hq.notMem_cohort hpe hw (of_decide_eq_true hpc) hqp
  refine (hq.waits hpe).congr (fun q hqp => ht.other q (hout q hqp)) fun q hqp => ?_
  show q ∈ waiters (s.eventOf q)
  rw [hwaiters, mem_filter]
  exact ⟨hq.queued e p hpe q hqp, decide_eq_true (hout q hqp)⟩

/-! ### `Signal` -/

/-- **The loop of `Signal`.**  `k` are the counters before the signal, with which no queued
wait could be finished.  The waiters before the present one could not be finished either,
with the present counters; once the counter of the event is 0, no counter exceeds `k`. -/
lemma signalLoop_spec {pre rest : List ℕ} {fuel : ℕ} (woke : ℕ) (hq : Queues s) (hb : Books s)
    (hk : ∀ e, e ≠ ev → s.signalCount e ≤ k e) (hbefore : ∀ e, ∀ p ∈ s.waiters e, Stuck s k p)
    (hsplit : s.waiters ev = pre ++ rest) (hpre : ∀ p ∈ pre, Stuck s s.signalCount p)
    (hfuel : rest.length ≤ fuel) :
    ∃ s' woke', signalLoop ev fuel s rest.head? woke = some (s', woke') ∧ Inv s' := by
  -- a counter of 0 ends the loop early
  have hearly : ∀ {s : WaitState T}, Queues s → Books s → (∀ e, e ≠ ev → s.signalCount e ≤ k e) →
      (∀ e, ∀ p ∈ s.waiters e, Stuck s k p) → s.signalCount ev = 0 → Inv s := by
    intro s hq hb hk hbefore hzero
    refine ⟨hq, hb, fun e p hp => (hbefore e p hp).mono fun e' _ => ?_⟩
    by_cases he : e' = ev
    · rw [he, hzero]
      exact zero_le
    · exact hk e' he
  induction rest generalizing s pre fuel woke with
  | nil =>
    refine ⟨s, woke, by simp [signalLoop], hq, hb, fun e p hp => ?_⟩
    by_cases hev : ev ∈ s.waitEvents p
    · -- the wait has an entry in the queue that was walked
      obtain ⟨q, hqp, hqe⟩ := mem_map.mp hev
      have hmem := hq.queued e p hp q hqp
      rw [hqe, hsplit, append_nil] at hmem
      have hstuck := hpre q hmem
      rw [Stuck, waitEvents, hq.cohort e p hp q hqp, hq.waitAll e p hp q hqp] at hstuck
      exact hstuck
    · refine (hbefore e p hp).mono fun e' he' => hk e' ?_
      rintro rfl
      exact hev he'
  | cons w rest ih =>
    obtain ⟨fuel, rfl⟩ : ∃ n, fuel = n + 1 := ⟨fuel - 1, by simp at hfuel; omega⟩
    have hfuel' : rest.length ≤ fuel := by simpa using hfuel
    have hw : w ∈ s.waiters ev := by simp [hsplit]
    have hnext : s.next w = rest.head? := by
      have hchain := hq.chain ev
      rw [hsplit] at hchain
      exact hchain.tail.1
    have hun : ∀ p ∈ (s.entry w).cohort.ptrs, (s.entry p).signalled = false := fun p hp =>
      hq.unsignalled _ p (hq.queued ev w hw p hp)
    rw [head?_cons, signalLoop]
    rcases tryFinish_spec (s.entry w).waitAll (hq.distinct ev w hw) hb.count_lt hun with ⟨htry, hnot⟩ | ⟨s1, htry, ht⟩
    · -- the waiter stays in its queues
      simp only [htry, Bool.false_eq_true, if_false]
      split_ifs with hzero
      · exact ⟨s, woke, rfl, hearly hq hb hk hbefore hzero⟩
      · rw [hnext]
        have hsplit' : s.waiters ev = (pre ++ [w]) ++ rest := by simp [hsplit]
        exact ih woke hq hb hk hbefore hsplit'
          (forall_mem_append.mpr ⟨hpre, forall_mem_singleton.mpr hnot⟩) hfuel'
    · -- the waiter is woken
      obtain ⟨hq2, hb2, hcount2, hnext2, hwaiters2, hstuck2⟩ := wake_spec hq hb hw ht
      have hle : ∀ e, (s1.wake w).signalCount e ≤ s.signalCount e := by
        intro e
        have hcount := ht.count e
        rw [hcount2]
        omega
      have hk2 : ∀ e, e ≠ ev → (s1.wake w).signalCount e ≤ k e := fun e he =>
        (hle e).trans (hk e he)
      have hbefore2 : ∀ e, ∀ p ∈ (s1.wake w).waiters e, Stuck (s1.wake w) k p := by
        intro e p hp
        rw [hwaiters2] at hp
        exact (hstuck2 p k).mpr (hbefore e p (mem_of_mem_filter hp))
      have hsplit2 : (s1.wake w).waiters ev = pre ++ rest := by
        rw [hwaiters2, hq.filter_cohort hw, hsplit]
        have hnd := hq.nodup ev
        rw [hsplit] at hnd
        have hwpre : w ∉ pre := fun h => (nodup_append.mp hnd).2.2 w h w mem_cons_self rfl
        rw [erase_append_right _ hwpre, erase_cons_head]
      simp only [htry, if_true]
      split_ifs with hzero
      · exact ⟨_, _, rfl, hearly hq2 hb2 hk2 hbefore2 hzero⟩
      · rw [hnext2, hnext]
        refine ih (woke + 1) hq2 hb2 hk2 hbefore2 hsplit2 (fun p hp => ?_) hfuel'
        exact (hstuck2 p _).mpr ((hpre p hp).mono fun e _ => hle e)

/-- **`Signal`** ends and keeps the invariant. -/
lemma signal_spec (h : Inv s) (event count : ℕ) :
    ∃ s' woke, s.signal event count = some (s', woke) ∧ Inv s' := by
  obtain ⟨hqueues, hstuck⟩ := h.queues.congr { s with
      signalCount := update s.signalCount event ((s.signalCount event + count) % wordSize)
      given := update s.given event (s.given event + count)
      wraps := update s.wraps event
        (s.wraps event + (s.signalCount event + count) / wordSize) }
    rfl (fun _ _ _ => rfl) fun _ _ _ => rfl
  refine signalLoop_spec (k := s.signalCount) 0 hqueues ⟨?_, fun e => ?_, h.books.ok⟩
    (fun e he => (update_of_ne he _ _).le)
    (fun e p hp => (hstuck e p hp _).mpr (h.stuck e p hp)) (nil_append _).symm
    nofun le_rfl
  · exact (forall_update_iff _ fun _ n => n < wordSize).mpr
      ⟨Nat.mod_lt _ wordSize_pos, fun e _ => h.books.count_lt e⟩
  · have hbook := h.books.given e
    by_cases he : e = event
    · subst he
      have hdiv := Nat.div_add_mod (s.signalCount e + count) wordSize
      simp only [update_self, mul_add]
      omega
    · simp only [update_of_ne he]
      exact hbook

/-! ### `WaitMany` -/

lemma PtrSpan.nodup_ptrs (c : PtrSpan) : c.ptrs.Nodup := nodup_range'

section

omit [DecidableEq T]

/-- The events of the entries that were set up are distinct. -/
lemma setup_events (s : WaitState T) (events entries : PtrSpan) (thread : T) (waitAll : Bool) :
    (entries.ptrs.map (s.setup events entries thread waitAll).eventOf).Nodup := by
  refine Nodup.map_on ?_ (PtrSpan.nodup_ptrs entries)
  intro p hp q hq heq
  simp only [eventOf, setup, if_pos hp, if_pos hq] at heq
  rw [PtrSpan.ptrs, mem_range'_1] at hp hq
  omega

/-- A new wait that cannot be finished enters the queues. -/
lemma inv_enqueued {next : ℕ → Option ℕ} {waiters : ℕ → List ℕ} {blocked : T → Bool} (h : Inv s)
    (hnd : (entries.ptrs.map s.eventOf).Nodup)
    (hentry : ∀ p ∈ entries.ptrs, (s.entry p).cohort = entries ∧ (s.entry p).waitAll = waitAll ∧
      (s.entry p).signalled = false) (hlists : Lists { s with next := next, waiters := waiters })
    (hwaiters : ∀ e, waiters e = s.waiters e ++ entries.ptrs.filter fun q => decide (s.eventOf q = e))
    (hnot : ¬ Finishable s.signalCount (entries.ptrs.map s.eventOf) waitAll) :
    Inv { s with next := next, waiters := waiters, blocked := blocked } := by
  have hcases : ∀ {e p}, p ∈ waiters e → p ∈ s.waiters e ∨ p ∈ entries.ptrs := by
    intro e p hp
    rw [hwaiters] at hp
    rcases mem_append.mp hp with hp | hp
    · exact .inl hp
    · exact .inr (mem_of_mem_filter hp)
  have hevents : ∀ p ∈ entries.ptrs, s.waitEvents p = entries.ptrs.map s.eventOf := by
    intro p hp
    rw [waitEvents, (hentry p hp).1]
  refine ⟨queues_of_waits { hlists with } fun e p hp => ?_, { h.books with }, fun e p hp => ?_⟩
  · rcases hcases hp with hp | hp
    · refine (h.queues.waits hp).congr (fun _ _ => rfl) fun q hq => ?_
      show q ∈ waiters (s.eventOf q)
      rw [hwaiters]
      exact mem_append_left _ (h.queues.queued e p hp q hq)
    · obtain ⟨hcohort, hall, hun⟩ := hentry p hp
      have hmem : ∀ q ∈ (s.entry p).cohort.ptrs, q ∈ entries.ptrs := fun q hq => hcohort ▸ hq
      refine ⟨?_, ?_, fun q hq => ?_, fun q hq => ?_, fun q hq => ?_, hun⟩
      · show p ∈ (s.entry p).cohort.ptrs
        rwa [hcohort]
      · show (s.waitEvents p).Nodup
        rwa [hevents p hp]
      · show q ∈ waiters (s.eventOf q)
        rw [hwaiters]
        exact mem_append_right _ (mem_filter.mpr ⟨hmem q hq, by simp⟩)
      · exact (hentry q (hmem q hq)).1.trans hcohort.symm
      · exact (hentry q (hmem q hq)).2.1.trans hall.symm
  · rcases hcases hp with hp | hp
    · exact h.stuck e p hp
    · show ¬ Finishable s.signalCount (s.waitEvents p) (s.entry p).waitAll
      rw [hevents p hp, (hentry p hp).2.1]
      exact hnot

/-- The setup only touches entries that are in no queue. -/
lemma inv_setup (h : Inv s) (events : PtrSpan) (thread : T) (waitAll : Bool)
    (hfree : ∀ p ∈ entries.ptrs, Unqueued s p) : Inv (s.setup events entries thread waitAll) := by
  have hnotin : ∀ e, ∀ p ∈ s.waiters e, p ∉ entries.ptrs := fun e p hp hmem => hfree p hmem e hp
  obtain ⟨hq, hstuck⟩ := h.queues.congr (s.setup events entries thread waitAll) rfl
    (fun e p hp => if_neg (hnotin e p hp)) (fun e p hp => if_neg (hnotin e p hp))
  exact ⟨hq, ⟨h.books.count_lt, h.books.given, h.books.ok⟩, fun e p hp =>
    (hstuck e p hp _).mpr (h.stuck e p hp)⟩

end

/-- **`WaitMany`** keeps the invariant. -/
lemma waitMany_spec (h : Inv s) (events entries : PtrSpan) (thread : T) (timeout : ℕ)
    (waitAll : Bool) (hfree : ∀ p ∈ entries.ptrs, Unqueued s p) :
    Inv (s.waitMany events entries thread timeout waitAll).1 := by
  by_cases hsize : events.size ≠ entries.size
  · rw [waitMany, if_pos hsize]
    exact h
  by_cases htimeout : ¬ (timeout = 0 ∨ timeout = timeInfinite)
  · rw [waitMany, if_neg hsize, if_pos htimeout]
    exact h
  · have hnd := setup_events s events entries thread waitAll
    have hentry : ∀ p ∈ entries.ptrs, ((s.setup events entries thread waitAll).entry p).cohort = entries ∧
        ((s.setup events entries thread waitAll).entry p).waitAll = waitAll ∧
        ((s.setup events entries thread waitAll).entry p).signalled = false := by
      intro p hp
      simp [setup, hp]
    have hinv := inv_setup h events thread waitAll hfree
    rw [waitMany, if_neg hsize, if_neg htimeout]
    replace hfree : ∀ p ∈ entries.ptrs, Unqueued (s.setup events entries thread waitAll) p := hfree
    generalize s.setup events entries thread waitAll = s at *
    rcases tryFinish_spec waitAll hnd hinv.books.count_lt (fun p hp => (hentry p hp).2.2) with
      ⟨htry, hnot⟩ | ⟨s1, htry, ht⟩
    · by_cases hzero : timeout = 0
      · simp only [htry, hzero, decide_true, Bool.or_true, if_true, Bool.false_eq_true, if_false]
        exact hinv
      · -- the thread has to wait
        obtain ⟨next, waiters, hrun, hlists, hwaiters⟩ :=
          enqueueAll_spec hinv.queues.toLists hfree (PtrSpan.nodup_ptrs entries)
        simp only [htry, hzero, decide_false, Bool.or_false, Bool.false_eq_true, if_false, hrun]
        exact inv_enqueued hinv hnd hentry hlists hwaiters hnot
    · simp only [htry, Bool.true_or, if_true]
      -- only counters went down, and only marks of entries in no queue changed
      have hbooks := books_record hinv.books ht hnd rfl
      obtain ⟨k, entry, rfl⟩ : ∃ k entry, s1 = { s with signalCount := k, entry := entry } :=
        ⟨_, _, ht.frame⟩
      obtain ⟨hq, hstuck⟩ := hinv.queues.congr (record
        { s with signalCount := k, entry := entry } entries.ptrs waitAll _) rfl (fun _ _ _ => rfl)
        (fun e p hp => ht.other p fun hmem => hfree p hmem e hp)
      exact ⟨hq, hbooks, fun e p hp => ((hstuck e p hp _).mpr (hinv.stuck e p hp)).mono fun e' _ =>
        Nat.le.intro (ht.count e')⟩

omit [DecidableEq T] in
lemma inv_init (entry : ℕ → WaitEntry T) (next : ℕ → Option ℕ) : Inv (init entry next) := by
  have hno : ∀ e p, p ∉ (init entry next).waiters e := fun e p => not_mem_nil
  exact ⟨queues_of_waits ⟨fun _ => nodup_nil, fun _ => trivial, fun e p hp => absurd hp (hno e p)⟩
      fun e p hp => absurd hp (hno e p),
    ⟨fun _ => wordSize_pos, fun _ => rfl, nofun⟩,
    fun e p hp => absurd hp (hno e p)⟩

end WaitState

variable {T : Type} [DecidableEq T]

/-- One call keeps the invariant. -/
lemma WaitOp.step_inv (s : WaitState T) (o : WaitOp T) (h : s.Inv) (ho : o.Ok s) :
    ∃ s', o.step s = some s' ∧ s'.Inv := by
  cases o with
  | waitMany events entries thread timeout waitAll =>
    exact ⟨_, rfl, waitMany_spec h events entries thread timeout waitAll ho⟩
  | signal event count =>
    obtain ⟨s', woke, hrun, hinv⟩ := signal_spec h event count
    exact ⟨s', by rw [step, hrun]; rfl, hinv⟩

/-- **Signals and waits after any history of calls.**  The signals given to an event are
those that the finished waits took and those still counted, apart from the 2⁶⁴ that are lost
each time its counter wraps around; a finished wait took one signal of each of its events, or
of one of them; an attempt that does not finish takes nothing; and no queued wait could be
finished. -/
theorem wait_history (entry : ℕ → WaitEntry T) (next : ℕ → Option ℕ) (ops : List (WaitOp T))
    (hops : Allowed WaitOp.step (fun s o => o.Ok s) (init entry next) ops) :
    ∃ s, run WaitOp.step (init entry next) ops = some s ∧
      (∀ e, s.given e = consumedBy s.finished e + s.signalCount e + wordSize * s.wraps e) ∧
      (∀ f ∈ s.finished, f.Ok) ∧
      (∀ c waitAll, (s.tryFinish c waitAll).2 = false → (s.tryFinish c waitAll).1 = s) ∧
      ∀ e, ∀ p ∈ s.waiters e,
        (s.tryFinish (s.entry p).cohort.ptrs (s.entry p).waitAll).2 = false ∧
        ¬ Finishable s.signalCount ((s.entry p).cohort.ptrs.map s.eventOf) (s.entry p).waitAll := by
  obtain ⟨s, hrun, hinv⟩ := run_invariant Inv WaitOp.step_inv
    (inv_init entry next) hops
  refine ⟨s, hrun, hinv.books.given, hinv.books.ok, s.tryFinish_false, fun e p hp => ?_⟩
  have hstuck := hinv.stuck e p hp
  refine ⟨?_, hstuck⟩
  rw [Bool.eq_false_iff, ne_eq, s.tryFinish_iff]
  exact hstuck

/-- A wait for two events is queued, and ends with the second of two signals. -/
theorem wait_history_example :
    ∃ s, run WaitOp.step (init (fun _ => ⟨0, (), ⟨0, 0⟩, false, false⟩) fun _ => none)
        [.waitMany ⟨10, 2⟩ ⟨0, 2⟩ () timeInfinite true, .signal 10 1, .signal 11 1]
          = some s ∧
      (∀ e, s.given e = consumedBy s.finished e + s.signalCount e + wordSize * s.wraps e) ∧
      (∀ f ∈ s.finished, f.Ok) ∧
      (∀ c waitAll, (s.tryFinish c waitAll).2 = false → (s.tryFinish c waitAll).1 = s) ∧
      ∀ e, ∀ p ∈ s.waiters e,
        (s.tryFinish (s.entry p).cohort.ptrs (s.entry p).waitAll).2 = false ∧
        ¬ Finishable s.signalCount ((s.entry p).cohort.ptrs.map s.eventOf) (s.entry p).waitAll :=
  wait_history _ _ _ ⟨fun _ _ _ => not_mem_nil, fun _ _ =>
    ⟨trivial, fun _ _ => ⟨trivial, fun _ _ => trivial⟩⟩⟩

/-- The counter of an event wraps around: 2⁶⁴ signals are given, none is taken, and none is
left. -/
theorem signals_lost_by_wrap :
    ∃ s, run WaitOp.step (init (fun _ => ⟨0, (), ⟨0, 0⟩, false, false⟩) fun _ => none)
        [.signal 7 (wordSize - 1), .signal 7 1] = some s ∧
      s.given 7 = wordSize ∧ consumedBy s.finished 7 = 0 ∧ s.signalCount 7 = 0 ∧
      s.given 7 ≠ consumedBy s.finished 7 + s.signalCount 7 := by
  refine ⟨_, rfl, ?_, rfl, ?_, ?_⟩ <;> decide

end Northport.Tasking
