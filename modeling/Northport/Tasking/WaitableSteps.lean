/-
# The parts of `Signal` and `WaitMany`

What an attempt to finish a wait does, and what entering and leaving the queues does.
-/
import Northport.Tasking.Waitable

namespace Northport.Tasking

open Lib List

/-- A wait for these events could be finished with these counters. -/
def Finishable (k : ℕ → ℕ) (events : List ℕ) (waitAll : Bool) : Prop :=
  if waitAll then ∀ e ∈ events, k e ≠ 0 else ∃ e ∈ events, k e ≠ 0

/-- With fewer signals no more waits can be finished. -/
lemma Finishable.mono {k k' : ℕ → ℕ} {events : List ℕ} {waitAll : Bool}
    (h : Finishable k events waitAll) (hk : ∀ e ∈ events, k e ≤ k' e) :
    Finishable k' events waitAll := by
  cases waitAll with
  | true =>
    intro e he
    have hne := h e he
    have hle := hk e he
    omega
  | false =>
    obtain ⟨e, he, hne⟩ := h
    have hle := hk e he
    exact ⟨e, he, by omega⟩

namespace WaitState

variable {T : Type} {s : WaitState T} {c : List ℕ} {p q : ℕ} {waitAll : Bool}

/-! ### Attempts to finish a wait -/

/-- **What a finished wait takes**: the entries of the cohort that it marks are those whose
events lose a signal. -/
structure Took (s : WaitState T) (c : List ℕ) (waitAll : Bool) (s' : WaitState T) : Prop where
  frame : s' = { s with signalCount := s'.signalCount, entry := s'.entry }
  entry : ∀ q, s'.entry q = { s.entry q with signalled := (s'.entry q).signalled }
  other : ∀ q, q ∉ c → s'.entry q = s.entry q
  count : ∀ e, s'.signalCount e
    + ((c.filter fun p => (s'.entry p).signalled).map s.eventOf).count e = s.signalCount e
  all : waitAll = true → c.filter (fun p => (s'.entry p).signalled) = c
  any : waitAll = false → ∃ p ∈ c, c.filter (fun p => (s'.entry p).signalled) = [p]

lemma consume_entry (s : WaitState T) (p q : ℕ) :
    (s.consume p).entry q
      = { s.entry q with signalled := (s.entry q).signalled || decide (q = p) } := by
  by_cases hqp : q = p
  · subst hqp
    simp [consume]
  · simp only [consume, Function.update_of_ne hqp, hqp, decide_false, Bool.or_false]

/-- Several entries take a signal each. -/
lemma consumeAll_spec (hnd : (c.map s.eventOf).Nodup) (hlt : ∀ e, s.signalCount e < wordSize)
    (hpos : ∀ p ∈ c, s.signalCount (s.eventOf p) ≠ 0) :
    ∃ k entry, c.foldl consume s = { s with signalCount := k, entry := entry } ∧
      (∀ q, entry q = { s.entry q with signalled := (s.entry q).signalled || decide (q ∈ c) }) ∧
      ∀ e, k e + (c.map s.eventOf).count e = s.signalCount e := by
  induction c generalizing s with
  | nil => exact ⟨s.signalCount, s.entry, rfl, by simp, by simp⟩
  | cons p c ih =>
    rw [map_cons, nodup_cons] at hnd
    have hp : s.signalCount (s.eventOf p) ≠ 0 := hpos p mem_cons_self
    have hsub : sub64 (s.signalCount (s.eventOf p)) 1 = s.signalCount (s.eventOf p) - 1 :=
      sub64_eq (hlt _) (by omega)
    have hevent : (s.consume p).eventOf = s.eventOf := by
      ext q
      rw [eventOf, consume_entry]
      rfl
    have hcount : ∀ e, (s.consume p).signalCount e
        = if e = s.eventOf p then s.signalCount e - 1 else s.signalCount e := by
      intro e
      by_cases he : e = s.eventOf p
      · simp [consume, he, hsub]
      · simp [consume, he]
    obtain ⟨k, entry, hrun, hentry, hk⟩ := ih (s := s.consume p) (by rw [hevent]; exact hnd.2)
      (fun e => by
        have := hlt e
        rw [hcount]
        split_ifs <;> omega)
      (fun q hq => by
        have hne : s.eventOf q ≠ s.eventOf p :=
          fun h => hnd.1 (h ▸ mem_map_of_mem hq)
        rw [hevent, hcount, if_neg hne]
        exact hpos q (mem_cons_of_mem _ hq))
    refine ⟨k, entry, by rw [foldl_cons, hrun]; rfl, fun q => ?_, fun e => ?_⟩
    · rw [hentry, consume_entry]
      simp only [Bool.or_assoc, ← Bool.decide_or, mem_cons]
    · have hke := hk e
      rw [hevent, hcount] at hke
      rw [map_cons, count_cons]
      by_cases he : e = s.eventOf p
      · subst he
        simp only [if_true, beq_self_eq_true] at hke ⊢
        omega
      · have he' : (s.eventOf p == e) = false := by simpa using fun h => he h.symm
        simp only [he, if_false, he'] at hke ⊢
        simpa using hke

/-- The first loop stops at an event without signals when it waits for all, and at the first
signal that there is when it waits for any. -/
lemma tryFinishScan_eq (s : WaitState T) (waitAll : Bool) (c : List ℕ) :
    s.tryFinishScan waitAll c =
      (c.find? fun p => decide (s.signalCount (s.eventOf p) = 0) == waitAll).map fun p =>
        if waitAll then (s, false) else (s.consume p, true) := by
  induction c with
  | nil => rfl
  | cons p c ih =>
    rw [tryFinishScan, ih, find?_cons]
    by_cases hp : s.signalCount (s.eventOf p) = 0 <;> cases waitAll <;> simp [hp]

/-- An attempt takes a signal for each of the entries `used`, or it changes nothing. -/
lemma tryFinish_cases (s : WaitState T) (c : List ℕ) (waitAll : Bool) :
    (s.tryFinish c waitAll = (s, false) ∧ ¬ Finishable s.signalCount (c.map s.eventOf) waitAll) ∨
      Finishable s.signalCount (c.map s.eventOf) waitAll ∧ ∃ used,
        s.tryFinish c waitAll = (used.foldl consume s, true) ∧
        (∀ p ∈ used, p ∈ c ∧ s.signalCount (s.eventOf p) ≠ 0) ∧
        if waitAll then used = c else ∃ p, used = [p] := by
  rw [tryFinish, tryFinishScan_eq]
  cases hfind : c.find? _ with
  | none =>
    rw [find?_eq_none] at hfind
    cases waitAll with
    | true =>
      have hall : ∀ p ∈ c, s.signalCount (s.eventOf p) ≠ 0 := by simpa using hfind
      exact .inr ⟨by simpa [Finishable], c, rfl, fun p hp => ⟨hp, hall p hp⟩, rfl⟩
    | false => exact .inl ⟨rfl, by simpa [Finishable] using hfind⟩
  | some p =>
    have hp := mem_of_find?_eq_some hfind
    have hcount := find?_some hfind
    cases waitAll with
    | true => exact .inl ⟨rfl, fun hfin => hfin _ (mem_map_of_mem hp) (by simpa using hcount)⟩
    | false =>
      have hne : s.signalCount (s.eventOf p) ≠ 0 := by simpa using hcount
      exact .inr ⟨⟨_, mem_map_of_mem hp, hne⟩, [p], rfl, by simpa using ⟨hp, hne⟩, p, rfl⟩

/-- An attempt succeeds exactly when the wait can be finished. -/
lemma tryFinish_iff (s : WaitState T) (c : List ℕ) (waitAll : Bool) :
    (s.tryFinish c waitAll).2 = true ↔ Finishable s.signalCount (c.map s.eventOf) waitAll := by
  rcases tryFinish_cases s c waitAll with ⟨htry, hnot⟩ | ⟨hfin, used, htry, -⟩
  · simp [htry, hnot]
  · simp [htry, hfin]

/-- An attempt that does not finish the wait changes nothing. -/
lemma tryFinish_false (s : WaitState T) (c : List ℕ) (waitAll : Bool)
    (h : (s.tryFinish c waitAll).2 = false) : (s.tryFinish c waitAll).1 = s := by
  rcases tryFinish_cases s c waitAll with ⟨htry, -⟩ | ⟨-, used, htry, -⟩
  · rw [htry]
  · rw [htry] at h
    cases h

/-- The entries `used` of the cohort took a signal each. -/
lemma took_of_consumeAll {used : List ℕ} (hsub : ∀ p ∈ used, p ∈ c)
    (hun : ∀ p ∈ c, (s.entry p).signalled = false) (hfilter : c.filter (· ∈ used) = used)
    (hnd : (used.map s.eventOf).Nodup) (hlt : ∀ e, s.signalCount e < wordSize)
    (hpos : ∀ p ∈ used, s.signalCount (s.eventOf p) ≠ 0) (hall : waitAll = true → used = c)
    (hany : waitAll = false → ∃ p ∈ c, used = [p]) : Took s c waitAll (used.foldl consume s) := by
  obtain ⟨k, entry, hrun, hentry, hk⟩ := consumeAll_spec hnd hlt hpos
  rw [hrun]
  have hsig : c.filter (fun p => (entry p).signalled) = used := by
    rw [← hfilter]
    refine filter_congr fun p hp => ?_
    rw [hentry, hun p hp]
    simp
  refine ⟨rfl, fun q => ?_, fun q hq => ?_, fun e => ?_, fun h => ?_, fun h => ?_⟩
  · simp only [hentry]
  · have hqu : q ∉ used := fun h => hq (hsub q h)
    simp only [hentry, hqu, decide_false, Bool.or_false]
  · simp only [hsig]
    exact hk e
  · simp only [hsig]
    exact hall h
  · simp only [hsig]
    exact hany h

/-- **An attempt to finish a wait** either changes nothing, and then the wait could not be
finished, or takes what the wait needs. -/
lemma tryFinish_spec (waitAll : Bool) (hnd : (c.map s.eventOf).Nodup) (hlt : ∀ e, s.signalCount e < wordSize)
    (hun : ∀ p ∈ c, (s.entry p).signalled = false) :
    (s.tryFinish c waitAll = (s, false) ∧
        ¬ Finishable s.signalCount (c.map s.eventOf) waitAll) ∨
      ∃ s', s.tryFinish c waitAll = (s', true) ∧ Took s c waitAll s' := by
  rcases tryFinish_cases s c waitAll with h | ⟨-, used, htry, hused, hkind⟩
  · exact .inl h
  · refine .inr ⟨_, htry, ?_⟩
    rw [forall₂_and] at hused
    cases waitAll with
    | true =>
      obtain rfl : used = c := hkind
      exact took_of_consumeAll hused.1 hun (filter_eq_self.mpr (by simp)) hnd hlt hused.2
        (fun _ => rfl) (by simp)
    | false =>
      obtain ⟨p, rfl⟩ : ∃ p, used = [p] := hkind
      have hp : p ∈ c := hused.1 p mem_cons_self
      refine took_of_consumeAll hused.1 hun ?_ (by simp) hlt hused.2 (by simp) fun _ => ⟨p, hp, rfl⟩
      simp only [mem_singleton]
      rw [filter_eq, count_eq_one_of_mem hnd.of_map hp, replicate_one]

/-! ### The queues -/

/-- **The queues** are linked lists of entries for their events. -/
structure Lists (s : WaitState T) : Prop where
  nodup : ∀ e, (s.waiters e).Nodup
  chain : ∀ e, Chain s.next (s.waiters e)
  event : ∀ e, ∀ p ∈ s.waiters e, s.eventOf p = e

/-- The entry is in no queue. -/
def Unqueued (s : WaitState T) (p : ℕ) : Prop := ∀ e, p ∉ s.waiters e

lemma dequeue_waiters (h : Lists s) (p e : ℕ) :
    (s.dequeue p).waiters e = (s.waiters e).erase p := by
  by_cases he : e = s.eventOf p
  · simp [dequeue, he]
  · have hp : p ∉ s.waiters e := fun hp => he (h.event e p hp).symm
    simp [dequeue, he, erase_of_not_mem hp]

lemma dequeue_lists (h : Lists s) (hp : p ∈ s.waiters (s.eventOf p)) : Lists (s.dequeue p) where
  nodup e := by
    rw [dequeue_waiters h]
    exact (h.nodup e).erase p
  chain e := by
    rw [dequeue_waiters h]
    by_cases he : e = s.eventOf p
    · rw [he]
      exact (h.chain _).unlink (h.nodup _) hp
    · have hpe : p ∉ s.waiters e := fun hpe => he (h.event e p hpe).symm
      rw [erase_of_not_mem hpe]
      refine (h.chain e).congr fun q hq => unlink_of_notMem fun hq' => he ?_
      rw [← h.event e q hq, h.event _ q hq']
  event e q hq := by
    rw [dequeue_waiters h] at hq
    exact h.event e q (mem_of_mem_erase hq)

/-- **A cohort leaves its queues.**  The pointers of its entries stay as they were. -/
lemma dequeueAll_spec (h : Lists s) (hc : ∀ p ∈ c, p ∈ s.waiters (s.eventOf p))
    (hnd : (c.map s.eventOf).Nodup) :
    ∃ next waiters, c.foldl dequeue s = { s with next := next, waiters := waiters } ∧
      Lists { s with next := next, waiters := waiters } ∧
      (∀ e, waiters e = (s.waiters e).filter fun q => decide (q ∉ c)) ∧
      (∀ q ∈ c, next q = s.next q) ∧ ∀ q, Unqueued s q → next q = s.next q := by
  induction c generalizing s with
  | nil => exact ⟨s.next, s.waiters, rfl, h, by simp, by simp, fun _ _ => rfl⟩
  | cons p c ih =>
    rw [map_cons, nodup_cons] at hnd
    have hp := hc p mem_cons_self
    have hne : ∀ q ∈ c, s.eventOf q ≠ s.eventOf p := fun q hq h => hnd.1 (h ▸ mem_map_of_mem hq)
    have hqp : ∀ q ∈ c, q ≠ p := fun q hq h => hne q hq (h ▸ rfl)
    obtain ⟨next, waiters, hrun, hlists, hwaiters, hnext, hfree⟩ := ih (dequeue_lists h hp)
      (fun q hq => by
        rw [dequeue_waiters h]
        exact (mem_erase_of_ne (hqp q hq)).mpr (hc q (mem_cons_of_mem _ hq)))
      hnd.2
    refine ⟨next, waiters, hrun, hlists, fun e => ?_, fun q hq => ?_, fun q hq => ?_⟩
    · rw [hwaiters, dequeue_waiters h, (h.nodup e).erase_eq_filter, filter_filter]
      refine filter_congr fun q _ => ?_
      by_cases hq : q = p <;> simp [hq]
    · rcases mem_cons.mp hq with rfl | hq
      · -- the first entry is in no queue any more
        rw [hfree q fun e he => ?_]
        · exact unlink_self
        · rw [dequeue_waiters h] at he
          exact Nodup.not_mem_erase (h.nodup e) he
      · rw [hnext q hq]
        exact unlink_of_notMem fun hq' => hne q hq (h.event _ q hq')
    · rw [hfree q fun e he => ?_]
      · exact unlink_of_notMem (hq _)
      · rw [dequeue_waiters h] at he
        exact hq e (mem_of_mem_erase he)

lemma enqueue_waiters (s : WaitState T) (p e : ℕ) :
    (s.enqueue p).waiters e = s.waiters e ++ if s.eventOf p = e then [p] else [] := by
  by_cases he : e = s.eventOf p
  · simp [enqueue, he]
  · simp [enqueue, he, Ne.symm he]

lemma enqueue_lists (h : Lists s) (hp : Unqueued s p) : Lists (s.enqueue p) where
  nodup e := by
    rw [enqueue_waiters]
    split_ifs
    · rw [← concat_eq_append]
      exact (h.nodup e).concat (hp e)
    · rw [append_nil]
      exact h.nodup e
  chain e := by
    rw [enqueue_waiters]
    split_ifs with he
    · subst he
      exact (h.chain _).pushBack (hp _)
    · rw [append_nil]
      refine (h.chain e).congr fun q hq => pushBack_of_notMem ?_ fun hq' => he ?_
      · rintro rfl
        exact hp e hq
      · rw [← h.event e q hq, h.event _ q hq']
  event e q hq := by
    rw [enqueue_waiters] at hq
    rcases mem_append.mp hq with hq | hq
    · exact h.event e q hq
    · split_ifs at hq with he
      · rw [mem_singleton.mp hq]
        exact he
      · cases hq

/-- **A cohort enters its queues.** -/
lemma enqueueAll_spec (h : Lists s) (hc : ∀ p ∈ c, Unqueued s p) (hnd : c.Nodup) :
    ∃ next waiters, c.foldl enqueue s = { s with next := next, waiters := waiters } ∧
      Lists { s with next := next, waiters := waiters } ∧
      ∀ e, waiters e = s.waiters e ++ c.filter fun q => decide (s.eventOf q = e) := by
  induction c generalizing s with
  | nil => exact ⟨s.next, s.waiters, rfl, h, by simp⟩
  | cons p c ih =>
    rw [nodup_cons] at hnd
    have hfree : ∀ q ∈ c, Unqueued (s.enqueue p) q := by
      intro q hq e hqe
      rw [enqueue_waiters] at hqe
      rcases mem_append.mp hqe with hqe | hqe
      · exact hc q (mem_cons_of_mem _ hq) e hqe
      · split_ifs at hqe
        · exact hnd.1 (mem_singleton.mp hqe ▸ hq)
        · cases hqe
    obtain ⟨next, waiters, hrun, hlists, hwaiters⟩ :=
      ih (enqueue_lists h (hc p mem_cons_self)) hfree hnd.2
    refine ⟨next, waiters, hrun, hlists, fun e => ?_⟩
    have hevent : (s.enqueue p).eventOf = s.eventOf := rfl
    rw [hwaiters, enqueue_waiters, append_assoc]
    split_ifs <;> simp_all

end WaitState

end Northport.Tasking
