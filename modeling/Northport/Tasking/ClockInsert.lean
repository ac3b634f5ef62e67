/-
# What `UpdateTimerQueue` and `QueueClockEvent` do to the clock queue

`UpdateTimerQueue` moves the origin of the delta-coded list.  `QueueClockEvent` puts an event that
is due first or last where it belongs.  For an event that belongs between two others it computes
with the pointer to the one behind instead of with its duration.
-/
import Northport.Tasking.Clock

namespace Northport.Tasking

open Lib Arch List Function Nat

namespace ClockQueue

variable {next : ℕ → ℕ} {dur : ℕ → ScaledTime} {p : ℕ} {l : List (ℕ × ℕ)} {next' : ℕ → ℕ} {n u : ℕ}

lemma stands_unique (p : ℕ) (x x' : ℕ × ℕ) (q q' : ℕ) (h : Stands next dur p x q)
    (h' : Stands next dur p x' q') : x = x' ∧ q = q' :=
  ⟨h.1.trans h'.1.symm, h.2.trans h'.2.symm⟩

/-- Events are not changed by what happens to others. -/
lemma stands_congr {dur' : ℕ → ScaledTime} (hnext : ∀ a ∈ l.map (·.1), next' a = next a)
    (hdur : ∀ a ∈ l.map (·.1), dur' a = dur a) :
    ∀ x ∈ l, ∀ p q, Stands next dur p x q → Stands next' dur' p x q := by
  rintro _ hx p q ⟨rfl, rfl⟩
  have hp : p ∈ l.map (·.1) := mem_map.mpr ⟨_, hx, rfl⟩
  exact ⟨by rw [hdur p hp], (hnext p hp).symm⟩

lemma duration_of_mem {b : ℕ} (h : RecordList (Stands next dur) p l) (hb : (b, n) ∈ l) :
    n = (dur b).units := by
  induction l generalizing p with
  | nil => cases hb
  | cons y l ih =>
    obtain ⟨-, _, ⟨rfl, -⟩, hl⟩ := h
    rcases mem_cons.mp hb with heq | hb
    · cases heq
      rfl
    · exact ih hl hb

/-! ### Time passes -/

/-- No event of a list without repetition points at itself. -/
lemma ne_next_of_linked (h : RecordList (Stands next dur) (next p) l) (hp : p ≠ 0)
    (hnot : p ∉ l.map (·.1)) : p ≠ next p := by
  intro e
  cases l with
  | nil => exact hp (e.trans h)
  | cons x l =>
    obtain ⟨-, _, ⟨rfl, -⟩, -⟩ := h
    exact hnot (by rw [← e]; exact mem_cons_self)

section

variable (q : ClockQueue)

lemma setUnits_eq (p n : ℕ) : q.setUnits p n =
    { q with duration := update q.duration p { q.duration p with units := n } } := rfl

lemma units_setUnits_self (p n : ℕ) : (q.setUnits p n).units p = n := by
  simp [setUnits_eq, units]

lemma units_setUnits_of_ne {a p : ℕ} (h : a ≠ p) (n : ℕ) :
    (q.setUnits p n).units a = q.units a := by
  simp [setUnits_eq, units, h]

lemma duration_setUnits_of_ne {a p : ℕ} (h : a ≠ p) (n : ℕ) :
    (q.setUnits p n).duration a = q.duration a := update_of_ne h ..

lemma setUnits_units (p : ℕ) : q.setUnits p (q.units p) = q := by
  simp [setUnits_eq, units]

end

/-- The loop of `UpdateTimerQueue` ends, changes nothing but the durations of the list and moves its
origin. -/
lemma updateScan_spec {fuel : ℕ} {q : ClockQueue} (h : RecordList (Stands q.next q.duration) p l)
    (hnd : (l.map (·.1)).Nodup) (hfuel : l.length < fuel) :
    ∃ dur, updateScan fuel q p n = some { q with duration := dur } ∧
      RecordList (Stands q.next dur) p (advance n l) ∧
      (∀ a, a ∉ l.map (·.1) → dur a = q.duration a) := by
  induction fuel generalizing q p l n with
  | zero => cases hfuel
  | succ fuel ih =>
    rw [updateScan]
    cases l with
    | nil =>
      rw [if_pos (.inl (show p = 0 from h))]
      exact ⟨q.duration, rfl, h, fun _ _ => rfl⟩
    | cons x l =>
      by_cases hn : n = 0
      · rw [if_pos (.inr hn), hn, advance_zero]
        exact ⟨q.duration, rfl, h, fun _ _ => rfl⟩
      · obtain ⟨hp, _, ⟨rfl, rfl⟩, hl⟩ := h
        rw [map_cons, nodup_cons] at hnd
        rw [if_neg (not_or.mpr ⟨hp, hn⟩), if_neg (ne_next_of_linked hl hp hnd.1)]
        have hfuel' : l.length < fuel := lt_of_succ_lt_succ hfuel
        -- the first event gets the duration `d`, the rest of the list comes from the loop
        have hcons : ∀ (dur : ℕ → ScaledTime) (d : ℕ) (l' : List (ℕ × ℕ)), (dur p).units = d →
            RecordList (Stands q.next dur) (q.next p) l' →
            RecordList (Stands q.next dur) p ((p, d) :: l') :=
          fun dur d l' hd hl' => ⟨hp, _, ⟨by rw [hd], rfl⟩, hl'⟩
        have hrest : ∀ m, RecordList (Stands q.next (q.setUnits p m).duration) (q.next p) l := fun m =>
          hl.congr (stands_congr (fun _ _ => rfl) fun a ha =>
            duration_setUnits_of_ne q (ne_of_mem_of_not_mem ha hnd.1) m)
        by_cases hlt : n < q.units p
        · rw [if_neg (ne_of_gt (zero_lt_of_lt hlt)), if_pos hlt]
          refine ⟨(q.setUnits p (q.units p - n)).duration, rfl, ?_, fun a ha => ?_⟩
          · rw [advance, Nat.sub_eq_zero_of_le (show n ≤ (q.duration p).units from hlt.le),
              advance_zero]
            exact hcons _ _ _ (units_setUnits_self q p _) (hrest _)
          · exact duration_setUnits_of_ne q (not_or.mp (mem_cons.not.mp ha)).1 _
        · -- an event that is due already stays as it is
          have hstep : (if q.units p = 0 then updateScan fuel q (q.next p) n
              else updateScan fuel (q.setUnits p 0) (q.next p) (n - q.units p)) =
                updateScan fuel (q.setUnits p 0) (q.next p) (n - q.units p) := by
            split_ifs with hzero
            · rw [hzero, Nat.sub_zero, ← hzero, setUnits_units]
            · rfl
          rw [if_neg hlt, hstep]
          obtain ⟨dur, hrun, hlist, hkeep⟩ := ih (q := q.setUnits p 0) (n := n - q.units p)
            (hrest 0) hnd.2 hfuel'
          have hself : (dur p).units = 0 := by
            rw [hkeep p hnd.1]
            exact units_setUnits_self q p 0
          refine ⟨dur, hrun, ?_, fun a ha => ?_⟩
          · rw [advance, Nat.sub_eq_zero_of_le (show (q.duration p).units ≤ n from not_lt.mp hlt)]
            exact hcons dur 0 _ hself hlist
          · rw [map_cons, mem_cons, not_or] at ha
            rw [hkeep a ha.2]
            exact duration_setUnits_of_ne q ha.1 _

/-- The nanoseconds that `UpdateTimerQueue` takes from the queue. -/
def elapsed (timer : PollTimer) (pollTicks : ℕ) (q : ClockQueue) : ℕ :=
  pollTicksToNanos timer (sub64 pollTicks q.modifiedTicks)

variable {q : ClockQueue} {timer : PollTimer} {pollTicks fuel : ℕ}

lemma durations_advance (h : ∀ x ∈ l, x.2 < wordSize) : ∀ x ∈ advance n l, x.2 < wordSize := by
  induction l generalizing n with
  | nil => exact h
  | cons y l ih =>
    intro x hx
    rcases mem_cons.mp hx with rfl | hx
    · exact (sub_le _ _).trans_lt (h y mem_cons_self)
    · exact ih (fun z hz => h z (mem_cons_of_mem _ hz)) x hx

/-- **`UpdateTimerQueue`** always ends and takes the time that has passed from every event. -/
lemma Represents.updateTimerQueue (timer : PollTimer) (pollTicks : ℕ) (h : q.Represents l)
    (hfuel : l.length < fuel) :
    ∃ dur, q.updateTimerQueue fuel timer pollTicks =
        some { q with modifiedTicks := pollTicks, duration := dur } ∧
      ({ q with modifiedTicks := pollTicks, duration := dur } : ClockQueue).Represents
        (advance (q.elapsed timer pollTicks) l) ∧ ∀ a, a ∉ l.map (·.1) → dur a = q.duration a := by
  obtain ⟨dur, hrun, hlist, hkeep⟩ := updateScan_spec (q := { q with modifiedTicks := pollTicks })
    (n := q.elapsed timer pollTicks) h.linked h.nodup hfuel
  refine ⟨dur, hrun, ⟨hlist, ?_, ?_, ?_, durations_advance h.durations⟩, hkeep⟩
  · rw [keys_advance]
    exact h.tail
  · rw [keys_advance]
    exact h.nodup
  · rw [← forall_mem_map (P := (· < wordSize)), keys_advance, forall_mem_map]
    exact h.addresses

/-! ### An event is linked into the list -/

variable {e a x : ℕ} {pre back : List (ℕ × ℕ)}

lemma ne_zero_of_linked (h : RecordList (Stands next dur) p l) (ha : a ∈ l.map (·.1)) : a ≠ 0 := by
  induction l generalizing p with
  | nil => cases ha
  | cons y l ih =>
    obtain ⟨hp, _, ⟨rfl, rfl⟩, hl⟩ := h
    rcases mem_cons.mp ha with rfl | ha
    · exact hp
    · exact ih hl ha

lemma Represents.pushFront (h : q.Represents l) (he : e ≠ 0) (hnot : e ∉ l.map (·.1))
    (haddr : e < wordSize) (hsmall : q.units e < wordSize) :
    (q.pushFront e).Represents ((e, q.units e) :: l) where
  linked := by
    have hself : update q.next e q.head e = q.head := update_self ..
    have hother : ∀ b ∈ l.map (·.1), update q.next e q.head b = q.next b := fun b hb =>
      update_of_ne (ne_of_mem_of_not_mem hb hnot) ..
    exact ⟨he, q.head, ⟨rfl, hself.symm⟩, h.linked.congr (stands_congr hother fun _ _ => rfl)⟩
  tail := by
    show (if q.tail = 0 then e else q.tail) = _
    have htail := h.tail
    cases l with
    | nil =>
      rw [if_pos (show q.tail = 0 from htail)]
      rfl
    | cons y l =>
      rw [map_cons, getLastD_cons] at htail
      have hmem : q.tail ∈ (y :: l).map (·.1) := by
        rw [htail]
        exact getLastD_mem_cons
      rw [if_neg (ne_zero_of_linked h.linked hmem), htail]
      simp only [map_cons, getLastD_cons]
  nodup := nodup_cons.mpr ⟨hnot, h.nodup⟩
  addresses := forall_mem_cons.mpr ⟨haddr, h.addresses⟩
  durations := forall_mem_cons.mpr ⟨hsmall, h.durations⟩

lemma getLastD_append_cons (l l' : List ℕ) (b c : ℕ) :
    (l ++ b :: l').getLastD c = l'.getLastD b := by
  induction l generalizing c with
  | nil => exact getLastD_cons
  | cons y l ih => rw [cons_append, getLastD_cons, ih]

section

variable (h : q.Represents (pre ++ (a, x) :: back))

include h

/-- The queue around one of its events. -/
lemma Represents.split :
    RecordPath (Stands q.next q.duration) q.head pre a ∧ a ≠ 0 ∧ x = q.units a ∧
      RecordList (Stands q.next q.duration) (q.next a) back := by
  obtain ⟨_, hpath, hne, _, ⟨hx, rfl⟩, hback⟩ := recordList_append.mp h.linked
  cases hx
  exact ⟨hpath, hne, rfl, hback⟩

lemma Represents.notMem : a ∉ pre.map (·.1) ∧ a ∉ back.map (·.1) := by
  have hnd := h.nodup
  rw [map_append, map_cons, nodup_append, nodup_cons] at hnd
  exact ⟨fun ha => hnd.2.2 a ha a mem_cons_self rfl, hnd.2.1.1⟩

/-- The fields of the queue that only depend on which events it holds. -/
lemma Represents.insert_fields
    (hnot : e ∉ (pre ++ (a, x) :: back).map (·.1)) (haddr : e < wordSize) (hu : u < wordSize) :
    ((pre ++ [(a, x)] ++ (e, u) :: back).map (·.1)).Nodup ∧
      (∀ y ∈ pre ++ [(a, x)] ++ (e, u) :: back, y.1 < wordSize) ∧
      ∀ y ∈ pre ++ [(a, x)] ++ (e, u) :: back, y.2 < wordSize := by
  have hperm : (pre ++ [(a, x)] ++ (e, u) :: back).Perm ((e, u) :: (pre ++ (a, x) :: back)) := by
    simp only [append_assoc, singleton_append]
    refine (Perm.append_left pre ?_).trans perm_middle
    exact Perm.swap ..
  simp only [(hperm.map _).nodup_iff, hperm.mem_iff, map_cons, nodup_cons,
    forall_mem_cons]
  exact ⟨⟨hnot, h.nodup⟩, ⟨haddr, h.addresses⟩, hu, h.durations⟩

/-- **The event `e` is linked behind `a`** and points at `r`. -/
lemma Represents.linkBehind (he : e ≠ 0) (hnot : e ∉ (pre ++ (a, x) :: back).map (·.1)) {r : ℕ}
    (hnext : next' = update (update q.next e r) a e) :
    RecordPath (Stands next' q.duration) q.head (pre ++ [(a, x)] ++ [(e, q.units e)]) r ∧
      ∀ b ∈ back.map (·.1), next' b = q.next b := by
  obtain ⟨hpath, ha, rfl, -⟩ := h.split
  rw [map_append, map_cons, mem_append, mem_cons, not_or, not_or] at hnot
  obtain ⟨hpre, hea, hback⟩ := hnot
  have hother : ∀ b, b ≠ a → b ≠ e → next' b = q.next b := fun b hba hbe => by
    rw [hnext, update_of_ne hba, update_of_ne hbe]
  have hself : r = next' e := by
    rw [hnext, update_of_ne hea, update_self]
  have hlink : e = next' a := by rw [hnext, update_self]
  refine ⟨?_, fun b hb => hother b (ne_of_mem_of_not_mem hb h.notMem.2)
    (ne_of_mem_of_not_mem hb hback)⟩
  have hpath' := hpath.congr (stands_congr (fun b hb => hother b
    (ne_of_mem_of_not_mem hb h.notMem.1) (ne_of_mem_of_not_mem hb hpre)) fun _ _ => rfl)
  exact (hpath'.concat ha ⟨rfl, hlink⟩).concat he ⟨rfl, hself⟩

end

lemma Represents.pushBack (h : q.Represents (pre ++ [(a, x)])) (he : e ≠ 0)
    (hnot : e ∉ (pre ++ [(a, x)]).map (·.1)) (haddr : e < wordSize)
    (hsmall : q.units e < wordSize) :
    (q.pushBack e).Represents (pre ++ [(a, x)] ++ [(e, q.units e)]) := by
  obtain ⟨hnd, haddrs, hdurs⟩ := h.insert_fields hnot haddr hsmall
  have hhead : q.head ≠ 0 := fun h0 => by simpa using h.linked.eq_nil_iff.mpr h0
  have htail : q.tail = a := by rw [h.tail, map_append]; exact getLastD_concat
  rw [ClockQueue.pushBack, if_neg hhead, htail]
  refine ⟨?_, ?_, hnd, haddrs, hdurs⟩
  · exact recordList_iff.mpr (h.linkBehind he hnot rfl).1
  · show e = _
    rw [map_append]
    exact getLastD_concat.symm

/-- What `insertBetween` does to the pointers. -/
lemma insertBetween_eq (hnull : q.next a ≠ 0) (hea : e ≠ a) :
    q.insertBetween a e = { q with
      next := update (update q.next e
        (sub64 (q.next a) (mul64 clockEventBytes (q.units e)))) a e
      tail := if a = q.tail then e else q.tail } := by
  have hself : (q.insertAfter a e).next e = q.next a := by
    show update (update q.next e (q.next a)) a e e = _
    rw [update_of_ne hea, update_self]
  rw [insertBetween]
  rw [if_pos (hself ▸ hnull), hself, insertAfter, update_comm hea, update_idem,
    update_comm hea.symm]
  rfl

/-- The event that is queued is none of those in the queue, so that its duration can be set. -/
lemma Represents.setDuration (h : q.Represents l) (hnot : e ∉ l.map (·.1)) (t : ScaledTime) :
    (q.setDuration e t).Represents l :=
  { h with
    linked := h.linked.congr (stands_congr (fun _ _ => rfl) fun _ hb =>
      show update q.duration e t _ = _ from update_of_ne (ne_of_mem_of_not_mem hb hnot) _ _) }

lemma Represents.setUnits (h : q.Represents l) (hnot : e ∉ l.map (·.1)) (n : ℕ) :
    (q.setUnits e n).Represents l :=
  h.setDuration hnot _

lemma setUnits_setUnits (q : ClockQueue) (p n m : ℕ) :
    (q.setUnits p n).setUnits p m = q.setUnits p m := by
  simp [setUnits_eq]

/-! ### Where the loop of `QueueClockEvent` stops -/

/-- The loop stops behind the event `a`, where the events up to `a` take `d - u` of the duration `d`:
at the end of the list, or before the first event that is due at `d` or later. -/
structure StopsAt (q : ClockQueue) (e : ℕ) (pre : List (ℕ × ℕ)) (a x : ℕ) (back : List (ℕ × ℕ))
    (u : ℕ) (r : Option ClockQueue) : Prop where
  last : back = [] → r = some ((q.setUnits e u).pushBack e)
  between : ∀ y ∈ back.head?, u ≤ y.2 ∧ r = some ((q.setUnits e u).insertBetween a e)

lemma insertScan_spec (h : q.Represents (pre ++ (a, x) :: back))
    (hnot : e ∉ (pre ++ (a, x) :: back).map (·.1)) (hx : x ≤ q.units e)
    (hsmall : q.units e < wordSize) (hfuel : back.length < fuel) :
    ∃ pre' a' x' back', pre ++ (a, x) :: back = pre' ++ (a', x') :: back' ∧
      deltaSum (pre' ++ [(a', x')]) ≤ deltaSum pre + q.units e ∧
      (pre = pre' ∨ deltaSum (pre' ++ [(a', x')]) < deltaSum pre + q.units e) ∧
      StopsAt q e pre' a' x' back' (deltaSum pre + q.units e - deltaSum (pre' ++ [(a', x')]))
        (insertScan fuel q e a) := by
  induction fuel generalizing q pre a x back with
  | zero => cases hfuel
  | succ fuel ih =>
    obtain ⟨-, ha, rfl, hback⟩ := h.split
    obtain ⟨u, hu⟩ : ∃ u, u = q.units e - q.units a := ⟨_, rfl⟩
    have hsub : sub64 (q.units e) (q.units a) = u := by rw [sub64_eq hsmall hx, hu]
    have hdelta : deltaSum pre + q.units e - deltaSum (pre ++ [(a, q.units a)]) = u := by
      simp only [deltaSum_append, deltaSum_cons, deltaSum_nil]
      omega
    have hself : (q.setUnits e u).units e = u := units_setUnits_self q e u
    have hne : ∀ b ∈ back.map (·.1), b ≠ e := by
      rintro b hb rfl
      exact hnot (by rw [map_append]; simp [hb])
    rw [insertScan, if_neg ha, hsub]
    cases back with
    | nil =>
      refine ⟨pre, a, q.units a, [], rfl, ?_, .inl rfl, ?_⟩
      · simp only [deltaSum_append, deltaSum_cons, deltaSum_nil]
        omega
      · rw [hdelta]
        exact ⟨fun _ => if_pos (show q.next a = 0 from hback), by simp⟩
    | cons y back =>
      obtain ⟨hb, _, ⟨hy, -⟩, -⟩ := hback
      obtain rfl : y = (q.next a, q.units (q.next a)) := hy
      have hunits : (q.setUnits e u).units (q.next a) = q.units (q.next a) :=
        units_setUnits_of_ne q (hne _ (by simp)) u
      have hnext : (q.setUnits e u).next a = q.next a := rfl
      simp only [hnext, hself, hunits, if_neg hb]
      by_cases hlt : q.units (q.next a) < u
      · -- the loop goes on behind the next event
        rw [if_pos hlt]
        have hassoc : pre ++ (a, q.units a) :: (q.next a, q.units (q.next a)) :: back =
            (pre ++ [(a, q.units a)]) ++ (q.next a, q.units (q.next a)) :: back := by simp
        have h' := h.setUnits hnot u
        rw [hassoc] at h' hnot
        obtain ⟨pre', a', x', back', heq, hle, hfront, hstop⟩ := ih h' hnot (by rw [hself]; omega)
          (by rw [hself]; omega) (lt_of_succ_lt_succ hfuel)
        have hsum : deltaSum (pre ++ [(a, q.units a)]) + (q.setUnits e u).units e =
            deltaSum pre + q.units e := by
          omega
        rw [hsum] at hle hfront hstop
        refine ⟨pre', a', x', back', hassoc.trans heq, hle, .inr ?_, ?_⟩
        · rcases hfront with rfl | hfront
          · have hhead := (append_cancel_left heq)
            obtain ⟨rfl, rfl⟩ := Prod.mk.inj (cons.inj hhead).1
            simp only [deltaSum_append, deltaSum_cons, deltaSum_nil]
            omega
          · exact hfront
        · obtain ⟨hlast, hbetween⟩ := hstop
          rw [setUnits_setUnits] at hlast hbetween
          exact ⟨hlast, hbetween⟩
      · rw [if_neg hlt]
        refine ⟨pre, a, q.units a, (q.next a, q.units (q.next a)) :: back, rfl, ?_, .inl rfl, ?_⟩
        · simp only [deltaSum_append, deltaSum_cons, deltaSum_nil]
          omega
        · rw [hdelta]
          refine ⟨by simp, fun z hz => ?_⟩
          obtain rfl : (q.next a, q.units (q.next a)) = z := by simpa using hz
          exact ⟨not_lt.mp hlt, rfl⟩

/-! ### The whole call -/

/-- The event is queued with the duration `d`: it is due after `d`, every other event is due when
it was before, and the events are in the order in which they are due. -/
def QueuedAt (q : ClockQueue) (l : List (ℕ × ℕ)) (e d : ℕ) : Prop :=
  ∃ l', q.Represents l' ∧ position l' e = some d ∧
    (∀ p, p ≠ e → position l' p = position l p) ∧
    l'.Pairwise fun x y => ∀ n m, position l' x.1 = some n → position l' y.1 = some m → n ≤ m

lemma queuedAt_of_insertAt (front : List (ℕ × ℕ)) {d : ℕ}
    (h : q.Represents (insertAt front back e d)) (hle : deltaSum front ≤ d)
    (hnot : e ∉ (front ++ back).map (·.1)) (hback : ∀ y ∈ back.head?, d - deltaSum front ≤ y.2) :
    q.QueuedAt (front ++ back) e d := by
  have hfront : e ∉ front.map (·.1) := by
    intro hmem
    rw [map_append] at hnot
    exact hnot (mem_append_left _ hmem)
  exact ⟨_, h, position_insertAt_self hle hfront, fun p hp => position_insertAt_of_ne hback hp,
    pairwise_position h.nodup⟩

variable {d : ℕ}

/-- The duration of an event in the queue is set. -/
lemma Represents.setUnits_mem (h : q.Represents (pre ++ (a, x) :: back)) {n : ℕ}
    (hn : n < wordSize) : (q.setUnits a n).Represents (pre ++ (a, n) :: back) := by
  obtain ⟨hpath, ha, -, hback⟩ := h.split
  have hkeys : (pre ++ (a, n) :: back).map (·.1) = (pre ++ (a, x) :: back).map (·.1) := by simp
  have hdur : ∀ l : List (ℕ × ℕ), a ∉ l.map (·.1) → ∀ y ∈ l, ∀ p r,
      Stands q.next q.duration p y r → Stands q.next (q.setUnits a n).duration p y r :=
    fun l hl => stands_congr (fun _ _ => rfl) fun b hb =>
      duration_setUnits_of_ne q (ne_of_mem_of_not_mem hb hl) n
  have haddrs := h.addresses
  have hdurs := h.durations
  rw [forall_mem_append, forall_mem_cons] at haddrs hdurs
  refine ⟨recordList_append.mpr ⟨a, hpath.congr (hdur _ h.notMem.1), ha, q.next a, ⟨?_, rfl⟩,
    hback.congr (hdur _ h.notMem.2)⟩, hkeys ▸ h.tail, hkeys ▸ h.nodup, ?_, ?_⟩
  · exact congrArg (Prod.mk a) (units_setUnits_self q a n).symm
  · exact forall_mem_append.mpr ⟨haddrs.1, forall_mem_cons.mpr haddrs.2⟩
  · exact forall_mem_append.mpr ⟨hdurs.1, forall_mem_cons.mpr ⟨hn, hdurs.2.2⟩⟩

/-- What the caller of `QueueClockEvent` provides: an event outside the queue with a duration of `d`
nanoseconds. -/
structure NewEvent (q : ClockQueue) (l : List (ℕ × ℕ)) (e d : ℕ) : Prop where
  ne_zero : e ≠ 0
  address : e < wordSize
  dpc : q.dpc e ≠ 0
  fresh : e ∉ l.map (·.1)
  duration : q.duration e = ⟨.nanos, d⟩
  small : d < wordSize

/-- The queue is brought up to date and the event has its duration in nanoseconds. -/
lemma queueClockEvent_eq {coreId : ℕ} (h : q.Represents l) (hnew : NewEvent q l e d)
    (hfuel : l.length < fuel) :
    ∃ q₁ : ClockQueue, q.queueClockEvent fuel timer pollTicks coreId e = q₁.insert fuel e ∧
      q₁.Represents (advance (q.elapsed timer pollTicks) l) ∧ q₁.units e = d ∧
      q₁.modifiedTicks = pollTicks := by
  obtain ⟨q₀, hq₀⟩ : ∃ q₀, q₀ = if q.callbackCore e = noCoreAffinity then
      { q with callbackCore := update q.callbackCore e coreId } else q := ⟨_, rfl⟩
  have hfields : q₀.Represents l ∧ q₀.elapsed timer pollTicks = q.elapsed timer pollTicks ∧
      q₀.duration = q.duration := by
    rw [hq₀]
    split_ifs
    · exact ⟨{ h with }, rfl, rfl⟩
    · exact ⟨h, rfl, rfl⟩
  obtain ⟨hrep, helapsed, hdur⟩ := hfields
  obtain ⟨dur, hrun, hrep₁, hkeep⟩ := hrep.updateTimerQueue timer pollTicks hfuel
  generalize hq₁ : { q₀ with modifiedTicks := pollTicks, duration := dur } = q₁ at hrun hrep₁
  rw [helapsed] at hrep₁
  have hdur₁ : q₁.duration e = ⟨.nanos, d⟩ := by
    rw [← hq₁]
    exact (hkeep e hnew.fresh).trans (hdur ▸ hnew.duration)
  have hnanos : q₁.setNanos e = q₁.setUnits e d := by
    rw [setNanos, setUnits, hdur₁, ScaledTime.toScale]
    simp [mul64, TimeScale.value, mod_eq_of_lt hnew.small]
  refine ⟨q₁.setUnits e d, ?_, hrep₁.setUnits ?_ d, units_setUnits_self q₁ e d, by rw [← hq₁]; rfl⟩
  · rw [queueClockEvent, if_neg (not_or.mpr ⟨hnew.ne_zero, hnew.dpc⟩), ← hq₀]
    dsimp only
    rw [hrun, Option.bind_some, hnanos]
  · rw [keys_advance]
    exact hnew.fresh

lemma modifiedTicks_insertScan {q' : ClockQueue} (h : insertScan fuel q e a = some q') :
    q'.modifiedTicks = q.modifiedTicks := by
  have hback : ∀ q : ClockQueue, (q.pushBack e).modifiedTicks = q.modifiedTicks := by
    intro q
    rw [ClockQueue.pushBack]
    split <;> rfl
  induction fuel generalizing q a with
  | zero => cases h
  | succ fuel ih =>
    simp only [insertScan] at h
    split_ifs at h
    · cases h
      exact hback q
    · cases h
      exact hback _
    · exact (ih h).trans rfl
    · cases h
      rw [insertBetween]
      split <;> rfl

lemma modifiedTicks_insert {q' : ClockQueue} (h : q.insert fuel e = some q') :
    q'.modifiedTicks = q.modifiedTicks := by
  rw [insert] at h
  split at h
  · cases h
    split <;> rfl
  · exact modifiedTicks_insertScan h

/-- The event is due before all others. -/
lemma insert_front (h : q.Represents l) (he : e ≠ 0) (haddr : e < wordSize)
    (hnot : e ∉ l.map (·.1)) (hd : q.units e = d) (hsmall : d < wordSize)
    (hfirst : ∀ y ∈ l.head?, d < y.2) : ∃ q', q.insert fuel e = some q' ∧ q'.QueuedAt l e d := by
  rw [insert]
  cases l with
  | nil =>
    rw [if_pos (.inl (show q.head = 0 from h.linked))]
    refine ⟨_, rfl, queuedAt_of_insertAt [] ?_ zero_le hnot (by simp)⟩
    rw [if_neg (not_not.mpr (show q.head = 0 from h.linked))]
    have hrep := h.pushFront he hnot haddr (by rw [hd]; exact hsmall)
    rw [hd] at hrep
    exact { hrep with }
  | cons y back =>
    obtain ⟨hhead, _, ⟨rfl, -⟩, -⟩ := id h.linked
    change q.Represents ([] ++ (q.head, q.units q.head) :: back) at h
    have hlt : d < q.units q.head := hfirst _ rfl
    have hheadSmall : q.units q.head < wordSize := h.durations _ mem_cons_self
    rw [if_pos (.inr (by rw [hd]; exact hlt)), if_pos hhead, hd, sub64_eq hheadSmall hlt.le]
    have hne : e ≠ q.head := fun heq => hnot (by rw [heq]; exact mem_cons_self)
    have hunits : (q.setUnits q.head (q.units q.head - d)).units e = d := by
      rw [units_setUnits_of_ne q hne, hd]
    have hrep := (h.setUnits_mem ((sub_le _ d).trans_lt hheadSmall)).pushFront he hnot haddr
      (by rw [hunits]; exact hsmall)
    rw [hunits] at hrep
    refine ⟨_, rfl, queuedAt_of_insertAt [] ?_ zero_le hnot ?_⟩
    · exact { hrep with }
    · rintro _ hy
      cases hy
      exact hlt.le

/-- The event is due after all others, or at the same time as the first one. -/
lemma insert_behind (h : q.Represents (pre ++ (a, x) :: back)) (he : e ≠ 0) (haddr : e < wordSize)
    (hnot : e ∉ (pre ++ (a, x) :: back).map (·.1)) (hu : u < wordSize)
    (hd : deltaSum (pre ++ [(a, x)]) + u = d) (hlast : back = [] ∨ u = 0) {r : Option ClockQueue}
    (hr : StopsAt q e pre a x back u r) :
    ∃ q', r = some q' ∧ q'.QueuedAt (pre ++ (a, x) :: back) e d := by
  have hself : (q.setUnits e u).units e = u := units_setUnits_self q e u
  have hset := h.setUnits hnot u
  have hassoc : pre ++ (a, x) :: back = pre ++ [(a, x)] ++ back := by simp
  cases back with
  | nil =>
    refine ⟨_, hr.last rfl, ?_⟩
    have hrep := hset.pushBack he hnot haddr (by rw [hself]; exact hu)
    rw [hself] at hrep
    rw [hassoc]
    refine queuedAt_of_insertAt _ ?_ (by omega) (by rw [← hassoc]; exact hnot) (by simp)
    rw [insertAt, ← hd, Nat.add_sub_cancel_left]
    exact hrep
  | cons y back =>
    obtain rfl : u = 0 := hlast.resolve_left (by simp)
    obtain ⟨-, hr⟩ := hr.between y rfl
    obtain ⟨-, -, -, hback⟩ := hset.split
    have hnext : q.next a < wordSize := by
      obtain ⟨-, _, ⟨hy, -⟩, -⟩ := hback
      have hy' : y.1 = q.next a := congrArg Prod.fst hy
      rw [← hy']
      exact h.addresses y (by simp)
    have hptr : sub64 ((q.setUnits e 0).next a) (mul64 clockEventBytes ((q.setUnits e 0).units e)) =
        (q.setUnits e 0).next a := by
      show sub64 (q.next a) _ = q.next a
      rw [hself, mul64, mul_zero, Nat.zero_mod, sub64_eq hnext zero_le, Nat.sub_zero]
    obtain ⟨hpath, hkeep⟩ := hset.linkBehind he hnot (r := (q.setUnits e 0).next a) rfl
    obtain ⟨hnd, haddrs, hdurs⟩ := hset.insert_fields hnot haddr hu
    rw [hself] at hpath
    have hat : a ≠ q.tail := by
      intro heq
      have hmem : q.tail ∈ (y :: back).map (·.1) := by
        simp only [h.tail, map_append, map_cons, getLastD_append_cons, getLastD_cons]
        exact getLastD_mem_cons
      exact h.notMem.2 (heq ▸ hmem)
    refine ⟨_, hr, ?_⟩
    rw [hassoc]
    refine queuedAt_of_insertAt _ ?_ (by omega) (by rw [← hassoc]; exact hnot)
      (fun z _ => by omega)
    rw [insertAt, ← hd, Nat.add_sub_cancel_left, shorten_zero,
      insertBetween_eq hback.1 (fun heq => hnot (by simp [heq])), hptr]
    refine ⟨?_, ?_, hnd, haddrs, hdurs⟩
    · have hrest := hback.congr (stands_congr hkeep fun _ _ => rfl)
      simpa using recordList_append.mpr ⟨_, hpath, hrest⟩
    · show (if a = q.tail then e else q.tail) = _
      rw [if_neg hat]
      simp only [h.tail, map_append, map_cons, getLastD_append_cons, getLastD_cons]

/-- An event that belongs between two others makes the one behind it late. -/
lemma not_queuedAt_between (h : q.Represents (pre ++ (a, x) :: back)) (he : e ≠ 0)
    (hnot : e ∉ (pre ++ (a, x) :: back).map (·.1)) {y : ℕ × ℕ} (hy : y ∈ back.head?) (hu : 0 < u) :
    ¬ ((q.setUnits e u).insertBetween a e).QueuedAt (pre ++ (a, x) :: back) e d := by
  rintro ⟨l', hrep, -, hother, -⟩
  cases back with
  | nil => simp at hy
  | cons z back =>
    have hset := h.setUnits hnot u
    obtain ⟨-, -, -, hback⟩ := hset.split
    rw [insertBetween_eq hback.1 (fun heq => hnot (by simp [heq]))] at hrep
    have hpath := (hset.linkBehind he hnot rfl).1.eq_append hrep.linked stands_unique
    obtain ⟨-, _, ⟨rfl, -⟩, -⟩ := hback
    generalize hb : (q.setUnits e u).next a = b at h hnot hother
    have hself : (q.setUnits e u).units e = u := units_setUnits_self q e u
    -- the queue goes along the path up to the new event
    obtain ⟨rest, rfl, hrest⟩ := hpath
    have hbe : b ≠ e := fun heq => hnot (by simp [heq])
    have hba : b ≠ a := fun heq => h.notMem.2 (by simp [heq])
    have hbpre : b ∉ pre.map (·.1) := by
      have hnd := h.nodup
      rw [map_append, nodup_append] at hnd
      exact fun hmem => hnd.2.2 b hmem b (by simp) rfl
    have hafter : position (pre ++ (a, x) :: (b, ((q.setUnits e u).duration b).units) :: back) b =
        some (deltaSum (pre ++ [(a, x)]) + ((q.setUnits e u).duration b).units) := by
      rw [position_append_of_notMem hbpre, position_cons_of_ne (Ne.symm hba), position_cons_self]
      simp [add_assoc]
    have hbefore := hother b hbe
    have hkeys : b ∉ (pre ++ [(a, x)] ++ [(e, (q.setUnits e u).units e)]).map (·.1) := by
      simp [hbe, hba]
      simpa using hbpre
    rw [hafter, position_append_of_notMem hkeys] at hbefore
    obtain ⟨n, hn, hsum⟩ := Option.map_eq_some_iff.mp hbefore
    -- the event behind is still there with all of its duration
    obtain ⟨m, hm, hle⟩ := le_of_position hn
    have hdur : m = ((q.setUnits e u).duration b).units := duration_of_mem hrest hm
    rw [deltaSum_append, deltaSum_cons, hself] at hsum
    omega

/-- **When `QueueClockEvent` works**: the event is due before or with the first event of the queue,
or after the last one. -/
def InsertOk (l : List (ℕ × ℕ)) (d : ℕ) : Prop := (∀ y ∈ l.head?, d ≤ y.2) ∨ deltaSum l < d

/-- In terms of where the loop stops. -/
lemma insertOk_iff (hsum : deltaSum (pre ++ [(a, x)]) + u = d) (hfront : pre = [] ∨ 0 < u)
    (hback : ∀ y ∈ back.head?, u ≤ y.2) :
    InsertOk (pre ++ (a, x) :: back) d ↔ back = [] ∨ u = 0 := by
  cases pre <;> cases back <;> simp [InsertOk] at * <;> omega

lemma insert_iff (h : q.Represents l) (he : e ≠ 0) (haddr : e < wordSize)
    (hnot : e ∉ l.map (·.1)) (hd : q.units e = d) (hsmall : d < wordSize)
    (hfuel : l.length < fuel) :
    ∃ q', q.insert fuel e = some q' ∧ (q'.QueuedAt l e d ↔ InsertOk l d) := by
  by_cases hfirst : ∀ y ∈ l.head?, d < y.2
  · obtain ⟨q', hq', hqueued⟩ := insert_front h he haddr hnot hd hsmall hfirst
    exact ⟨q', hq', iff_of_true hqueued (.inl fun y hy => (hfirst y hy).le)⟩
  cases l with
  | nil => simp at hfirst
  | cons y l =>
    obtain ⟨a, x⟩ := y
    have hx : x ≤ d := by simpa using hfirst
    have hhead : q.head = a := by
      obtain ⟨-, _, ⟨hax, -⟩, -⟩ := h.linked
      exact (Prod.mk.inj hax).1.symm
    have hunits : q.units a = x := (Represents.split (show q.Represents ([] ++ _) from h)).2.2.1.symm
    have hscan : q.insert fuel e = insertScan fuel q e a := by
      have hne : ¬ (q.head = 0 ∨ q.units e < q.units q.head) := by
        rw [not_or, hhead, hunits, hd, not_lt]
        exact ⟨ne_zero_of_linked h.linked mem_cons_self, hx⟩
      rw [insert, if_neg hne, hhead]
    obtain ⟨pre, a', x', back, heq, hle, hfront, hstop⟩ := insertScan_spec
      (show q.Represents ([] ++ (a, x) :: l) from h) hnot (by rw [hd]; exact hx)
      (by rw [hd]; exact hsmall) (lt_of_succ_lt hfuel)
    rw [← hscan, hd, deltaSum_nil, zero_add] at hstop
    rw [deltaSum_nil, zero_add] at hle hfront
    rw [nil_append] at heq
    generalize hu : d - deltaSum (pre ++ [(a', x')]) = u at hstop
    have hsum : deltaSum (pre ++ [(a', x')]) + u = d := by omega
    have hok := insertOk_iff hsum (hfront.imp Eq.symm fun hlt => by omega) fun y hy =>
      (hstop.between y hy).1
    rw [heq] at h hnot ⊢
    rw [hok]
    by_cases hlast : back = [] ∨ u = 0
    · obtain ⟨q', hq', hqueued⟩ := insert_behind h he haddr hnot (by omega) hsum hlast hstop
      exact ⟨q', hq', iff_of_true hqueued hlast⟩
    · have hback := not_or.mp hlast
      obtain ⟨y, hy⟩ : ∃ y, y ∈ back.head? := by
        obtain ⟨y, back, rfl⟩ := exists_cons_of_ne_nil hback.1
        exact ⟨y, rfl⟩
      exact ⟨_, (hstop.between y hy).2,
        iff_of_false (not_queuedAt_between h he hnot hy (pos_of_ne_zero hback.2)) hlast⟩

/-- **The call always ends**, and the event is queued exactly if it is due first or last. -/
lemma queueClockEvent_spec (timer : PollTimer) (pollTicks coreId : ℕ) (h : q.Represents l)
    (hnew : NewEvent q l e d) (hfuel : l.length < fuel) :
    ∃ q', q.queueClockEvent fuel timer pollTicks coreId e = some q' ∧
      q'.modifiedTicks = pollTicks ∧
      (q'.QueuedAt (advance (q.elapsed timer pollTicks) l) e d ↔
        InsertOk (advance (q.elapsed timer pollTicks) l) d) := by
  obtain ⟨q₁, hrun, hrep, hunits, hticks⟩ := queueClockEvent_eq h hnew hfuel
  rw [hrun]
  obtain ⟨q', hq', hiff⟩ := insert_iff hrep hnew.ne_zero hnew.address
    (by rw [keys_advance]; exact hnew.fresh) hunits hnew.small (by rw [length_advance]; exact hfuel)
  exact ⟨q', hq', (modifiedTicks_insert hq').trans hticks, hiff⟩

/-- **Every call on every queue.**  The event is put where it is due and all others stay where they
are, exactly if it is due before or with the first of them or after the last. -/
theorem queueClockEvent_queued_iff {coreId : ℕ} (h : q.Represents l) (hnew : NewEvent q l e d)
    (hfuel : l.length < fuel) :
    (∃ q', q.queueClockEvent fuel timer pollTicks coreId e = some q' ∧
        q'.QueuedAt (advance (q.elapsed timer pollTicks) l) e d) ↔
      InsertOk (advance (q.elapsed timer pollTicks) l) d := by
  obtain ⟨q', hq', -, hiff⟩ := queueClockEvent_spec timer pollTicks coreId h hnew hfuel
  rw [hq', ← hiff]
  constructor
  · rintro ⟨_, heq, hqueued⟩
    exact Option.some.inj heq ▸ hqueued
  · exact fun hqueued => ⟨q', rfl, hqueued⟩

/-- Two events, due after 10 and after 30 nanoseconds, and two that are not queued. -/
def twoEvents : ClockQueue where
  next p := if p = 0x1000 then 0x2000 else 0
  dpc _ := 1
  duration p := ⟨.nanos, if p = 0x1000 then 10 else if p = 0x2000 then 20
    else if p = 0x3000 then 15 else if p = 0x4000 then 40 else 0⟩
  callbackCore _ := 0
  head := 0x1000
  tail := 0x2000
  modifiedTicks := 0
  armed := none

lemma twoEvents_represents : twoEvents.Represents [(0x1000, 10), (0x2000, 20)] where
  linked := ⟨by decide, 0x2000, ⟨rfl, rfl⟩, by decide, 0, ⟨rfl, rfl⟩, rfl⟩
  tail := rfl
  nodup := by decide
  addresses := by decide
  durations := by decide

lemma twoEvents_new : NewEvent twoEvents [(0x1000, 10), (0x2000, 20)] 0x4000 40 :=
  ⟨by decide, by decide, by decide, by decide, rfl, by decide⟩

/-- An event due after 40 nanoseconds goes to the end of the queue. -/
theorem queueClockEvent_queued_last :
    ∃ q', twoEvents.queueClockEvent 3 .pit 0 0 0x4000 = some q' ∧
      q'.QueuedAt (advance (twoEvents.elapsed .pit 0) [(0x1000, 10), (0x2000, 20)]) 0x4000 40 :=
  (queueClockEvent_queued_iff twoEvents_represents twoEvents_new (by decide)).mpr
    (.inr (by decide))

/-- An event due after 15 nanoseconds is linked to an address 240 bytes before the second event,
which is no longer in the queue. -/
theorem queueClockEvent_loses_event :
    ∃ q', twoEvents.queueClockEvent 3 .pit 0 0 0x3000 = some q' ∧ q'.next 0x3000 = 0x1f10 ∧
      ¬ q'.QueuedAt [(0x1000, 10), (0x2000, 20)] 0x3000 15 := by
  refine ⟨_, rfl, rfl, ?_⟩
  rintro ⟨l', hrep, -, hother, -⟩
  have hl' : l' = [(0x1000, 10), (0x3000, 5), (0x1f10, 0)] :=
    hrep.linked.unique ⟨by decide, 0x3000, ⟨rfl, rfl⟩, by decide, 0x1f10, ⟨rfl, rfl⟩, by decide, 0,
      ⟨rfl, rfl⟩, rfl⟩ stands_unique
  have hsecond := hother 0x2000 (by decide)
  rw [hl'] at hsecond
  cases hsecond

end ClockQueue

end Northport.Tasking
