/-
# Draining the DPC queue under nested interrupts (`RunLevels.cpp`)

`LowerRunLevel` goes down one level after the other; at the level `Dpc` it first calls the DPCs
that are queued, until it finds the queue empty.  An interrupt may come between any two of its
steps, and between those of `QueueDpc`, and queue further DPCs.  The core is a stack of the calls
that are under way, of which the innermost one makes the next step.

`Push` and `Pop` are single steps on a list here, and the thread switch at the end of
`LowerRunLevel` is left out.
-/
import Northport.Lib.Run
import Northport.Tasking.RunLevels

namespace Northport.Tasking

open Lib Option List

/-- Where a call of `LowerRunLevel` stands. -/
inductive LowerPc where
  /-- The condition of the outer loop comes next. -/
  | test
  /-- The next `Pop` comes next. -/
  | draining
  /-- What is queued for the level is done, the decrement comes next. -/
  | decrement
deriving DecidableEq, Repr

/-- Where a call of `QueueDpc` stands. -/
inductive QueuePc (Store : Type*) where
  /-- The store is not in use, its `Push` comes next. -/
  | push (dpc : Store)
  /-- The test of the run level comes next. -/
  | check
  /-- `RaiseRunLevel(Dpc)` comes next. -/
  | raise (currLevel : RunLevel)

/-- A call that is under way. -/
inductive Frame (Store : Type*) where
  /-- An interrupt that came at the level `prevRl`. -/
  | handler (prevRl : RunLevel)
  /-- A DPC, called by the `LowerRunLevel` below. -/
  | dpc (dpc : Store)
  | lower (newLevel : RunLevel) (pc : LowerPc)
  | queue (pc : QueuePc Store)

/-- A core: its level, its DPC queue and its calls, the innermost one first. -/
structure DpcCore (Store : Type*) where
  runLevel : RunLevel
  dpcs : List Store
  frames : List (Frame Store)

inductive CoreOp (Store : Type*) where
  /-- An interrupt comes. -/
  | interrupt
  /-- The running code calls `QueueDpc`; `inUse` is what the test of `dpc->next` finds. -/
  | queueDpc (dpc : Store) (inUse : Bool)
  /-- The running code calls `RaiseRunLevel`. -/
  | raise (newLevel : RunLevel)
  /-- The running code calls `LowerRunLevel`. -/
  | lower (newLevel : RunLevel)
  /-- The innermost call makes its next step; a handler or a DPC returns. -/
  | next

namespace RunLevel

/-- `runLevel--` -/
def pred : RunLevel → RunLevel
  | interrupt => clock
  | clock => dpc
  | dpc => apc
  | apc => normal
  | normal => normal

lemma toNat_pred {n l : RunLevel} (h : n < l) : l.pred.toNat + 1 = l.toNat := by
  cases l with
  | normal => cases h
  | _ => rfl

lemma le_pred_iff {n l : RunLevel} (h : n < l) (m : RunLevel) : m ≤ l.pred ↔ m < l := by
  have := toNat_pred h
  rw [le_iff, lt_iff]
  omega

end RunLevel

namespace DpcCore

variable {Store : Type*}

/-- A core on which nothing was queued yet. -/
def init (level : RunLevel) : DpcCore Store := ⟨level, [], []⟩

/-- The level that the running code may lower to: a DPC stays at `Dpc`, a handler at `Interrupt`.
`none` inside of `LowerRunLevel` and `QueueDpc`, which are not interrupted by calls. -/
def floor : List (Frame Store) → Option RunLevel
  | [] => some .normal
  | .handler _ :: _ => some .interrupt
  | .dpc _ :: _ => some .dpc
  | .lower _ _ :: _ => none
  | .queue _ :: _ => none

section

variable (s : DpcCore Store)

/-- The next step of `LowerRunLevel`. -/
def nextLower (newLevel : RunLevel) (rest : List (Frame Store)) :
    LowerPc → DpcCore Store
  | .test =>
    if newLevel < s.runLevel then
      if s.runLevel = .dpc then { s with frames := .lower newLevel .draining :: rest }
      else { s with frames := .lower newLevel .decrement :: rest }
    else { s with frames := rest }
  | .draining =>
    match s.dpcs with
    | [] => { s with frames := .lower newLevel .decrement :: rest }
    | dpc :: dpcs =>
      { s with dpcs := dpcs, frames := .dpc dpc :: .lower newLevel .draining :: rest }
  | .decrement => { s with runLevel := s.runLevel.pred, frames := .lower newLevel .test :: rest }

/-- The next step of `QueueDpc`. -/
def nextQueue (rest : List (Frame Store)) : QueuePc Store → DpcCore Store
  | .push dpc => { s with dpcs := s.dpcs ++ [dpc], frames := .queue .check :: rest }
  | .check =>
    if .dpc ≤ s.runLevel then { s with frames := rest }
    else { s with frames := .queue (.raise s.runLevel) :: rest }
  | .raise currLevel => { s with runLevel := .dpc, frames := .lower currLevel .test :: rest }

/-- The next step of the innermost call; a DPC returns at the level it was called at. -/
def next : Option (DpcCore Store) :=
  match s.frames with
  | [] => none
  | .handler prevRl :: rest => some { s with frames := .lower prevRl .test :: rest }
  | .dpc _ :: rest => if s.runLevel = .dpc then some { s with frames := rest } else none
  | .lower newLevel pc :: rest => some (s.nextLower newLevel rest pc)
  | .queue pc :: rest => some (s.nextQueue rest pc)

def step : CoreOp Store → Option (DpcCore Store)
  | .interrupt =>
    if s.runLevel < .interrupt then
      some { s with runLevel := .interrupt, frames := .handler s.runLevel :: s.frames }
    else none
  | .queueDpc dpc inUse =>
    if (floor s.frames).isSome then
      if inUse then some s else some { s with frames := .queue (.push dpc) :: s.frames }
    else none
  | .raise newLevel =>
    if (floor s.frames).isSome ∧ s.runLevel < newLevel then some { s with runLevel := newLevel }
    else none
  | .lower newLevel =>
    if (∃ l ∈ floor s.frames, l ≤ newLevel) ∧ newLevel < s.runLevel then
      some { s with frames := .lower newLevel .test :: s.frames }
    else none
  | .next => s.next

/-- **Nothing is stranded**: below `Dpc`, outside of interrupts and of the two functions, the queue
is empty. -/
def NoneStranded : Prop := s.frames = [] → s.runLevel < .dpc → s.dpcs = []

/-- Nothing new begins. -/
def Quiet : CoreOp Store → Prop
  | .next => True
  | _ => False

/-- The calls under way will still look into the queue, or the core ends at `Dpc` or above.  The
level is the one at which the innermost call goes on. -/
def Drains : RunLevel → List (Frame Store) → Prop
  | l, [] => .dpc ≤ l
  | _, .handler prevRl :: rest => prevRl < .dpc ∨ Drains prevRl rest
  | _, .dpc _ :: rest => Drains .dpc rest
  | l, .lower newLevel .test :: rest => newLevel < .dpc ∧ .dpc ≤ l ∨ Drains newLevel rest
  | _, .lower _ .draining :: _ => True
  | l, .lower newLevel .decrement :: rest => newLevel < .dpc ∧ .dpc < l ∨ Drains newLevel rest
  | l, .queue (.push _) :: rest => l < .dpc ∨ Drains l rest
  | l, .queue .check :: rest => l < .dpc ∨ Drains l rest
  | _, .queue (.raise _) :: _ => True

/-- What is queued is queued while some call will still look into the queue. -/
def QueuedInTime : CoreOp Store → Prop
  | .queueDpc _ inUse =>
    (floor s.frames).isSome → inUse = false → s.runLevel < .dpc ∨ Drains s.runLevel s.frames
  | _ => True

end

/-! ### The stack of calls -/

/-- The calls fit on top of each other, where the innermost one goes on at the level. -/
def Stacked : RunLevel → List (Frame Store) → Prop
  | _, [] => True
  | l, .handler prevRl :: rest => l = .interrupt ∧ prevRl < .interrupt ∧ Stacked prevRl rest
  | l, .dpc _ :: rest => .dpc ≤ l ∧ (∃ n rest', rest = .lower n .draining :: rest') ∧
      Stacked .dpc rest
  | l, .lower newLevel .test :: rest => newLevel ≤ l ∧ Stacked newLevel rest
  | l, .lower newLevel .draining :: rest => l = .dpc ∧ newLevel < .dpc ∧ Stacked newLevel rest
  | l, .lower newLevel .decrement :: rest => newLevel < l ∧ Stacked newLevel rest
  | l, .queue (.push dpc) :: rest => Drains l (.queue (.push dpc) :: rest) ∧ Stacked l rest
  | l, .queue .check :: rest => Stacked l rest
  | l, .queue (.raise currLevel) :: rest => l = currLevel ∧ l < .dpc ∧ Stacked l rest

/-- **The invariant**: what is queued will be called. -/
structure Inv (s : DpcCore Store) : Prop where
  stacked : Stacked s.runLevel s.frames
  drains : s.dpcs ≠ [] → Drains s.runLevel s.frames

lemma inv_init (level : RunLevel) : Inv (init level : DpcCore Store) :=
  ⟨trivial, fun h => absurd rfl h⟩

/-! ### What a step keeps -/

variable {n l : RunLevel} {rest : List (Frame Store)} {s s' : DpcCore Store} {pc : QueuePc Store}
  {op : CoreOp Store}

/-- The steps that the calls still make. -/
def remaining : RunLevel → List (Frame Store) → ℕ
  | _, [] => 0
  | _, .handler prevRl :: rest => 2 * (4 - prevRl.toNat) + 2 + remaining prevRl rest
  | _, .dpc _ :: _ => 0
  | l, .lower n .test :: rest => 2 * (l.toNat - n.toNat) + 1 + remaining n rest
  | _, .lower _ .draining :: _ => 0
  | l, .lower n .decrement :: rest => 2 * (l.toNat - n.toNat) + remaining n rest
  | l, .queue (.push _) :: rest => 2 + remaining l rest
  | l, .queue .check :: rest => 1 + remaining l rest
  | _, .queue (.raise _) :: _ => 0

/-- **What a step of the calls under way does**: they still fit, what is queued will be called as
before, and if it will not be called, they come nearer to their end. -/
structure Kept (s s' : DpcCore Store) : Prop where
  stacked : Stacked s'.runLevel s'.frames
  drains : (s.dpcs ≠ [] → Drains s.runLevel s.frames) → s'.dpcs ≠ [] →
    Drains s'.runLevel s'.frames
  late : ¬ Drains s.runLevel s.frames → s'.dpcs = s.dpcs ∧ ¬ Drains s'.runLevel s'.frames ∧
    remaining s'.runLevel s'.frames < remaining s.runLevel s.frames

lemma kept_of_iff (hstacked : Stacked s'.runLevel s'.frames) (hdpcs : s'.dpcs = s.dpcs)
    (hiff : Drains s'.runLevel s'.frames ↔ Drains s.runLevel s.frames)
    (hlt : ¬ Drains s.runLevel s.frames →
      remaining s'.runLevel s'.frames < remaining s.runLevel s.frames) : Kept s s' where
  stacked := hstacked
  drains h hne := hiff.mpr (h (hdpcs ▸ hne))
  late hnot := ⟨hdpcs, fun h => hnot (hiff.mp h), hlt hnot⟩

lemma kept_of_drains (hstacked : Stacked s'.runLevel s'.frames)
    (hdrains : Drains s.runLevel s.frames)
    (hnew : s'.dpcs ≠ [] → Drains s'.runLevel s'.frames) : Kept s s' :=
  ⟨hstacked, fun _ => hnew, fun hnot => absurd hdrains hnot⟩

/-- A step of `LowerRunLevel`. -/
lemma kept_nextLower {pc : LowerPc} (h : Stacked s.runLevel s.frames)
    (hf : s.frames = .lower n pc :: rest) : Kept s (s.nextLower n rest pc) := by
  rw [hf] at h
  cases pc with
  | test =>
    obtain ⟨hle, hrest⟩ := h
    rw [nextLower]
    by_cases hlt : n < s.runLevel
    · rw [if_pos hlt]
      by_cases hdpc : s.runLevel = .dpc
      · rw [if_pos hdpc]
        refine kept_of_drains ⟨hdpc, hdpc ▸ hlt, hrest⟩ ?_ fun _ => trivial
        rw [hf]
        exact .inl ⟨hdpc ▸ hlt, hdpc.ge⟩
      · rw [if_neg hdpc]
        refine kept_of_iff ⟨hlt, hrest⟩ rfl ?_ fun _ => ?_ <;> rw [hf]
        · exact or_congr_left (and_congr_right fun _ => (lt_iff_le_and_ne.trans
            (and_iff_left (Ne.symm hdpc))))
        · simp only [remaining]
          omega
    · -- the level is reached, and the call below goes on at it
      obtain rfl : s.runLevel = n := le_antisymm (not_lt.mp hlt) hle
      rw [if_neg hlt]
      refine kept_of_iff hrest rfl ?_ fun _ => ?_ <;> rw [hf]
      · exact (or_iff_right fun hand => not_le.mpr hand.1 hand.2).symm
      · simp only [remaining]
        omega
  | draining =>
    obtain ⟨hlevel, hlt, hrest⟩ := h
    refine kept_of_drains ?_ (by rw [hf]; exact trivial) ?_ <;> rw [nextLower] <;>
      cases hd : s.dpcs with
    | nil => first | exact ⟨hlevel ▸ hlt, hrest⟩ | exact fun hne => absurd rfl hne
    | cons dpc dpcs =>
      first | exact ⟨hlevel ▸ le_rfl, ⟨n, rest, rfl⟩, rfl, hlt, hrest⟩ | exact fun _ => trivial
  | decrement =>
    obtain ⟨hlt, hrest⟩ := h
    have hpred := RunLevel.toNat_pred hlt
    refine kept_of_iff ⟨(RunLevel.le_pred_iff hlt n).mpr hlt, hrest⟩ rfl ?_ fun _ => ?_ <;> rw [hf]
    · exact or_congr_left (and_congr_right fun _ => RunLevel.le_pred_iff hlt _)
    · have hlt := RunLevel.lt_iff.mp hlt
      simp only [nextLower, remaining]
      omega

/-- A step of `QueueDpc`. -/
lemma kept_nextQueue (h : Stacked s.runLevel s.frames) (hf : s.frames = .queue pc :: rest) :
    Kept s (s.nextQueue rest pc) := by
  rw [hf] at h
  cases pc with
  | push dpc =>
    exact kept_of_drains h.2 (by rw [hf]; exact h.1) fun _ => h.1
  | check =>
    rw [nextQueue]
    by_cases hle : .dpc ≤ s.runLevel
    · rw [if_pos hle]
      refine kept_of_iff h rfl ?_ fun _ => ?_ <;> rw [hf]
      · exact (or_iff_right (not_lt.mpr hle)).symm
      · simp only [remaining]
        omega
    · rw [if_neg hle]
      exact kept_of_drains ⟨rfl, not_le.mp hle, h⟩ (by rw [hf]; exact .inl (not_le.mp hle))
        fun _ => trivial
  | raise currLevel =>
    obtain ⟨rfl, hlt, hrest⟩ := h
    exact kept_of_drains ⟨hlt.le, hrest⟩ (by rw [hf]; exact trivial) fun _ => .inl ⟨hlt, le_rfl⟩

lemma kept_next (h : Stacked s.runLevel s.frames) (hnext : s.next = some s') : Kept s s' := by
  rw [next] at hnext
  rcases hf : s.frames with - | ⟨f, rest⟩ <;> rw [hf] at hnext
  · cases hnext
  cases f with
  | handler prevRl =>
    cases hnext
    rw [hf] at h
    obtain ⟨hlevel, hlt, hrest⟩ := h
    refine kept_of_iff ⟨hlevel ▸ hlt.le, hrest⟩ rfl ?_ fun _ => ?_ <;> rw [hf]
    · exact or_congr_left (and_iff_left (hlevel ▸ by decide))
    · rw [hlevel]
      simp only [remaining, RunLevel.toNat]
      omega
  | dpc dpc =>
    obtain ⟨hlevel, hnext⟩ := ite_none_right_eq_some.mp hnext
    cases hnext
    rw [hf] at h
    obtain ⟨-, ⟨n, rest', rfl⟩, hrest⟩ := h
    exact kept_of_drains (hlevel ▸ hrest) (by rw [hf]; exact trivial) fun _ => trivial
  | lower n pc =>
    cases hnext
    exact kept_nextLower h hf
  | queue pc =>
    cases hnext
    exact kept_nextQueue h hf

section

variable (hs : Inv s)

include hs

lemma Inv.next (h : s.next = some s') : Inv s' :=
  have hkept := kept_next hs.stacked h
  ⟨hkept.stacked, hkept.drains hs.drains⟩

/-- Code that may raise the level goes on at the higher one. -/
lemma Inv.raise (hfloor : (floor s.frames).isSome) (hlt : s.runLevel < l) :
    Inv { s with runLevel := l } := by
  obtain ⟨hstacked, hdrains⟩ := hs
  rcases hf : s.frames with - | ⟨f, rest⟩
  · refine ⟨trivial, fun hne => ?_⟩
    rw [hf] at hdrains
    exact (hdrains hne).trans hlt.le
  rw [hf] at hstacked hdrains hfloor
  cases f with
  | handler prevRl =>
    have hmax : l ≤ .interrupt := by cases l <;> decide
    exact absurd (hstacked.1 ▸ hlt) (not_lt.mpr hmax)
  | dpc dpc =>
    exact ⟨⟨hstacked.1.trans hlt.le, hstacked.2⟩, fun hne => hdrains hne⟩
  | lower n pc => exact absurd hfloor Bool.false_ne_true
  | queue pc => exact absurd hfloor Bool.false_ne_true

/-- Code that may lower the level calls `LowerRunLevel`, which drains what is queued if it goes
below `Dpc`. -/
lemma Inv.lower {m : RunLevel} (hfloor : m ∈ floor s.frames) (hm : m ≤ l)
    (hlt : l < s.runLevel) : Inv { s with frames := .lower l .test :: s.frames } := by
  obtain ⟨hstacked, hdrains⟩ := hs
  rcases hf : s.frames with - | ⟨f, rest⟩
  · refine ⟨⟨hlt.le, trivial⟩, fun hne => ?_⟩
    rw [hf] at hdrains
    rcases lt_or_ge l .dpc with hl | hl
    · exact .inl ⟨hl, hdrains hne⟩
    · exact .inr hl
  rw [hf] at hstacked hdrains hfloor
  cases f with
  | handler prevRl =>
    cases hfloor
    exact absurd (hstacked.1 ▸ hlt) (not_lt.mpr hm)
  | dpc dpc =>
    cases hfloor
    exact ⟨⟨hlt.le, hm, hstacked.2⟩, fun hne => .inr (hdrains hne)⟩
  | lower n pc => exact absurd hfloor (not_mem_none _)
  | queue pc => exact absurd hfloor (not_mem_none _)

/-- **The step lemma**: an operation that queues in time keeps the invariant. -/
lemma Inv.step (hop : QueuedInTime s op) (h : s.step op = some s') : Inv s' := by
  cases op with
  | interrupt =>
    obtain ⟨hlt, h⟩ := ite_none_right_eq_some.mp h
    cases h
    exact ⟨⟨rfl, hlt, hs.stacked⟩, fun hne => .inr (hs.drains hne)⟩
  | queueDpc dpc inUse =>
    obtain ⟨hfloor, h⟩ := ite_none_right_eq_some.mp h
    cases inUse with
    | true =>
      cases h
      exact hs
    | false =>
      cases h
      exact ⟨⟨hop hfloor rfl, hs.stacked⟩, fun _ => hop hfloor rfl⟩
  | raise l =>
    obtain ⟨⟨hfloor, hlt⟩, h⟩ := ite_none_right_eq_some.mp h
    cases h
    exact hs.raise hfloor hlt
  | lower l =>
    obtain ⟨⟨⟨m, hfloor, hm⟩, hlt⟩, h⟩ := ite_none_right_eq_some.mp h
    cases h
    exact hs.lower hfloor hm hlt
  | next => exact hs.next h

lemma Inv.noneStranded : NoneStranded s := by
  intro hf hlt
  by_contra hne
  have hdrains := hs.drains hne
  rw [hf] at hdrains
  exact absurd hdrains (not_le.mpr hlt)

lemma Inv.settled : Settled DpcCore.step Quiet NoneStranded s := by
  refine settled_of_invariant Inv (fun s hs => hs.noneStranded) (fun s op s' hs hq h => ?_) hs
  cases op with
  | next => exact hs.next h
  | _ => exact hq.elim

end

/-! ### A DPC that comes too late -/

/-- The calls fit, something is queued, and no call will look into the queue again. -/
structure Late (s : DpcCore Store) : Prop where
  stacked : Stacked s.runLevel s.frames
  not_drains : ¬ Drains s.runLevel s.frames
  queued : s.dpcs ≠ []

/-- The calls above a late DPC go on, and return one after the other. -/
lemma Late.next (hs : Late s) (hne : s.frames ≠ []) : ∃ s', s.next = some s' ∧
    Late s' ∧ remaining s'.runLevel s'.frames < remaining s.runLevel s.frames := by
  obtain ⟨s', hnext⟩ : ∃ s', s.next = some s' := by
    obtain ⟨f, rest, hf⟩ := exists_cons_of_ne_nil hne
    have hstacked := hs.stacked
    have hnot := hs.not_drains
    rw [hf] at hstacked hnot
    rw [DpcCore.next, hf]
    cases f with
    | dpc dpc =>
      obtain ⟨-, ⟨n, rest', rfl⟩, -⟩ := hstacked
      exact absurd trivial hnot
    | _ => exact ⟨_, rfl⟩
  have hkept := kept_next hs.stacked hnext
  obtain ⟨hdpcs, hnot, hlt⟩ := hkept.late hs.not_drains
  exact ⟨s', hnext, ⟨hkept.stacked, hnot, hdpcs ▸ hs.queued⟩, hlt⟩

/-- **A late DPC ends up stranded**: when all calls have returned, it is still queued. -/
lemma Late.not_settled (hs : Late s) : ¬ Settled step Quiet NoneStranded s := by
  -- the induction is on the steps that the calls still make
  obtain ⟨k, hk⟩ : ∃ k, k = remaining s.runLevel s.frames := ⟨_, rfl⟩
  induction k using Nat.strong_induction_on generalizing s with
  | _ k ih =>
    intro hsettled
    by_cases hne : s.frames = []
    · have hnot := hs.not_drains
      rw [hne] at hnot
      exact hs.queued (hsettled.now hne (not_le.mp hnot))
    · obtain ⟨s', h, hs', hlt⟩ := hs.next hne
      exact ih _ (hk ▸ hlt) hs' rfl (hsettled.next (o := .next) h trivial)

/-- Queueing a DPC too late strands it. -/
lemma not_settled_of_late (hs : Inv s) (hop : ¬ QueuedInTime s op) :
    ∃ s', s.step op = some s' ∧ ¬ Settled step Quiet NoneStranded s' := by
  cases op with
  | queueDpc dpc inUse =>
    obtain ⟨hfloor, hop⟩ := Classical.not_imp.mp hop
    obtain ⟨rfl, hlate⟩ := Classical.not_imp.mp hop
    refine ⟨{ s with frames := .queue (.push dpc) :: s.frames }, if_pos hfloor, fun hsettled => ?_⟩
    have hpushed : Late { s with
        dpcs := s.dpcs ++ [dpc], frames := .queue .check :: s.frames } :=
      ⟨hs.stacked, hlate, append_ne_nil_of_right_ne_nil _ (cons_ne_nil _ _)⟩
    exact hpushed.not_settled (hsettled.next (o := .next) rfl trivial)
  | _ => exact absurd trivial hop

/-- **DPCs are never stranded** along a run, however interrupts nest, exactly if each DPC is queued
while a call under way will still look into the queue: not by an interrupt that came after
`LowerRunLevel` had found the queue empty and before it left the level `Dpc`. -/
theorem noneStranded_iff (level : RunLevel) (ops : List (CoreOp Store)) :
    Always step (Settled step Quiet NoneStranded) (init level) ops ↔
      Allowed step QueuedInTime (init level) ops :=
  always_settled_iff_allowed Inv (fun _ hs => hs.settled)
    (fun _ _ hs hop => not_settled_of_late hs hop) (fun _ _ _ hs hop h => hs.step hop h)
    (inv_init level) ops

/-- An interrupt between the last `Pop` and the decrement: its DPC is queued when the core is back
at `Normal`. -/
theorem interrupt_strands_dpc : ∃ s : DpcCore ℕ,
    run step (init .dpc) ([.lower .normal, .next, .next, .interrupt, .queueDpc 7 false] ++
      replicate 12 .next) = some s ∧ ¬ NoneStranded s := by
  refine ⟨⟨.normal, [7], []⟩, rfl, fun h => ?_⟩
  exact cons_ne_nil _ _ (h rfl (by decide))

end DpcCore

end Northport.Tasking
