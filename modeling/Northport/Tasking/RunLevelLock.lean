/-
# The lock that raises the run level (`Locks.h`)

`RunLevelLock` raises the run level of the core that takes it and remembers the level to go back
to.  It remembers that level in the lock, before the core holds the lock.  The model is a
transition system whose steps are those of `Lock` and `Unlock`, for any number of cores in any
interleaving.
-/
import Northport.Lib.Run
import Northport.Tasking.RunLevels

namespace Northport.Tasking

open Lib Function List

/-- Where a core stands in `Lock` or `Unlock`. -/
inductive LockPc where
  | out
  /-- The level is raised and recorded, the core spins on the lock. -/
  | spinning
  | holding
  /-- `lock.Unlock()` is done. -/
  | released
  /-- The level is lowered again. -/
  | restored
deriving DecidableEq, Repr

/-- The lock and its cores. -/
structure LockState (Core : Type*) where
  level : Core → RunLevel
  prevLevel : Option RunLevel
  locked : Bool
  pc : Core → LockPc
  /-- The level of a core before its `Lock`. -/
  before : Core → RunLevel
  /-- The levels before `Lock` and after `Unlock`, for every `Unlock` that has returned. -/
  finished : List (RunLevel × RunLevel)

/-- One step of a core. -/
inductive LockEvent (Core : Type*) where
  /-- `prevLevel = RaiseRunLevel(CriticalLevel)` -/
  | raise (c : Core)
  /-- `lock.Lock()` -/
  | acquire (c : Core)
  /-- `lock.Unlock()` -/
  | release (c : Core)
  /-- `if (prevLevel.HasValue()) LowerRunLevel(*prevLevel)` -/
  | restore (c : Core)
  /-- `prevLevel = {}` -/
  | clear (c : Core)
  /-- The core changes its level while it has nothing to do with the lock. -/
  | setLevel (c : Core) (l : RunLevel)

namespace LockState

variable {Core : Type*} [DecidableEq Core] (criticalLevel : RunLevel)

/-- The lock that nobody has taken, with the cores at any levels. -/
def init (level : Core → RunLevel) : LockState Core where
  level := level
  prevLevel := none
  locked := false
  pc _ := .out
  before := level
  finished := []

section

variable (s : LockState Core)

def setPc (c : Core) (pc : LockPc) : LockState Core :=
  { s with pc := update s.pc c pc }

/-- `prevLevel = RaiseRunLevel(CriticalLevel)` -/
def raise (c : Core) : LockState Core :=
  { (s.setPc c .spinning) with
    level := update s.level c criticalLevel
    prevLevel := some (s.level c)
    before := update s.before c (s.level c) }

/-- The spin lock is taken. -/
def acquire (c : Core) : LockState Core :=
  { (s.setPc c .holding) with locked := true }

/-- The spin lock is given back. -/
def release (c : Core) : LockState Core :=
  { (s.setPc c .released) with locked := false }

/-- `LowerRunLevel` of the level in the lock, if there is one; its assertion may fire. -/
def restore (c : Core) : Option (LockState Core) :=
  match s.prevLevel with
  | none => some (s.setPc c .restored)
  | some l =>
    if l < s.level c then
      some { (s.setPc c .restored) with level := update s.level c l }
    else none

/-- The level in the lock is cleared and `Unlock` returns. -/
def clear (c : Core) : LockState Core :=
  { (s.setPc c .out) with
    prevLevel := none
    finished := (s.before c, s.level c) :: s.finished }

/-- One step; `none` when the core is not there, spins, or an assertion fires. -/
def step : LockEvent Core → Option (LockState Core)
  | .raise c =>
    if s.pc c = .out ∧ s.level c < criticalLevel then some (s.raise criticalLevel c) else none
  | .acquire c => if s.pc c = .spinning ∧ s.locked = false then some (s.acquire c) else none
  | .release c => if s.pc c = .holding then some (s.release c) else none
  | .restore c => if s.pc c = .released then s.restore c else none
  | .clear c => if s.pc c = .restored then some (s.clear c) else none
  | .setLevel c l =>
    if s.pc c = .out then some { s with level := update s.level c l } else none

/-- After every `Unlock` the core was at the level it had before its `Lock`. -/
def Restored : Prop := ∀ r ∈ s.finished, r.2 = r.1

/-- No core begins a `Lock`. -/
def Quiet : LockEvent Core → Prop
  | .raise _ => False
  | _ => True

/-- A core begins a `Lock` only when no core is between the beginning of its `Lock` and the end of
its `Unlock`. -/
def Uncontended : LockEvent Core → Prop
  | .raise c => s.pc c = .out → s.level c < criticalLevel → ∀ c', s.pc c' = .out
  | _ => True

end

variable {criticalLevel} {s s' : LockState Core} {c c' : Core} {pc : LockPc}

@[simp] lemma setPc_self {pc : LockPc} : (s.setPc c pc).pc c = pc := update_self ..

lemma setPc_of_ne (h : c' ≠ c) : (s.setPc c pc).pc c' = s.pc c' :=
  update_of_ne h ..

/-! ### One core at a time -/

/-- What holds when the cores take turns: only one of them is inside, and until it has lowered its
level the lock remembers the level it had. -/
structure Alone (criticalLevel : RunLevel) (s : LockState Core) : Prop where
  unique : ∀ c c', s.pc c ≠ .out → s.pc c' ≠ .out → c = c'
  raised : ∀ c, s.pc c = .spinning ∨ s.pc c = .holding ∨ s.pc c = .released →
    s.prevLevel = some (s.before c) ∧ s.level c = criticalLevel ∧ s.before c < criticalLevel
  lowered : ∀ c, s.pc c = .restored → s.level c = s.before c
  locked : s.locked = true → ∃ c, s.pc c = .holding
  restored : s.Restored

omit [DecidableEq Core] in
lemma alone_init (level : Core → RunLevel) : Alone criticalLevel (init level) where
  unique _ _ h _ := absurd rfl h
  raised c h := by simp [init] at h
  lowered c h := by simp [init] at h
  locked h := by simp [init] at h
  restored := nofun

omit [DecidableEq Core] in
lemma Alone.others (h : Alone criticalLevel s) (hc : s.pc c ≠ .out) (c' : Core) (hne : c' ≠ c) :
    s.pc c' = .out := by
  by_contra hc'
  exact hne (h.unique c' c hc' hc)

omit [DecidableEq Core] in
lemma Alone.pc_of_locked (h : Alone criticalLevel s) (hl : s.locked = true) (hc : s.pc c ≠ .out) :
    s.pc c = .holding := by
  obtain ⟨c', hc'⟩ := h.locked hl
  rwa [h.unique c c' hc (by simp [hc'])]

/-- A core moves while the others are outside. -/
lemma Alone.move (hout : ∀ c', c' ≠ c → s.pc c' = .out) (hpc : s'.pc = update s.pc c pc)
    (hraised : pc = .spinning ∨ pc = .holding ∨ pc = .released →
      s'.prevLevel = some (s'.before c) ∧ s'.level c = criticalLevel ∧ s'.before c < criticalLevel)
    (hlowered : pc = .restored → s'.level c = s'.before c)
    (hlocked : s'.locked = true → pc = .holding) (hres : s'.Restored) : Alone criticalLevel s' := by
  have hother : ∀ c', c' ≠ c → s'.pc c' = .out := by
    intro c' hne
    rw [hpc, update_of_ne hne, hout c' hne]
  have hself : s'.pc c = pc := by rw [hpc, update_self]
  refine ⟨fun c₁ c₂ h₁ h₂ => ?_, fun c' hc' => ?_, fun c' hc' => ?_, fun hl => ?_, hres⟩
  · rw [not_imp_comm.mp (hother c₁) h₁, not_imp_comm.mp (hother c₂) h₂]
  · by_cases e : c' = c
    · subst e
      exact hraised (hself ▸ hc')
    · simp [hother c' e] at hc'
  · by_cases e : c' = c
    · subst e
      exact hlowered (hself ▸ hc')
    · simp [hother c' e] at hc'
  · exact ⟨c, hself.trans (hlocked hl)⟩

/-- A step of the core that is inside. -/
lemma Alone.step (h : Alone criticalLevel s) {e : LockEvent Core}
    (hs : s.step criticalLevel e = some s') (hq : Quiet e) : Alone criticalLevel s' := by
  cases e with
  | raise c => exact hq.elim
  | acquire c =>
    rw [LockState.step] at hs
    split_ifs at hs with hpc
    cases hs
    refine move (h.others (c := c) (by simp [hpc.1])) rfl (fun _ => h.raised c (.inl hpc.1)) (by simp)
      (fun _ => rfl) h.restored
  | release c =>
    rw [LockState.step] at hs
    split_ifs at hs with hpc
    cases hs
    refine move (h.others (c := c) (by simp [hpc])) rfl (fun _ => h.raised c (.inr (.inl hpc)))
      (by simp) (by simp [release]) h.restored
  | restore c =>
    rw [LockState.step] at hs
    split_ifs at hs with hpc
    obtain ⟨hprev, hlevel, hlt⟩ := h.raised c (.inr (.inr hpc))
    rw [restore, hprev] at hs
    simp only [hlevel, hlt, if_true, Option.some.injEq] at hs
    subst hs
    refine move (h.others (c := c) (by simp [hpc])) rfl (by simp) (fun _ => ?_) (fun hl => ?_)
      h.restored
    · show update s.level c (s.before c) c = s.before c
      rw [update_self]
    · have hold := h.pc_of_locked (c := c) hl (by simp [hpc])
      simp [hpc] at hold
  | clear c =>
    rw [LockState.step] at hs
    split_ifs at hs with hpc
    cases hs
    refine move (h.others (c := c) (by simp [hpc])) rfl (by simp) (by simp) (fun hl => ?_) ?_
    · have hold := h.pc_of_locked (c := c) hl (by simp [hpc])
      simp [hpc] at hold
    · intro r hr
      rcases mem_cons.mp hr with rfl | hr
      · exact h.lowered c hpc
      · exact h.restored r hr
  | setLevel c l =>
    rw [LockState.step] at hs
    split_ifs at hs with hpc
    cases hs
    have hlevel : ∀ c', s.pc c' ≠ .out → update s.level c l c' = s.level c' := by
      intro c' hc'
      have hne : c' ≠ c := fun e => hc' (by rw [e, hpc])
      rw [update_of_ne hne]
    refine ⟨h.unique, fun c' hc' => ?_, fun c' hc' => ?_, h.locked, h.restored⟩
    · obtain ⟨hprev, hl, hlt⟩ := h.raised c' hc'
      refine ⟨hprev, (hlevel c' ?_).trans hl, hlt⟩
      rcases hc' with hc' | hc' | hc' <;> simp [show s.pc c' = _ from hc']
    · exact (hlevel c' (by simp [show s.pc c' = _ from hc'])).trans (h.lowered c' hc')

/-- The beginning of a `Lock` when nobody is inside. -/
lemma Alone.raise (h : Alone criticalLevel s) (hout : ∀ c', s.pc c' = .out)
    (hs : s.step criticalLevel (.raise c) = some s') : Alone criticalLevel s' := by
  rw [LockState.step] at hs
  split_ifs at hs with hc
  cases hs
  refine move (fun c' _ => hout c') rfl (fun _ => by simp [raise, hc.2]) nofun (fun hl => ?_) h.restored
  obtain ⟨c', hc'⟩ := h.locked hl
  rw [hout c'] at hc'
  simp at hc'

/-! ### Two cores at once -/

/-- The core has raised its level and waits for the lock. -/
structure Waits (criticalLevel : RunLevel) (s : LockState Core) (c : Core) : Prop where
  pc : s.pc c = .spinning
  level : s.level c = criticalLevel
  before : s.before c < criticalLevel

variable (criticalLevel) in
/-- The property holds, and stays true when the calls under way return. -/
abbrev SettledLevels (s : LockState Core) : Prop :=
  Settled (step criticalLevel) Quiet Restored s

lemma not_settled_of_step (e : LockEvent Core) (hq : Quiet e)
    (hs : s.step criticalLevel e = some s') (h : ¬ SettledLevels criticalLevel s') :
    ¬ SettledLevels criticalLevel s :=
  fun hset => h (hset.next hs hq)

/-- A core whose level nobody remembers any more keeps the critical level. -/
lemma not_settled_of_forgotten (hw : Waits criticalLevel s c) (hfree : s.locked = false)
    (hprev : s.prevLevel = none) : ¬ SettledLevels criticalLevel s := by
  have hrestore : ((s.acquire c).release c).restore c =
      some (((s.acquire c).release c).setPc c .restored) := by
    rw [restore]
    simp [acquire, release, setPc, hprev]
  refine not_settled_of_step (.acquire c) trivial (if_pos ⟨hw.pc, hfree⟩) ?_
  refine not_settled_of_step (.release c) trivial (if_pos setPc_self) ?_
  refine not_settled_of_step (.restore c) trivial ((if_pos setPc_self).trans hrestore) ?_
  refine not_settled_of_step (.clear c) trivial (if_pos setPc_self) ?_
  intro h
  have hr := h.now (s.before c, s.level c) mem_cons_self
  rw [hw.level] at hr
  exact hw.before.ne' hr

section Overlap

variable (hne : c ≠ c') (hw : Waits criticalLevel s c) {l : RunLevel}
include hne hw

/-- The other core is about to clear the level in the lock. -/
lemma not_settled_of_restored (hpc : s.pc c' = .restored) (hfree : s.locked = false) :
    ¬ SettledLevels criticalLevel s := by
  refine not_settled_of_step (.clear c') trivial (if_pos hpc) ?_
  exact not_settled_of_forgotten ⟨(setPc_of_ne hne).trans hw.pc, hw.level, hw.before⟩ hfree rfl

lemma not_settled_of_released (hpc : s.pc c' = .released) (hfree : s.locked = false)
    (hprev : s.prevLevel = some l) (hl : l < s.level c') : ¬ SettledLevels criticalLevel s := by
  have hrestore : s.restore c' =
      some { (s.setPc c' .restored) with level := update s.level c' l } := by
    rw [restore, hprev]
    exact if_pos hl
  refine not_settled_of_step (.restore c') trivial ((if_pos hpc).trans hrestore) ?_
  refine not_settled_of_restored hne ⟨(setPc_of_ne hne).trans hw.pc, ?_, hw.before⟩ setPc_self hfree
  show update s.level c' l c = criticalLevel
  rw [update_of_ne hne, hw.level]

lemma not_settled_of_holding (hpc : s.pc c' = .holding) (hprev : s.prevLevel = some l)
    (hl : l < s.level c') : ¬ SettledLevels criticalLevel s := by
  refine not_settled_of_step (.release c') trivial (if_pos hpc) ?_
  exact not_settled_of_released hne ⟨(setPc_of_ne hne).trans hw.pc, hw.level, hw.before⟩ setPc_self
    rfl hprev hl

lemma not_settled_of_spinning (hpc : s.pc c' = .spinning) (hfree : s.locked = false)
    (hprev : s.prevLevel = some l) (hl : l < s.level c') : ¬ SettledLevels criticalLevel s := by
  refine not_settled_of_step (.acquire c') trivial (if_pos ⟨hpc, hfree⟩) ?_
  exact not_settled_of_holding hne ⟨(setPc_of_ne hne).trans hw.pc, hw.level, hw.before⟩ setPc_self
    hprev hl

end Overlap

/-- A `Lock` that begins while another core is inside can end badly. -/
lemma Alone.not_settled_raise (h : Alone criticalLevel s) (hpc : s.pc c = .out)
    (hlevel : s.level c < criticalLevel) (hc' : s.pc c' ≠ .out) :
    ¬ SettledLevels criticalLevel (s.raise criticalLevel c) := by
  have hne : c ≠ c' := fun e => hc' (e ▸ hpc)
  have hw : Waits criticalLevel (s.raise criticalLevel c) c :=
    ⟨setPc_self, update_self .., by simpa [LockState.raise] using hlevel⟩
  have hsame : (s.raise criticalLevel c).pc c' = s.pc c' := setPc_of_ne hne.symm
  have hl : s.level c' = criticalLevel → s.level c < (s.raise criticalLevel c).level c' := by
    intro e
    show s.level c < update s.level c criticalLevel c'
    rw [update_of_ne hne.symm, e]
    exact hlevel
  have hfree : s.pc c' ≠ .holding → s.locked = false := by
    intro hnot
    by_contra hlocked
    obtain ⟨c₁, hc₁⟩ := h.locked (by simpa using hlocked)
    have e := h.unique c₁ c' (by simp [hc₁]) hc'
    exact hnot (e ▸ hc₁)
  cases hat : s.pc c' with
  | out => exact absurd hat hc'
  | spinning =>
    exact not_settled_of_spinning hne hw (hsame.trans hat) (hfree (by simp [hat])) rfl
      (hl (h.raised c' (.inl hat)).2.1)
  | holding =>
    exact not_settled_of_holding hne hw (hsame.trans hat) rfl
      (hl (h.raised c' (.inr (.inl hat))).2.1)
  | released =>
    exact not_settled_of_released hne hw (hsame.trans hat) (hfree (by simp [hat])) rfl
      (hl (h.raised c' (.inr (.inr hat))).2.1)
  | restored => exact not_settled_of_restored hne hw (hsame.trans hat) (hfree (by simp [hat]))

variable (criticalLevel) in
/-- **Every interleaving of any number of cores.**  The levels are restored after every `Unlock`,
also of those that are still to come, exactly if no core ever begins a `Lock` while another core is
between the beginning of its `Lock` and the end of its `Unlock`. -/
theorem levels_restored_iff (level : Core → RunLevel) (es : List (LockEvent Core)) :
    Always (step criticalLevel) (SettledLevels criticalLevel) (init level) es ↔
      Allowed (step criticalLevel) (Uncontended criticalLevel) (init level) es := by
  refine always_settled_iff_allowed (Alone criticalLevel) ?_ ?_ ?_ (alone_init level) es
  · intro s h
    exact settled_of_invariant (Alone criticalLevel) (fun _ h => h.restored)
      (fun _ _ _ h hq hs => h.step hs hq) h
  · intro s e h hnot
    cases e with
    | raise c =>
      rw [Uncontended] at hnot
      push Not at hnot
      obtain ⟨hpc, hlevel, c', hc'⟩ := hnot
      exact ⟨_, if_pos ⟨hpc, hlevel⟩, h.not_settled_raise hpc hlevel hc'⟩
    | _ => exact absurd trivial hnot
  · intro s e s' h hok hs
    cases e with
    | raise c =>
      have hc : s.pc c = .out ∧ s.level c < criticalLevel := by
        by_contra hnot
        rw [step, if_neg hnot] at hs
        simp at hs
      exact h.raise (hok hc.1 hc.2) hs
    | _ => exact h.step hs trivial

/-- Core 0 at `Normal` takes the lock at level `Clock`, core 1 at `Dpc` begins to wait for it, and
core 0 ends at `Dpc`; core 1 is never lowered again. -/
theorem second_core_breaks : ∃ s, run (step .clock)
    (init fun c : Fin 2 => if c = 0 then .normal else .dpc)
    [.raise 0, .acquire 0, .raise 1, .release 0, .restore 0, .clear 0, .acquire 1, .release 1,
      .restore 1, .clear 1] = some s ∧
    s.finished = [(.dpc, .clock), (.normal, .dpc)] ∧ ¬ s.Restored := by
  refine ⟨_, rfl, rfl, fun h => ?_⟩
  exact absurd (h (.normal, .dpc) (mem_cons_of_mem _ mem_cons_self)) (by decide)

end LockState

end Northport.Tasking
