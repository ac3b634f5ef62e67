/-
# A user-space address space

The VMM of a user process manages the lower half of the address space, without one granule
at either end.  Its holes and ranges tile that part after every history of calls, up to the
spans that were dropped.
-/
import Northport.Memory.VmmSteps

namespace Northport.Memory

open Lib Northport.RBTree

/-- What the constructor reads of the platform: where the higher half direct map starts and
how large the pages of HAT mode 0 are.  The lower half has room for the two granules that
are left out. -/
structure Platform where
  hhdmBase : ℕ
  granularity : ℕ
  hhdmBase_lt : hhdmBase < wordSize
  granularity_pos : 0 < granularity
  room : 2 * granularity ≤ not64 hhdmBase

/-- x86_64 with four paging levels. -/
def Platform.x86 : Platform where
  hhdmBase := 0xFFFF800000000000
  granularity := 0x1000
  hhdmBase_lt := by decide
  granularity_pos := by decide
  room := by decide

/-- The calls of a VMM that change its address space.  What the drivers answer may differ
from call to call. -/
inductive VmmOp (σ : Type) where
  | alloc (drivers : VmDrivers σ) (length initArg : ℕ) (flags : VmFlags) (limits : VmAllocLimits)
  | free (drivers : VmDrivers σ) (base : ℕ)
  | setFlags (drivers : VmDrivers σ) (base : ℕ) (flags : VmFlags)
  | split (drivers : VmDrivers σ) (base offset : ℕ)

namespace Vmm

variable {P σ : Type} [DecidableEq P] (m : MetaAlloc P)

/-- `VirtualMemoryManager()`. -/
def user (platform : Platform) (env : VmEnv σ) (rangeMem : P → VmRange) (holeMem : P → VmHole) :
    Option (Vmm P σ) :=
  commonInit m platform.granularity (sub64 (not64 platform.hhdmBase) platform.granularity) env
    rangeMem holeMem

/-- One call. -/
def step (v : Vmm P σ) : VmmOp σ → Option (Vmm P σ)
  | .alloc drivers length initArg flags limits =>
      (v.alloc m drivers length initArg flags limits).map Prod.fst
  | .free drivers base => (v.free m drivers base).map Prod.fst
  | .setFlags drivers base flags => (v.setFlags drivers base flags).map Prod.fst
  | .split drivers base offset => (v.split m drivers base offset).map Prod.fst

variable {m} {v : Vmm P σ} {image : List Span}

/-- A fresh address space is one hole. -/
lemma commonInit_spec {lower upper : ℕ} (env : VmEnv σ) (rangeMem : P → VmRange)
    (holeMem : P → VmHole) (hpos : 0 < lower) (hle : lower ≤ upper) (hlt : upper < wordSize) :
    ∃ v, commonInit m lower upper env rangeMem holeMem = some v ∧ Wf [] v [] ∧
      v.globalLowerBound = lower ∧ v.globalUpperBound = upper ∧ v.dropped = [] ∧
      v.holeSpans = [⟨lower, upper - lower⟩] ∧ v.rangeSpans = [] := by
  obtain ⟨v0, hv0⟩ : ∃ v0 : Vmm P σ, v0 =
    { ranges := .empty rangeMem, holes := .empty holeMem, rangeMeta := [], holeMeta := [],
      globalLowerBound := lower, globalUpperBound := upper, env := env, dropped := [] } := ⟨_, rfl⟩
  have hlen : sub64 upper lower = upper - lower := sub64_eq hlt hle
  have hempty : v0.holeSpans = [] ∧ v0.rangeSpans = [] := by
    rw [hv0]
    exact ⟨rfl, rfl⟩
  have hwf : Wf [] v0 [⟨lower, upper - lower⟩] := by
    rw [hv0]
    refine ⟨LiveTree.inv_empty _, LiveTree.inv_empty _, ?_, ?_, ?_, hpos, hlt, ?_, ?_⟩
    · exact nofun
    · exact nofun
    · exact nofun
    · intro s hs
      obtain rfl : s = ⟨lower, upper - lower⟩ := by
        simpa [holeSpans, rangeSpans, LiveTree.empty] using hs
      exact ⟨le_refl _, by simp only; omega⟩
    · exact tilesOver_nil.mpr (tiles_singleton lower upper)
  obtain ⟨v, h1, hwf', hsame, hspans⟩ := insertHole_spec (m := m) (upper - lower) hwf
  refine ⟨v, ?_, hwf', ?_, ?_, ?_, ?_, ?_⟩
  · rw [commonInit, hlen, ← hv0]
    exact h1
  · rw [hsame.lower, hv0]
  · rw [hsame.upper, hv0]
  · rw [hsame.dropped, hv0]
  · rw [hspans, hempty.1]
  · rw [rangeSpans_eq, hsame.rangeList, ← rangeSpans_eq, hempty.2]

/-- One call ends and keeps the invariant and the bounds. -/
lemma step_spec (o : VmmOp σ) (h : Wf image v []) :
    ∃ v', v.step m o = some v' ∧ Wf image v' [] ∧ SameBounds v v' := by
  cases o with
  | alloc drivers length initArg flags limits =>
    obtain ⟨v', r, hrun, hwf, hbounds, -⟩ := alloc_spec (m := m) drivers length initArg flags limits h
    exact ⟨v', by rw [step, hrun]; rfl, hwf, hbounds⟩
  | free drivers base =>
    obtain ⟨v', r, hrun, hwf, hbounds, -⟩ := free_spec (m := m) drivers base h
    exact ⟨v', by rw [step, hrun]; rfl, hwf, hbounds⟩
  | setFlags drivers base flags =>
    obtain ⟨v', r, hrun, hwf, hbounds, -⟩ := setFlags_spec drivers base flags h
    exact ⟨v', by rw [step, hrun]; rfl, hwf, hbounds⟩
  | split drivers base offset =>
    obtain ⟨v', r, hrun, hwf, hbounds, -⟩ := split_spec (m := m) drivers base offset h
    exact ⟨v', by rw [step, hrun]; rfl, hwf, hbounds⟩

/-- Every history of calls keeps the invariant and the bounds. -/
lemma run_spec (ops : List (VmmOp σ)) (h : Wf image v []) :
    ∃ v', run (step m) v ops = some v' ∧ Wf image v' [] ∧ SameBounds v v' := by
  refine run_invariant (fun v' => Wf image v' [] ∧ SameBounds v v') ?_ ⟨h, rfl, rfl⟩
    (allowed_of_forall (fun _ _ => trivial) v ops)
  rintro v1 o ⟨hwf, hbounds⟩ -
  obtain ⟨v2, h2, hwf2, hbounds2⟩ := step_spec (m := m) o hwf
  exact ⟨v2, h2, hwf2, hbounds2.1.trans hbounds.1, hbounds2.2.trans hbounds.2⟩

lemma user_spec (platform : Platform) (env : VmEnv σ) (rangeMem : P → VmRange)
    (holeMem : P → VmHole) :
    ∃ v, user m platform env rangeMem holeMem = some v ∧ Wf [] v [] ∧
      v.globalLowerBound = platform.granularity ∧
      v.globalUpperBound = not64 platform.hhdmBase - platform.granularity ∧
      v.holeSpans.length = 1 := by
  have hroom := platform.room
  have hnot : not64 platform.hhdmBase < wordSize := by
    have hpos := wordSize_pos
    rw [not64_eq platform.hhdmBase_lt]
    omega
  have hupper : sub64 (not64 platform.hhdmBase) platform.granularity
      = not64 platform.hhdmBase - platform.granularity := sub64_eq hnot (by omega)
  obtain ⟨v, h1, hwf, hlo, hhi, -, hspans, -⟩ := commonInit_spec (m := m) env rangeMem holeMem
    platform.granularity_pos (show platform.granularity ≤ not64 platform.hhdmBase -
      platform.granularity by omega) (by omega)
  exact ⟨v, by rw [user, hupper]; exact h1, hwf, hlo, hhi, by rw [hspans]; rfl⟩

/-- **The address space of a user process after any history of calls.**  The holes and
ranges are pairwise disjoint, lie between the bounds, and cover exactly what lies between
them, together with the spans that were dropped when a driver failed to detach. -/
theorem user_address_space (m : MetaAlloc P) (platform : Platform) (env : VmEnv σ)
    (rangeMem : P → VmRange) (holeMem : P → VmHole) (ops : List (VmmOp σ)) :
    ∃ v, ((user m platform env rangeMem holeMem).bind fun v => run (step m) v ops) = some v ∧
      v.globalLowerBound = platform.granularity ∧
      v.globalUpperBound = not64 platform.hhdmBase - platform.granularity ∧
      v.holes.Exact ∧ v.ranges.Exact ∧
      (v.holeSpans ++ v.rangeSpans).Pairwise Span.Disjoint ∧
      (∀ s ∈ v.holeSpans ++ v.rangeSpans, s.Inside v.globalLowerBound v.globalUpperBound) ∧
      ∀ a, (∃ s ∈ v.holeSpans ++ v.rangeSpans ++ v.dropped, s.Contains a) ↔
        v.globalLowerBound ≤ a ∧ a < v.globalUpperBound := by
  obtain ⟨v0, h0, hwf0, hlo, hhi, -⟩ := user_spec (m := m) platform env rangeMem holeMem
  obtain ⟨v, hrun, hwf, hbounds⟩ := run_spec (m := m) ops hwf0
  refine ⟨v, by rw [h0]; exact hrun, hbounds.1.trans hlo, hbounds.2.trans hhi, hwf.holes.exact,
    hwf.ranges.exact, ?_, hwf.inside, (tilesOver_nil.mp hwf.tiles).mem_iff⟩
  refine pairwise_disjoint_of_cover fun a => ?_
  have hone := cover_le_one (tilesOver_nil.mp hwf.tiles) a
  simp only [List.nil_append, cover_append] at hone ⊢
  omega

end Vmm

end Northport.Memory
