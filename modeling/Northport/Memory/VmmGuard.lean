/-
# Guard pages

The manual places the memory of a guarded range between two guard pages: the first and the last
granule of the range are never mapped, and `Alloc` returns the address behind the first one.  `Query`
makes the range two granules longer.  No `Attach` leaves room in front: the offset that it returns is
less than a granule, and it maps the range from its first granule on.
-/
import Northport.Memory.VmmFault
import Northport.Memory.VmmWindow

namespace Northport.Memory

open Lib Northport.RBTree

namespace VmMachine

variable {σ : Type} (M : VmMachine σ)

lemma misalignment_lt_granule (initArg : ℕ) (flags : VmFlags) :
    M.misalignment initArg flags < M.granularity (M.hatMode flags) := by
  unfold misalignment hatMode
  split_ifs
  · exact M.granularity_pos 0
  · exact Nat.mod_lt _ (M.granularity_pos _)
  · exact Nat.mod_lt _ (M.granularity_pos 0)

end VmMachine

namespace Vmm

variable {P σ : Type} [DecidableEq P]

/-- A fault at an address. -/
def faultStep (handlers : FaultHandlers σ) (v : Vmm P σ) (fault : ℕ × VmFaultFlags) :
    Option (Vmm P σ) :=
  (v.handleFault handlers fault.1 fault.2).map Prod.fst

/-- The address is in the first or in the last granule of the range. -/
def InGuard (range : Span) (granule a : ℕ) : Prop :=
  range.Contains a ∧ (a < range.base + granule ∨ range.base + range.length ≤ a + granule)

/-- **The layout of the manual**: the first and the last granule are not mapped, after any number of
faults, and the memory that the caller gets is between them. -/
structure GuardedLayout (mapped : σ → ℕ → Prop) (handlers : FaultHandlers σ) (granule : ℕ)
    (range window : Span) (v : Vmm P σ) : Prop where
  unmapped : ∀ a, InGuard range granule a → ¬ mapped v.env.map a
  faults : ∀ faults v', run (faultStep handlers) v faults = some v' →
    ∀ a, InGuard range granule a → ¬ mapped v'.env.map a
  window : range.base + granule ≤ window.base ∧
    window.base + window.length + granule ≤ range.base + range.length

variable {m : MetaAlloc P} {v v0 v' : Vmm P σ}

/-- **No guarded range has the layout of the manual.**  Whatever the history of the VMM, the driver,
the length and the argument: the address that `Alloc` returns is in front of the end of the first
granule. -/
theorem alloc_not_guardedLayout (M : VmMachine σ) (rest : VmDrivers σ) (mapped : σ → ℕ → Prop)
    (handlers : FaultHandlers σ) {ops : List (VmmOp σ)} {length initArg r : ℕ} {flags : VmFlags}
    {limits : VmAllocLimits} (hbuilt : Built m v0) (hrun : run (step m) v0 ops = some v)
    (hguarded : flags.has .guarded = true)
    (halloc : v.alloc m (M.drivers rest) length initArg flags limits = some (v', some r)) :
    ∃ range : Span, v'.rangeSpans = range :: v.rangeSpans ∧
      range.length =
        add64 (alignUp length (M.granularity (M.hatMode flags)))
          (mul64 2 (M.granularity (M.hatMode flags))) ∧
      r < range.base + M.granularity (M.hatMode flags) ∧
      ¬ v'.GuardedLayout mapped handlers (M.granularity (M.hatMode flags)) range ⟨r, length⟩ := by
  obtain ⟨b, hspans, hr, hb⟩ := alloc_place hbuilt hrun halloc
  have hoffset := M.misalignment_lt_granule initArg flags
  have hlow : r < b + M.granularity (M.hatMode flags) := by
    rw [hr]
    exact (Nat.mod_le _ _).trans_lt (by omega)
  refine ⟨_, hspans, ?_, hlow, fun h => ?_⟩
  · show (M.queryMode (M.hatMode flags) length flags).length = _
    rw [VmMachine.queryMode, hguarded, if_pos rfl]
  · have hwindow := h.window.1
    simp only at hwindow
    omega

/-- Guarded device registers behind an earlier mapping. -/
theorem alloc_not_guardedLayout_mmio : ∃ v0 v v', bootKernel = some v0 ∧
    run (step .counting) v0 [.alloc (flatMachine.drivers pageDrivers) 0x1000 0xFEC00000
      (1#64 <<< 25) {}] = some v ∧
    v.alloc .counting (flatMachine.drivers pageDrivers) 0x1000 0xFEE00000 (1#64 <<< 25 ||| 8#64) {}
      = some (v', some 0xFFFF800100001000) ∧
    ∃ range : Span, v'.rangeSpans = range :: v.rangeSpans ∧ range.length = 0x3000 ∧
      0xFFFF800100001000 < range.base + 0x1000 ∧
      ¬ v'.GuardedLayout (fun _ _ => False) (fun _ => none) 0x1000 range
        ⟨0xFFFF800100001000, 0x1000⟩ := by
  obtain ⟨v0, v, v', h0, hrun, halloc⟩ : ∃ v0 v v', bootKernel = some v0 ∧
      run (step .counting) v0 [.alloc (flatMachine.drivers pageDrivers) 0x1000 0xFEC00000
        (1#64 <<< 25) {}] = some v ∧
      v.alloc .counting (flatMachine.drivers pageDrivers) 0x1000 0xFEE00000
        (1#64 <<< 25 ||| 8#64) {} = some (v', some 0xFFFF800100001000) := ⟨_, _, _, rfl, rfl, rfl⟩
  obtain ⟨range, hspans, hlength, hlow, hnot⟩ := alloc_not_guardedLayout flatMachine pageDrivers
    (fun _ _ => False) (fun _ => none) (.kernel x86Layout ⟨by decide, by decide⟩ _ _ _ _ h0) hrun
    (by decide) halloc
  exact ⟨v0, v, v', h0, hrun, halloc, range, hspans, hlength.trans (by decide +kernel), hlow, hnot⟩

/-- The machine that keeps a list of the addresses that are mapped. -/
def listMachine : VmMachine (List ℕ) where
  granularity _ := 0x1000
  granularity_pos := flatMachine.granularity_pos
  granularity_lt := flatMachine.granularity_lt
  hatDoMap map vaddr _ _ _ := vaddr :: map
  pmmAlloc map := (0, map)
  coresReady _ := true
  anonFaultHandler := true
  anonZeroPage := false
  zeroPage := 0
  vfsFaultHandler := true
  fileArg offset := { id := ⟨1, 1⟩, offset := offset }
  vfsLookup _ _ := none
  vfsGetAttribs _ _ := some .file
  getVfsNode _ _ := some .file
  fileCacheHatMode := 0
  fileCacheUnitSize := 0x1000
  getFileCacheUnit map _ _ := (none, map)
  newLink map _ := (0, map)

/-- **A guarded page of device registers.**  Three pages are mapped, the first one and the last one
with them, and the caller gets the address of the first one. -/
theorem guarded_range_mapped : ∃ v0 v' : Vmm ℕ (List ℕ),
    kernel .counting x86Layout ⟨1, 2, 3, by decide⟩ ⟨⟨0, 0, 0, 0, 0, 0, 0, 0, 0⟩, []⟩
      (fun _ => ⟨0, 0, 0, 0, 0, 0⟩) (fun _ => ⟨0, 0, 0⟩) = some v0 ∧
    v0.alloc .counting (listMachine.drivers pageDrivers) 0x1000 0xFEE00000 (1#64 <<< 25 ||| 8#64) {}
      = some (v', some 0xFFFF800100000000) ∧
    v'.rangeSpans = ⟨0xFFFF800100000000, 0x3000⟩ :: v0.rangeSpans ∧
    v'.env.map = [0xFFFF800100002000, 0xFFFF800100001000, 0xFFFF800100000000] ∧
    ¬ v'.GuardedLayout (fun map a => alignDown a 0x1000 ∈ map) (fun _ => none) 0x1000
      ⟨0xFFFF800100000000, 0x3000⟩ ⟨0xFFFF800100000000, 0x1000⟩ := by
  refine ⟨_, _, rfl, rfl, rfl, rfl, fun h => ?_⟩
  exact h.unmapped 0xFFFF800100000000 ⟨⟨by decide, by decide⟩, Or.inl (by decide)⟩
    (show _ ∈ [0xFFFF800100002000, 0xFFFF800100001000, 0xFFFF800100000000] by decide)

end Vmm

end Northport.Memory
