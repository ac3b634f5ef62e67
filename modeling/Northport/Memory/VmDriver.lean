/-
# The interface of the VM drivers (`VmDriver.h`)

The VMM decides where a range of virtual memory lies; a driver decides what backs it.  A
driver is the record of its callbacks.  What they do to the page tables, to the physical
memory and to the statistics is a change of the environment `VmEnv`, which the VMM only
passes on.
-/
import Northport.Lib.Word

namespace Northport.Memory

open Lib

/-- The bits of `VmFlags`. -/
inductive VmFlag where
  | write
  | execute
  | user
  | guarded
  | anon
  | mmio
  | file
deriving DecidableEq, Repr

def VmFlag.index : VmFlag → ℕ
  | write => 0
  | execute => 1
  | user => 2
  | guarded => 3
  | anon => 24
  | mmio => 25
  | file => 26

abbrev VmFlags := BitVec 64

def VmFlags.has (flags : VmFlags) (f : VmFlag) : Bool := flags.getLsbD f.index

/-- `0xFF << 24` is an `int`; its sign extends into the upper half of the `size_t`. -/
def vmFlagTypeMask : VmFlags := 0xFFFFFFFFFF000000#64

/-- The flags of a mapping; each HAT has its own bits for them. -/
structure HatFlags where
  write : Bool := false
  execute : Bool := false
  user : Bool := false
  global : Bool := false
deriving DecidableEq, Repr

def convertFlags (flags : VmFlags) : HatFlags where
  write := flags.has .write
  execute := flags.has .execute
  user := flags.has .user

structure VmRange where
  base : ℕ
  length : ℕ
  flags : VmFlags
  offset : ℕ
  token : ℕ
  mdlCount : ℕ
deriving DecidableEq, Repr

def VmRange.top (range : VmRange) : ℕ := add64 range.base range.length

def VmRangeLess (a b : VmRange) : Bool := a.base < b.base

structure VmmStats where
  faults : ℕ
  anonRanges : ℕ
  anonWorkingSize : ℕ
  anonResidentSize : ℕ
  fileRanges : ℕ
  fileWorkingSize : ℕ
  fileResidentSize : ℕ
  mmioRanges : ℕ
  mmioWorkingSize : ℕ
deriving DecidableEq, Repr

/-- The counter of the ranges with these flags is changed by `f`. -/
def VmmStats.countRange (stats : VmmStats) (flags : VmFlags) (f : ℕ → ℕ) : VmmStats :=
  if flags.has .anon then { stats with anonRanges := f stats.anonRanges }
  else if flags.has .file then { stats with fileRanges := f stats.fileRanges }
  else if flags.has .mmio then { stats with mmioRanges := f stats.mmioRanges }
  else stats

structure VmAllocLimits where
  lowerBound : ℕ := 0
  upperBound : ℕ := wordSize - 1
  alignment : ℕ := 1

structure QueryResult where
  alignment : ℕ := 0
  length : ℕ := 0
  hatMode : ℕ := 0
  success : Bool := false
deriving DecidableEq, Repr

structure AttachResult where
  token : ℕ := 0
  offset : ℕ := 0
  success : Bool := false
deriving DecidableEq, Repr

structure ModifyRangeArgs where
  trimStart : ℕ := 0
  trimEnd : ℕ := 0
  setFlags : VmFlags := 0
  clearFlags : VmFlags := 0

structure SplitResult where
  offset : ℕ := 0
  tokenLow : ℕ := 0
  tokenHigh : ℕ := 0
  success : Bool := false
deriving DecidableEq, Repr

/-- What the drivers read and change: the statistics of the VMM, and its page tables with
the rest of the machine. -/
structure VmEnv (σ : Type) where
  stats : VmmStats
  map : σ

/-- The callbacks of a driver that the VMM uses.  A split lies inside the range. -/
structure VmDriver (σ : Type) where
  query : VmEnv σ → ℕ → VmFlags → ℕ → QueryResult × VmEnv σ
  attach : VmEnv σ → VmRange → QueryResult → ℕ → AttachResult × VmEnv σ
  detach : VmEnv σ → VmRange → Bool × VmEnv σ
  modifyRange : VmEnv σ → VmRange → ModifyRangeArgs → Bool × VmEnv σ
  split : VmEnv σ → VmRange → ℕ → SplitResult × VmEnv σ
  split_le : ∀ env range offset, (split env range offset).1.success = true →
    (split env range offset).1.offset ≤ range.length

/-- The three drivers. -/
structure VmDrivers (σ : Type) where
  anonDriver : VmDriver σ
  kernelDriver : VmDriver σ
  vfsDriver : VmDriver σ

/-- A driver that asks for `n` bytes and does nothing else. -/
def plainDriver {σ : Type} (n : ℕ) : VmDriver σ where
  query env _ _ _ := ({ length := n, success := true }, env)
  attach env _ _ _ := ({ success := true }, env)
  detach env _ := (true, env)
  modifyRange env _ _ := (true, env)
  split env _ _ := ({}, env)
  split_le _ _ _ h := by simp at h

/-- Drivers that ask for whole pages and do nothing else. -/
def pageDrivers {σ : Type} : VmDrivers σ :=
  let driver : VmDriver σ :=
    { plainDriver 0 with
      query := fun env length _ _ =>
        ({ alignment := 0x1000, length := alignUp length 0x1000, success := true }, env) }
  ⟨driver, driver, driver⟩

/-- `VmDriver::GetDriver`. -/
def VmDrivers.getDriver {σ : Type} (drivers : VmDrivers σ) (flags : VmFlags) :
    Option (VmDriver σ) :=
  if flags.has .anon then some drivers.anonDriver
  else if flags.has .file then some drivers.vfsDriver
  else if flags.has .mmio then some drivers.kernelDriver
  else none

/-- The flags name a driver. -/
def VmFlags.typed (flags : VmFlags) : Bool := flags.has .anon || flags.has .file || flags.has .mmio

lemma getDriver_isSome {σ : Type} (drivers : VmDrivers σ) (flags : VmFlags) :
    (drivers.getDriver flags).isSome = flags.typed := by
  unfold VmDrivers.getDriver VmFlags.typed
  cases flags.has .anon <;> cases flags.has .file <;> cases flags.has .mmio <;> rfl

/-- Only the flags outside of the type mask can be changed, so a range keeps its driver. -/
lemma typed_setFlags {old flags : VmFlags} (h : old.typed = true) :
    ((old &&& vmFlagTypeMask) ||| flags).typed = true := by
  have hmask : ∀ i, 24 ≤ i → i < 27 → vmFlagTypeMask.getLsbD i = true := by
    intro i h1 h2
    interval_cases i <;> decide
  simp only [VmFlags.typed, VmFlags.has, VmFlag.index, BitVec.getLsbD_or, BitVec.getLsbD_and,
    hmask 24 (by omega) (by omega), hmask 25 (by omega) (by omega),
    hmask 26 (by omega) (by omega), Bool.and_true, Bool.or_eq_true] at h ⊢
  tauto

end Northport.Memory
