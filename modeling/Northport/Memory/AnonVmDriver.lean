/-
# The driver of anonymous memory (`AnonVmDriver.cpp`)

An anonymous range is backed by pages of the PMM: at once, when it is first accessed, or with
the zero page until the first write.  The state that the driver changes has the page tables of
the address space, the physical memory and the PMM.  What the page that `PMM::Alloc` returns
holds is up to the PMM.

`Query` and `Attach` are those of `VmDriverAttach`.
-/
import Northport.Lib.Supply
import Northport.Memory.PageMap
import Northport.Memory.VmDriverAttach

namespace Northport.Memory

open Lib

/-- The PMM, as far as it hands out single pages.  It does not run out of them. -/
structure Frames (τ : Type) extends Supply τ ℕ where
  /-- What the page that is handed out next holds. -/
  content : τ → ℕ → BitVec 8
  aligned : ∀ t, (alloc t).1 % PageSize = 0

/-- The next page above those that are in use; it is full of ones. -/
def Frames.counting : Frames (List ℕ) where
  toSupply := .ofPick (fun inUse => (inUse.foldr max 0 / PageSize + 1) * PageSize) fun inUse hmem => by
    have hle := le_foldr_max hmem
    rw [PageSize] at hle
    omega
  content _ _ := 0xFF#8
  aligned t := Nat.mul_mod_left _ _

structure AnonState (τ : Type) where
  map : PageMap
  mem : ByteMem
  pmm : τ
  /-- `!CoresInEarlyInit() && CoreLocalAvailable()` -/
  coresReady : Bool

/-- The page at this address is given a content. -/
def fillPage (mem : ByteMem) (page : ℕ) (content : ℕ → BitVec 8) : ByteMem :=
  fun a => if page ≤ a ∧ a < page + PageSize then content (a - page) else mem a

variable {τ : Type}

/-- `PMM::Global().Alloc()` -/
def Frames.pmmAlloc (F : Frames τ) (s : AnonState τ) : ℕ × AnonState τ :=
  let (page, pmm) := F.alloc s.pmm
  (page, { s with pmm := pmm, mem := fillPage s.mem page (F.content s.pmm) })

/-- The features that were enabled, and the zero page. -/
structure AnonVmDriver (τ : Type) where
  frames : Frames τ
  faultHandler : Bool
  useZeroPage : Bool
  zeroPage : ℕ

def HatFlags.union (a b : HatFlags) : HatFlags :=
  ⟨a.write || b.write, a.execute || b.execute, a.user || b.user, a.global || b.global⟩

/-- `flags & ~cleared` -/
def HatFlags.without (flags cleared : HatFlags) : HatFlags :=
  ⟨flags.write && !cleared.write, flags.execute && !cleared.execute, flags.user && !cleared.user,
    flags.global && !cleared.global⟩

namespace AnonVmDriver

/-- `Init`; bit 0 enables the fault handler, bit 1 the zero page. -/
def init (F : Frames τ) (enableFeatures : ℕ) (s : AnonState τ) : AnonVmDriver τ × AnonState τ :=
  if enableFeatures.testBit 1 then
    let (zeroPage, s) := F.pmmAlloc s
    (⟨F, enableFeatures.testBit 0, true, zeroPage⟩, { s with mem := s.mem.zero zeroPage PageSize })
  else (⟨F, enableFeatures.testBit 0, false, 0⟩, s)

variable (d : AnonVmDriver τ)

/-- What `Query` and `Attach` use of the kernel.  There are no files. -/
def machine : VmMachine (AnonState τ) where
  granularity := granularity
  granularity_pos := granularity_pos
  granularity_lt := granularity_lt
  hatDoMap s vaddr paddr _ flags := { s with map := (s.map.hatDoMap vaddr paddr flags).2 }
  pmmAlloc := d.frames.pmmAlloc
  coresReady := AnonState.coresReady
  anonFaultHandler := d.faultHandler
  anonZeroPage := d.useZeroPage
  zeroPage := d.zeroPage
  vfsFaultHandler := false
  fileArg _ := {}
  vfsLookup _ _ := none
  vfsGetAttribs _ _ := none
  getVfsNode _ _ := none
  fileCacheHatMode := 0
  fileCacheUnitSize := 0
  getFileCacheUnit s _ _ := (none, s)
  newLink s _ := (0, s)

/-! ### Faults -/

def faultMaxMapAhead : ℕ := 8

/-- How many pages `HandleFault` maps. -/
def mapCount (range : VmRange) (addr : ℕ) : ℕ :=
  let granuleSize := granularity range.token
  let mapLength := min (mul64 faultMaxMapAhead granuleSize) (sub64 range.top addr)
  alignUp mapLength granuleSize / granuleSize

/-- One turn of the loop of `HandleFault`; `none` when an assertion fires. -/
def faultPage (hatMode : ℕ) (flags : HatFlags) (s : AnonState τ) (vaddr : ℕ) :
    Option (AnonState τ) :=
  let (paddr, s) := d.frames.pmmAlloc s
  if granularity hatMode ≠ PageSize then none
  else if d.useZeroPage then
    some { s with map := (s.map.hatSyncMap vaddr (some paddr) (some flags)).2 }
  else
    match s.map.hatDoMap vaddr paddr flags with
    | (true, map) => some { s with map := map }
    | (false, _) => none

section

variable (env : VmEnv (AnonState τ))

def handleFault (range : VmRange) (addr : ℕ) :
    Option (Bool × VmEnv (AnonState τ)) :=
  let granuleSize := granularity range.token
  let mapCount := mapCount range addr
  let addr := alignDown addr granuleSize
  let flags := convertFlags range.flags
  ((List.range mapCount).foldlM (fun s i =>
    d.faultPage range.token flags s (add64 addr (mul64 i granuleSize))) env.map).map fun s =>
    let anonResidentSize := add64 env.stats.anonResidentSize (mul64 mapCount granuleSize)
    (true, ⟨{ env.stats with anonResidentSize := anonResidentSize }, s⟩)

/-! ### The other callbacks -/

/-- `ModifyRange`, which nobody asks to trim a range. -/
def modifyRange (range : VmRange) (args : ModifyRangeArgs) :
    Bool × VmEnv (AnonState τ) :=
  if args.setFlags.has .guarded || args.clearFlags.has .guarded then (false, env)
  else
    let flags := ((convertFlags range.flags).without (convertFlags args.clearFlags)).union
      (convertFlags args.setFlags)
    let map := (VmMachine.granules range.length (granularity range.token)).foldl (fun map i =>
      (map.hatSyncMap (add64 range.base i) none (some flags)).2) env.map.map
    (true, { env with map := { env.map with map := map } })

def split (range : VmRange) (offset : ℕ) :
    SplitResult × VmEnv (AnonState τ) :=
  let offset := alignUp offset (granularity range.token)
  if offset > range.length then ({}, env)
  else
    ({ offset := offset, tokenLow := range.token, tokenHigh := range.token, success := true }, env)

/-- One turn of the loop of `Detach`.  It unmaps the first page of the range, in every turn. -/
def detachPage (range : VmRange) (env : VmEnv (AnonState τ)) : VmEnv (AnonState τ) :=
  match env.map.map.hatDoUnmap range.base with
  | (some phys, map) =>
    let pmm := if phys ≠ d.zeroPage then d.frames.free env.map.pmm phys else env.map.pmm
    let anonResidentSize := sub64 env.stats.anonResidentSize (granularity 0)
    ⟨{ env.stats with anonResidentSize := anonResidentSize },
      { env.map with map := map, pmm := pmm }⟩
  | (none, _) => env

def detach (range : VmRange) : Bool × VmEnv (AnonState τ) :=
  let anonWorkingSize := sub64 env.stats.anonWorkingSize (sub64 range.length range.offset)
  -- a page of the smallest size is mapped or not: both cases go on with the next granule
  (true, (VmMachine.granules range.length (granularity 0)).foldl (fun env _ =>
    d.detachPage range env) { env with stats := { env.stats with anonWorkingSize := anonWorkingSize } })

end

def vmDriver : VmDriver (AnonState τ) where
  query := d.machine.anonQuery
  attach := d.machine.anonAttach
  detach := d.detach
  modifyRange := modifyRange
  split := split
  split_le env range offset h := by
    rw [split] at h ⊢
    split_ifs at h ⊢ with hle
    exact Nat.le_of_not_lt hle

/-- The drivers of a VMM that is used for anonymous memory. -/
def drivers : VmDrivers (AnonState τ) := ⟨d.vmDriver, plainDriver 0, plainDriver 0⟩

end AnonVmDriver

end Northport.Memory
