/-
# The x86_64 HAT: page tables

The hardware address translation of x86_64 keeps the translation of an address space in a
radix tree of page tables, four or five levels deep.  The tables live in physical pages that
`HatDoMap` takes from the PMM when a walk ends too early; they are never given back.

Physical memory is read and written through the direct map, in words of 64 bits; the model
addresses a word by its physical address.
-/
import Northport.Memory.VmDriver

namespace Northport.X86

open Lib Memory

/-- What `HatInit` finds out about the CPU. -/
structure Mmu where
  /-- Bit 12 of `cr4`. -/
  la57 : Bool
  pml3Translation : Bool
  nx : Bool
  globalPages : Bool
deriving DecidableEq, Repr

def Mmu.pagingLevels (mmu : Mmu) : ℕ := if mmu.la57 then 5 else 4

/-- `limits.modeCount` -/
def Mmu.modeCount (mmu : Mmu) : ℕ := if mmu.pml3Translation then 3 else 2

/-- The bits of an entry that hold a physical address. -/
def Mmu.addrMask (mmu : Mmu) : ℕ := (1 <<< (9 * mmu.pagingLevels + 12) - 1) &&& not64 0xFFF

def presentFlag : ℕ := 1 <<< 0

def sizeFlag : ℕ := 1 <<< 7

def nxFlag : ℕ := 1 <<< 63

/-- The bits of `HatFlags`. -/
def flagBits (flags : HatFlags) : ℕ :=
  (if flags.write then 1 <<< 1 else 0) ||| (if flags.user then 1 <<< 2 else 0) |||
    (if flags.global then 1 <<< 8 else 0) ||| (if flags.execute then 1 <<< 63 else 0)

/-- The size of a page that is mapped at a level of the tables. -/
def getPageSize (size : ℕ) : ℕ := 1 <<< (12 + 9 * (size - 1))

/-- An address space.  `tables` is a record of the pages that hold its tables. -/
structure HatMap where
  root : ℕ
  generation : ℕ
  tables : List ℕ

/-- The memory, one address space and the addresses flushed from the TLB. -/
structure Machine where
  mem : ℕ → ℕ
  map : HatMap
  invlpg : List ℕ

structure WalkResult where
  level : ℕ := 0
  pte : ℕ := 0
  complete : Bool := false
deriving DecidableEq, Repr

def getAddressIndices (vaddr : ℕ) : ℕ → ℕ
  | 5 => (vaddr >>> 48) &&& 0x1FF
  | 4 => (vaddr >>> 39) &&& 0x1FF
  | 3 => (vaddr >>> 30) &&& 0x1FF
  | 2 => (vaddr >>> 21) &&& 0x1FF
  | 1 => (vaddr >>> 12) &&& 0x1FF
  | _ => 0

/-- `&pt->entries[index]` -/
def entryAddress (pt index : ℕ) : ℕ := pt + 8 * index

variable (mmu : Mmu)

/-- The loop of `WalkTables`, with `i` levels to go. -/
def walkLoop (mem : ℕ → ℕ) (vaddr : ℕ) : ℕ → ℕ → WalkResult → WalkResult
  | 0, _, result => { result with complete := mem result.pte &&& presentFlag ≠ 0 }
  | i + 1, pt, _ =>
    let pte := entryAddress pt (getAddressIndices vaddr (i + 1))
    if mem pte &&& presentFlag = 0 then { level := i + 1, pte := pte, complete := false }
    else if i + 1 ≤ mmu.modeCount ∧ mem pte &&& sizeFlag ≠ 0 then
      { level := i + 1, pte := pte, complete := true }
    else walkLoop mem vaddr i (mem pte &&& mmu.addrMask) { level := i + 1, pte := pte }

/-- Walk the tables as long as they are valid; the entry where the translation ended and its
level. -/
def walkTables (mem : ℕ → ℕ) (root vaddr : ℕ) : WalkResult :=
  walkLoop mmu mem vaddr mmu.pagingLevels root {}

/-- `memset(page, 0, PageSize)` -/
def zeroPage (mem : ℕ → ℕ) (page : ℕ) : ℕ → ℕ :=
  fun a => if page ≤ a ∧ a < page + 0x1000 then 0 else mem a

/-- The entry of a table in the table above it. -/
def tableEntry (newPt : ℕ) : ℕ := (mmu.addrMask &&& newPt) ||| (presentFlag ||| 1 <<< 1)

/-- One turn of the loop of `HatDoMap`: the PMM gave the page `newPt` for a missing table. -/
def Machine.addTable (s : Machine) (pte newPt : ℕ) : Machine :=
  { s with
    mem := Function.update (zeroPage s.mem newPt) pte (tableEntry mmu newPt)
    map := { s.map with tables := newPt :: s.map.tables } }

/-- The loop of `HatDoMap` that creates the missing tables.  `pages` has the page that the PMM
gives for the table of a level.  Below the last level the source reads an index that it never
set. -/
def addTables (vaddr : ℕ) (pages : ℕ → ℕ) (target : ℕ) :
    ℕ → Machine → ℕ → Option (Machine × ℕ)
  | 0, _, _ => none
  | level + 1, s, pte =>
    if level + 1 = target then some (s, pte)
    else addTables vaddr pages target level (s.addTable mmu pte (pages level))
      (entryAddress (pages level) (getAddressIndices vaddr level))

/-- The final entry of a mapping. -/
def leafEntry (paddr mode : ℕ) (flags : HatFlags) : ℕ :=
  let pte := ((flagBits flags &&& 0xFFF) ||| presentFlag) ||| (paddr &&& mmu.addrMask)
  let pte := if mode + 1 > 1 then pte ||| sizeFlag else pte
  let pte := if mmu.nx ∧ nxFlag &&& flagBits flags = 0 then pte ||| nxFlag else pte
  if mmu.globalPages then pte else pte &&& not64 (1 <<< 5)

def Machine.flush (s : Machine) (flush : Bool) (vaddr : ℕ) : Machine :=
  if flush then { s with invlpg := vaddr :: s.invlpg } else s

/-- The generation of the kernel's map is counted. -/
def Machine.bumpGeneration (s : Machine) (bump : Bool) : Machine :=
  if bump then { s with map := { s.map with generation := (s.map.generation + 1) % 2 ^ 32 } } else s

/-- `HatDoMap`; `kernel` says whether the map is the kernel's. -/
def Machine.hatDoMap (s : Machine) (kernel : Bool) (vaddr paddr mode : ℕ) (flags : HatFlags)
    (flush : Bool) (pages : ℕ → ℕ) : Option (Bool × Machine) :=
  if mode ≥ mmu.modeCount then some (false, s)
  else
    let path := walkTables mmu s.mem s.map.root vaddr
    if path.complete then some (false, s)
    else (addTables mmu vaddr pages (mode + 1) path.level s path.pte).map fun (s, pte) =>
      (true, ({ s with mem := Function.update s.mem pte (leafEntry mmu paddr mode flags) }.flush
        flush vaddr).bumpGeneration kernel)

/-- `HatDoUnmap`; the physical address and the mode of the mapping, if there was one. -/
def Machine.hatDoUnmap (s : Machine) (kernel : Bool) (vaddr : ℕ) (flush : Bool) :
    Option (ℕ × ℕ) × Machine :=
  let path := walkTables mmu s.mem s.map.root vaddr
  if path.complete then
    (some (s.mem path.pte &&& mmu.addrMask, path.level - 1),
      ({ s with mem := Function.update s.mem path.pte 0 }.flush flush vaddr).bumpGeneration
        (kernel && path.level == mmu.pagingLevels))
  else (none, s)

/-- `HatGetMap`; the physical address and the mode. -/
def Machine.hatGetMap (s : Machine) (vaddr : ℕ) : Option (ℕ × ℕ) :=
  let path := walkTables mmu s.mem s.map.root vaddr
  if path.complete then
    some ((s.mem path.pte &&& mmu.addrMask) ||| (vaddr &&& (getPageSize path.level - 1)),
      path.level - 1)
  else none

end Northport.X86
