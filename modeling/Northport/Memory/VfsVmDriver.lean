/-
# The driver of file mappings (`VfsVmDriver.cpp`, `FileCache.cpp`)

A file mapping shows the units of the file cache, each of them four pages of contiguous memory.
`Attach` maps all pages of the range at once, or leaves them to `HandleFault`, which maps up to
two pages.  `Query` and `Attach` are those of `VmDriverAttach`.

The file cache always finds the same unit for the same offset.
-/
import Northport.Memory.PageRange

namespace Northport.Memory

open Lib

structure FileCacheInfo where
  unitSize : ℕ
  hatMode : ℕ
  modeMultiple : ℕ
deriving DecidableEq, Repr

/-- `InitFileCache`, for the granularities of the MMU. -/
def initFileCache (modes : List ℕ) : FileCacheInfo :=
  modes.zipIdx.foldl (fun cacheInfo (granularity, i) =>
    if granularity < cacheInfo.unitSize then
      { hatMode := i, modeMultiple := 4, unitSize := mul64 granularity 4 }
    else cacheInfo) { unitSize := wordSize - 1, hatMode := 0, modeMultiple := 0 }

def fileCacheInfo : FileCacheInfo := initFileCache ((List.range 3).map granularity)

lemma fileCacheInfo_eq : fileCacheInfo = ⟨0x4000, 0, 4⟩ := by decide +kernel

structure VfsVmDriver where
  faultHandler : Bool
  /-- The argument that a file mapping's caller has at an address. -/
  fileArg : ℕ → VmFileArg
  vfsLookup : String → Option VfsId
  getVfsNode : VfsId → Option NodeType
  /-- The length of the cache of a node, if it has a cache. -/
  cacheLength : VfsId → Option ℕ
  /-- The memory of the unit at an offset of the cache. -/
  physBase : VfsId → ℕ → ℕ
  physBase_mod : ∀ id offset, physBase id offset % PageSize = 0
  physBase_lt : ∀ id offset, physBase id offset + fileCacheInfo.unitSize ≤ wordSize
  physBase_inj : ∀ id length, cacheLength id = some length → ∀ a < length, ∀ b < length,
    a % fileCacheInfo.unitSize = 0 → b % fileCacheInfo.unitSize = 0 →
      physBase id a = physBase id b → a = b

/-- The page tables, and the links that the driver has made; the token of a range is the address of
its link. -/
structure FileState where
  map : PageMap
  links : List VfsVmLink

/-- The link at an address, if it is not null. -/
def FileState.getLink (s : FileState) (token : ℕ) : Option VfsVmLink :=
  if token = 0 then none else s.links[token - 1]?

namespace VfsVmDriver

variable (d : VfsVmDriver)

def getFileCacheUnit (id : VfsId) (fileOffset : ℕ) : Option ℕ :=
  let fileOffset := alignDown fileOffset fileCacheInfo.unitSize
  match d.cacheLength id with
  | none => none
  | some length => if fileOffset < length then some (d.physBase id fileOffset) else none

/-- What `Query` and `Attach` use of the kernel.  There is no anonymous memory. -/
def machine : VmMachine FileState where
  granularity := granularity
  granularity_pos := granularity_pos
  granularity_lt := granularity_lt
  hatDoMap s vaddr paddr _ flags := { s with map := (s.map.hatDoMap vaddr paddr flags).2 }
  pmmAlloc s := (0, s)
  coresReady _ := false
  anonFaultHandler := false
  anonZeroPage := false
  zeroPage := 0
  vfsFaultHandler := d.faultHandler
  fileArg := d.fileArg
  vfsLookup _ := d.vfsLookup
  vfsGetAttribs _ := d.getVfsNode
  getVfsNode _ := d.getVfsNode
  fileCacheHatMode := fileCacheInfo.hatMode
  fileCacheUnitSize := fileCacheInfo.unitSize
  getFileCacheUnit s id offset := (d.getFileCacheUnit id offset, s)
  newLink s link := (s.links.length + 1, { s with links := s.links ++ [link] })

/-! ### Faults -/

def faultMaxMapAhead : ℕ := 2 * 0x1000

/-- One page of a fault is mapped. -/
def faultPage (range : VmRange) (mappingOffset i physBase offset : ℕ) (env : VmEnv FileState) :
    VmEnv FileState :=
  ⟨{ env.stats with
      fileResidentSize := add64 env.stats.fileResidentSize (granularity fileCacheInfo.hatMode) },
    { env.map with
      map := (env.map.map.hatDoMap (add64 (add64 range.base mappingOffset) i)
        (add64 physBase (offset % fileCacheInfo.unitSize)) (convertFlags range.flags)).2 }⟩

/-- The loop of `HandleFault`; the unit changes only at offsets where a unit begins. -/
def faultLoop (range : VmRange) (link : VfsVmLink) (mappingOffset : ℕ) :
    ℕ → VmEnv FileState → List ℕ → Bool × VmEnv FileState
  | _, env, [] => (true, env)
  | cachePart, env, i :: is =>
    let offset := add64 (add64 mappingOffset i) link.fileOffset
    match (if offset % fileCacheInfo.unitSize = 0 then d.getFileCacheUnit link.node offset
      else some cachePart) with
    | none => (false, env)
    | some cachePart =>
      faultLoop range link mappingOffset cachePart
        (faultPage range mappingOffset i cachePart offset env) is

/-- `HandleFault`; `none` when the assertion on the link fires. -/
def handleFault (env : VmEnv FileState) (range : VmRange) (addr : ℕ) :
    Option (Bool × VmEnv FileState) :=
  (env.map.getLink range.token).map fun link =>
    if d.getVfsNode link.node = none ∨ d.cacheLength link.node = none then (false, env)
    else
      let granuleSize := granularity fileCacheInfo.hatMode
      let addr := alignDown addr granuleSize
      let mapLength := min faultMaxMapAhead (sub64 range.top addr)
      let mappingOffset := sub64 addr range.base
      match d.getFileCacheUnit link.node (add64 mappingOffset link.fileOffset) with
      | none => (false, env)
      | some cachePart =>
        d.faultLoop range link mappingOffset cachePart env
          (VmMachine.granules mapLength granuleSize)

/-! ### What a mapping shows -/

/-- Where the file cache has the byte at an offset of a file. -/
def byteAt (id : VfsId) (x : ℕ) : Option ℕ :=
  (d.getFileCacheUnit id x).map (· + x % fileCacheInfo.unitSize)

/-- **The range shows the file**: an address that is mapped has the byte of the file that is as far
behind the page of `offset` as the address is behind the start of the range. -/
def ShowsFile (id : VfsId) (offset : ℕ) (range : VmRange) (map : PageMap) : Prop :=
  ∀ a, range.base ≤ a → a < range.base + range.length → map.hatGetMap a = none ∨
    map.hatGetMap a = d.byteAt id (add64 (alignDown offset PageSize) (a - range.base))

end VfsVmDriver

end Northport.Memory
