/-
# How the drivers size and attach a range

`Query` and `Attach` of the three drivers.  `Query` rounds the length up to granules and
does not look at the argument; `Attach` maps from the granule of the argument on, and
returns as offset how far the argument lies behind the start of its granule.
-/
import Northport.Memory.VmDriver

namespace Northport.Memory

open Lib

structure VfsId where
  driverId : ℕ
  vnodeId : ℕ
deriving DecidableEq, Repr

inductive NodeType where
  | file
  | directory
  | link
deriving DecidableEq, Repr

structure VmFileArg where
  id : VfsId := ⟨0, 0⟩
  filepath : String := ""
  offset : ℕ := 0
  noDeferBacking : Bool := false

structure VfsVmLink where
  node : VfsId
  fileOffset : ℕ
  isReadonly : Bool
  isPrivate : Bool

/-- What the drivers use of the rest of the kernel. -/
structure VmMachine (σ : Type) where
  /-- `HatGetLimits().modes[mode].granularity`. -/
  granularity : ℕ → ℕ
  granularity_pos : ∀ mode, 0 < granularity mode
  granularity_lt : ∀ mode, granularity mode < wordSize
  hatDoMap : σ → ℕ → ℕ → ℕ → HatFlags → σ
  pmmAlloc : σ → ℕ × σ
  /-- `!CoresInEarlyInit() && CoreLocalAvailable()`. -/
  coresReady : σ → Bool
  anonFaultHandler : Bool
  anonZeroPage : Bool
  zeroPage : ℕ
  vfsFaultHandler : Bool
  /-- The argument that a file mapping's caller has at an address. -/
  fileArg : ℕ → VmFileArg
  vfsLookup : σ → String → Option VfsId
  vfsGetAttribs : σ → VfsId → Option NodeType
  getVfsNode : σ → VfsId → Option NodeType
  fileCacheHatMode : ℕ
  fileCacheUnitSize : ℕ
  getFileCacheUnit : σ → VfsId → ℕ → Option ℕ × σ
  newLink : σ → VfsVmLink → ℕ × σ

namespace VmMachine

variable {σ : Type} (M : VmMachine σ)

/-- The answer of all three `Query` functions for a HAT mode. -/
def queryMode (hatMode length : ℕ) (flags : VmFlags) : QueryResult :=
  let alignment := M.granularity hatMode
  let size := alignUp length alignment
  { alignment := alignment, hatMode := hatMode, success := true,
    length := if flags.has .guarded then add64 size (mul64 2 alignment) else size }

/-- The offsets of the granules of a range. -/
def granules (length granule : ℕ) : List ℕ :=
  (List.range ((length + granule - 1) / granule)).map (· * granule)

/-! ### Anonymous memory -/

section

variable (env : VmEnv σ)

def anonQuery (length : ℕ) (flags : VmFlags) (_attachArg : ℕ) :
    QueryResult × VmEnv σ :=
  (M.queryMode 0 length flags, env)

/-- The pages behind an anonymous range that is backed at once. -/
def mapAnon (range : VmRange) (hatMode : ℕ) (doZeroPage : Bool) (flags : HatFlags) (map : σ) : σ :=
  (granules range.length (M.granularity hatMode)).foldl (fun map i =>
    let (phys, map) := if doZeroPage then (M.zeroPage, map) else M.pmmAlloc map
    M.hatDoMap map (add64 range.base i) phys 0 flags) map

def anonAttach (range : VmRange) (query : QueryResult) (attachArg : ℕ) :
    AttachResult × VmEnv σ :=
  let demandAllowed := M.coresReady env.map && M.anonFaultHandler
  -- the bits of the argument switch a feature off for this range
  let doDemand := demandAllowed && !attachArg.testBit 0
  let doZeroPage := demandAllowed && M.anonZeroPage && !attachArg.testBit 1
  let result : AttachResult := { token := query.hatMode, offset := 0, success := true }
  let stats := { env.stats with
    anonWorkingSize := add64 env.stats.anonWorkingSize (sub64 range.length result.offset) }
  if doDemand && !doZeroPage then (result, { env with stats := stats })
  else
    let flags := if doZeroPage then range.flags &&& ~~~(1#64 <<< VmFlag.write.index)
      else range.flags
    let map := M.mapAnon range query.hatMode doZeroPage (convertFlags flags) env.map
    let stats := if doZeroPage then stats
      else { stats with anonResidentSize := add64 stats.anonResidentSize range.length }
    (result, ⟨stats, map⟩)

/-! ### Device memory and the kernel -/

def kernelQuery (length : ℕ) (flags : VmFlags) (_attachArg : ℕ) :
    QueryResult × VmEnv σ :=
  (M.queryMode 0 length flags, env)

def kernelAttach (range : VmRange) (query : QueryResult) (attachArg : ℕ) :
    AttachResult × VmEnv σ :=
  let flags : HatFlags := { global := true, write := range.flags.has .write }
  let result : AttachResult := { token := 0, offset := attachArg % query.alignment, success := true }
  let attachArg := alignDown attachArg query.alignment
  let map := (granules range.length query.alignment).foldl (fun map i =>
    M.hatDoMap map (add64 range.base i) (add64 attachArg i) query.hatMode flags) env.map
  let stats := { env.stats with
    mmioWorkingSize := add64 env.stats.mmioWorkingSize range.length }
  (result, ⟨stats, map⟩)

/-! ### Files -/

/-- The file that the argument names, by its id or by its path. -/
def findFile (map : σ) (arg : VmFileArg) : Option VfsId :=
  let fileId := if arg.id.driverId ≠ 0 then arg.id
    else if arg.filepath ≠ "" then (M.vfsLookup map arg.filepath).getD ⟨0, 0⟩ else ⟨0, 0⟩
  if fileId.driverId = 0 then none else some fileId

def vfsQuery (length : ℕ) (flags : VmFlags) (attachArg : ℕ) :
    QueryResult × VmEnv σ :=
  match M.findFile env.map (M.fileArg attachArg) with
  | none => ({}, env)
  | some fileId =>
    if M.vfsGetAttribs env.map fileId ≠ some .file then ({}, env)
    else (M.queryMode M.fileCacheHatMode length flags, env)

/-- The loop of `VfsVmDriver::Attach` over the granules; it stops at the first one that the
file cache does not have. -/
def mapFile (range : VmRange) (fileId : VfsId) (offset hatMode : ℕ) (env : VmEnv σ) :
    List ℕ → VmEnv σ
  | [] => env
  | i :: is =>
      match M.getFileCacheUnit env.map fileId (add64 offset i) with
      | (none, map) => { env with map := map }
      | (some physBase, map) =>
        let map := M.hatDoMap map (add64 range.base i)
          (add64 physBase (i % M.fileCacheUnitSize)) hatMode (convertFlags range.flags)
        let stats := { env.stats with
          fileResidentSize := add64 env.stats.fileResidentSize (M.granularity hatMode) }
        mapFile range fileId offset hatMode ⟨stats, map⟩ is

def vfsAttach (range : VmRange) (query : QueryResult) (attachArg : ℕ) :
    AttachResult × VmEnv σ :=
  let arg := M.fileArg attachArg
  match M.findFile env.map arg with
  | none => ({}, env)
  | some fileId =>
    if M.getVfsNode env.map fileId ≠ some .file then ({}, env)
    else
      let (link, map) := M.newLink env.map
        { node := fileId, fileOffset := arg.offset, isReadonly := !range.flags.has .write,
          isPrivate := false }
      let granuleSize := M.granularity query.hatMode
      let result : AttachResult :=
        { token := link, offset := arg.offset % granuleSize, success := true }
      let stats := { env.stats with
        fileWorkingSize := add64 env.stats.fileWorkingSize (sub64 range.length result.offset) }
      if M.vfsFaultHandler && !arg.noDeferBacking then (result, ⟨stats, map⟩)
      else (result, M.mapFile range fileId arg.offset query.hatMode ⟨stats, map⟩
        (granules range.length granuleSize))

end

/-- The drivers with these functions; their other callbacks are those of `rest`. -/
def drivers (rest : VmDrivers σ) : VmDrivers σ where
  anonDriver := { rest.anonDriver with query := M.anonQuery, attach := M.anonAttach }
  kernelDriver := { rest.kernelDriver with query := M.kernelQuery, attach := M.kernelAttach }
  vfsDriver := { rest.vfsDriver with query := M.vfsQuery, attach := M.vfsAttach }

end VmMachine

end Northport.Memory
