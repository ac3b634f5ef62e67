/-
# The physical memory manager

The PMM keeps everything it knows about the memory in that memory.  `IngestMemory` cuts the
contiguous zones off the ends of the largest regions, claims pages for the zone headers with
their bitmaps and for the page info, and chains the rest to the freelist, whose links are
stored in the free pages themselves.  Single pages come from the freelist, longer blocks
from the bitmaps of the zones.

Memory is addressed by physical addresses.  A pointer of the source is a physical address
plus `hhdmBase`, and is stored as such.
-/
import Northport.Lib.ByteMem
import Northport.Lib.Word

namespace Northport.Memory

open Lib

def PageSize : ℕ := 0x1000

/-- A region of the memory map, with base and length. -/
abbrev MemmapEntry := Span

/-- The fields of a zone header; the lock in front of them is left out. -/
structure PmContigZone where
  bitmap : ℕ
  base : ℕ
  count : ℕ
  next : ℕ
deriving DecidableEq, Repr

def sizeofPmContigZone : ℕ := 40

def sizeofPmInfoSegment : ℕ := 32

def sizeofPageInfo : ℕ := 16

structure Pmm where
  mem : ByteMem
  zones : ℕ := 0
  segments : ℕ := 0
  freelist : ℕ := 0
  trashAfterUse : Bool := false
  trashBeforeUse : Bool := false
  /-- The numbers that the random generator is going to return. -/
  rng : ℕ → ℕ := fun _ => 0
  /-- The numbers of zones and of segments, which bound the walks along them. -/
  zoneCount : ℕ := 0
  segmentCount : ℕ := 0
  /-- The pointer to the page infos and their size. -/
  pageInfos : Span := ⟨0, 0⟩
  /-- The spans that the last `IngestMemory` uses for zone headers, bitmaps, info segments and page
  infos. -/
  metadata : List Span := []

variable (hhdmBase : ℕ)

/-- The zone header behind a pointer. -/
def loadZone (mem : ByteMem) (zone : ℕ) : PmContigZone where
  bitmap := mem.read64 (zone - hhdmBase + 8)
  base := mem.read64 (zone - hhdmBase + 16)
  count := mem.read64 (zone - hhdmBase + 24)
  next := mem.read64 (zone - hhdmBase + 32)

/-! ### The memory map -/

/-- The inner loop of the sort, with `k` comparisons to go. -/
def bubble : ℕ → List MemmapEntry → List MemmapEntry
  | k + 1, a :: b :: l =>
    if a.length < b.length then b :: bubble k (a :: l) else a :: bubble k (b :: l)
  | _, l => l

/-- Sort by size, the largest first. -/
def sortMemoryMapBySize (entries : List MemmapEntry) : List MemmapEntry :=
  (List.range (entries.length - 1)).foldl (fun l i => bubble (entries.length - i - 1) l) entries

/-- Take pages from the front of the last region that is large enough. -/
def claimFromSmallest (pages : ℕ) : List MemmapEntry → Option (ℕ × List MemmapEntry)
  | [] => none
  | e :: l =>
    match claimFromSmallest pages l with
    | some (base, l) => some (base, e :: l)
    | none =>
      if e.length < pages * PageSize then none
      else some (e.base, ⟨e.base + pages * PageSize, e.length - pages * PageSize⟩ :: l)

/-! ### `IngestMemory` -/

/-- The state of the loop that creates the zones. -/
structure ZoneLoop where
  mem : ByteMem
  entries : List MemmapEntry
  zones : ℕ
  contigZones : ℕ
  metadata : List Span

/-- The header and the bitmap of a new zone are written behind each other. -/
def initZone (mem : ByteMem) (zone base count bitmapBytes next : ℕ) : ByteMem :=
  let addr := zone - hhdmBase
  let mem := mem.zero addr sizeofPmContigZone
  let mem := mem.write64 (addr + 16) base
  let mem := mem.write64 (addr + 24) count
  let mem := mem.write64 (addr + 8) (zone + sizeofPmContigZone)
  let mem := mem.zero (addr + sizeofPmContigZone) bitmapBytes
  mem.write64 (addr + 32) next

/-- One turn of the loop: the end of the first region becomes a zone of up to `wanted` pages. -/
def addZone (wanted : ℕ) (s : ZoneLoop) : Option (ℕ × ZoneLoop) :=
  match s.entries with
  | [] => none
  | e :: l =>
    let count := min wanted (e.length / PageSize)
    let first : MemmapEntry := ⟨e.base, e.length - count * PageSize⟩
    let bitmapBytes := roundUp count 8 / 8
    let metadataBytes := bitmapBytes + 2 * sizeofPmContigZone
    match claimFromSmallest (roundUp metadataBytes PageSize / PageSize) (first :: l) with
    | some (metadataAddr, first :: l) =>
      if metadataAddr = 0 then none
      else
        let zone := roundUp (metadataAddr + hhdmBase) sizeofPmContigZone
        some (count,
          { mem := initZone hhdmBase s.mem zone (first.base + first.length) count bitmapBytes s.zones
            entries := sortMemoryMapBySize (first :: l)
            zones := zone
            contigZones := s.contigZones + 1
            metadata := ⟨zone - hhdmBase, sizeofPmContigZone⟩ ::
              ⟨zone - hhdmBase + sizeofPmContigZone, bitmapBytes⟩ :: s.metadata })
    | _ => none

/-- The loop that reserves the contiguous zones, with `i` pages of the quota reserved. -/
def zoneLoop (contiguousQuota : ℕ) : ℕ → ℕ → ZoneLoop → Option ZoneLoop
  | fuel, i, s =>
    if i < contiguousQuota then
      match fuel with
      | 0 => none
      | fuel + 1 => (addZone hhdmBase (contiguousQuota - i) s).bind fun (count, s) =>
        zoneLoop contiguousQuota fuel (i + count) s
    else some s

/-- The state of the loops that create the info segments. -/
structure SegmentLoop where
  mem : ByteMem
  segmentIndex : ℕ
  infoIndex : ℕ
  tail : ℕ
  metadata : List Span

/-- The body of both loops: the next segment describes these pages. -/
def addSegment (segmentStore infoStore : ℕ) (s : SegmentLoop) (base length : ℕ) : SegmentLoop :=
  let segment := segmentStore + sizeofPmInfoSegment * s.segmentIndex
  let addr := segment - hhdmBase
  let info := infoStore + sizeofPageInfo * s.infoIndex
  let mem := s.mem.zero addr sizeofPmInfoSegment
  let mem := mem.write64 (addr + 8) base
  let mem := mem.write64 (addr + 16) length
  let mem := mem.write64 (addr + 24) info
  let mem := if s.tail = 0 then mem else mem.write64 (s.tail - hhdmBase) segment
  { mem := mem
    segmentIndex := s.segmentIndex + 1
    infoIndex := s.infoIndex + length / PageSize
    tail := segment
    metadata := ⟨addr, sizeofPmInfoSegment⟩ ::
      ⟨info - hhdmBase, sizeofPageInfo * (length / PageSize)⟩ :: s.metadata }

/-- The segments of the regions. -/
def addRegionSegments (segmentStore infoStore : ℕ) (s : SegmentLoop) :
    List MemmapEntry → SegmentLoop
  | [] => s
  | e :: l =>
    if e.length = 0 then addRegionSegments segmentStore infoStore s l
    else addRegionSegments segmentStore infoStore
      (addSegment hhdmBase segmentStore infoStore s e.base e.length) l

/-- The segments of the zones, along the list of the zones. -/
def addZoneSegments (segmentStore infoStore : ℕ) : ℕ → ℕ → SegmentLoop → Option SegmentLoop
  | fuel, zone, s =>
    if zone = 0 then some s
    else
      match fuel with
      | 0 => none
      | fuel + 1 =>
        let z := loadZone hhdmBase s.mem zone
        let s := addSegment hhdmBase segmentStore infoStore s z.base (z.count * PageSize)
        addZoneSegments segmentStore infoStore fuel (loadZone hhdmBase s.mem zone).next s

/-- The rest of the memory is put on the freelist. -/
def addFreeRuns (mem : ByteMem) (head : ℕ) : List MemmapEntry → ByteMem × ℕ
  | [] => (mem, head)
  | e :: l =>
    if e.length = 0 then addFreeRuns mem head l
    else addFreeRuns ((mem.write64 (e.base + 8) (e.length / PageSize)).write64 e.base head)
      (e.base + hhdmBase) l

/-- `IngestMemory`; `none` if an assertion fires, or if the map is empty, for then the sort
leaves the span.  The loop over the quota takes at most `fuel` turns.  The lists of zones and of
segments and the freelist begin anew. -/
def Pmm.ingestMemory (fuel : ℕ) (s : Pmm) (entries : List MemmapEntry) (contiguousQuota : ℕ) :
    Option Pmm :=
  if entries = [] then none
  else
    let totalPages := (entries.map fun e => e.length / PageSize).sum
    match zoneLoop hhdmBase contiguousQuota fuel 0
      { mem := s.mem, entries := sortMemoryMapBySize entries, zones := 0, contigZones := 0,
        metadata := [] } with
    | none => none
    | some z =>
      let segmentStoreBytes := sizeofPmInfoSegment * (z.entries.length + z.contigZones + 1)
      let infoStoreSize := segmentStoreBytes + sizeofPageInfo * (totalPages + 1)
      match claimFromSmallest (roundUp infoStoreSize PageSize / PageSize) z.entries with
      | none => none
      | some (infoStoreAddr, entries) =>
        if infoStoreAddr = 0 then none
        else
          let segmentStore := roundUp infoStoreAddr sizeofPmInfoSegment + hhdmBase
          let infoStore := roundUp (segmentStore + segmentStoreBytes) sizeofPageInfo
          let l := addRegionSegments hhdmBase segmentStore infoStore
            { mem := z.mem, segmentIndex := 0, infoIndex := 0, tail := 0,
              metadata := z.metadata } entries
          (addZoneSegments hhdmBase segmentStore infoStore z.contigZones z.zones l).map fun l =>
            let (mem, head) := addFreeRuns hhdmBase l.mem 0 entries
            { s with mem := mem, zones := z.zones, segments := l.tail, freelist := head,
                     zoneCount := z.contigZones, segmentCount := l.segmentIndex,
                     pageInfos := ⟨infoStore, sizeofPageInfo * totalPages⟩,
                     metadata := l.metadata }

/-! ### The debug options -/

/-- Random words over the page at a physical address. -/
def trashWords (mem : ByteMem) (rng : ℕ → ℕ) (addr : ℕ) : ℕ → ByteMem
  | 0 => mem
  | n + 1 => (trashWords mem rng addr n).write64 (addr + 8 * n) (rng n)

/-- The loop over the words of a page, through a pointer to it.  A pointer below the direct map
faults. -/
def Pmm.trash (s : Pmm) (enabled : Bool) (access : ℕ) : Option Pmm :=
  if enabled then
    if access < hhdmBase then none
    else some { s with
      mem := trashWords s.mem s.rng (access - hhdmBase) (PageSize / 8)
      rng := fun i => s.rng (i + PageSize / 8) }
  else some s

/-- The page is trashed once for each of the pages that are given back. -/
def Pmm.trashMany (s : Pmm) (enabled : Bool) (access : ℕ) : ℕ → Option Pmm
  | 0 => some s
  | n + 1 => (s.trash hhdmBase enabled access).bind fun s => s.trashMany enabled access n

/-! ### `Alloc` -/

/-- The loop of `Alloc` over the bits of one zone, with `rest` bits to go: the length and the
start of the last run of clear bits. -/
def searchRun (get : ℕ → Bool) (count : ℕ) : ℕ → ℕ → ℕ → ℕ → ℕ × ℕ
  | 0, _, runningCount, runStartIndex => (runningCount, runStartIndex)
  | rest + 1, i, runningCount, runStartIndex =>
    if get i then searchRun get count rest (i + 1) 0 runStartIndex
    else
      let runStartIndex := if runningCount = 0 then i else runStartIndex
      if runningCount + 1 = count then (count, runStartIndex)
      else searchRun get count rest (i + 1) (runningCount + 1) runStartIndex

/-- The loop of `Alloc` over the zones: the block and the memory with its bits set, if a zone has
room for it. -/
def allocFromZones (mem : ByteMem) (count : ℕ) : ℕ → ℕ → Option (Option (ℕ × ByteMem))
  | fuel, zone =>
    if zone = 0 then some none
    else
      match fuel with
      | 0 => none
      | fuel + 1 =>
        let z := loadZone hhdmBase mem zone
        let bitmap := z.bitmap - hhdmBase
        let (runningCount, runStartIndex) := searchRun (mem.getBit bitmap) count z.count 0 0 0
        if runningCount = count then
          some (some (z.base + runStartIndex * PageSize, mem.setBits bitmap runStartIndex count))
        else allocFromZones mem count fuel z.next

/-- `Alloc`; `none` if the freelist is empty, for then an assertion fires.  The pointer that is
trashed in a zone is the physical address. -/
def Pmm.alloc (s : Pmm) (count : ℕ) : Option (ℕ × Pmm) :=
  if count = 0 then some (0, s)
  else if count = 1 then
    if s.freelist = 0 then none
    else
      let freeEntry := s.freelist - hhdmBase
      let runLength := s.mem.read64 (freeEntry + 8)
      let s' : Pmm :=
        if runLength > 1 then
          let nextHead := freeEntry + PageSize
          let mem := s.mem.write64 (nextHead + 8) (runLength - 1)
          let mem := mem.write64 nextHead (mem.read64 freeEntry)
          { s with mem := mem, freelist := s.freelist + PageSize }
        else { s with freelist := s.mem.read64 freeEntry }
      (s'.trash hhdmBase s.trashBeforeUse s.freelist).map fun s' => (freeEntry, s')
  else
    match allocFromZones hhdmBase s.mem count s.zoneCount s.zones with
    | none => none
    | some none => some (0, s)
    | some (some (base, mem)) =>
      ({ s with mem := mem }.trash hhdmBase s.trashBeforeUse base).map fun s' => (base, s')

/-! ### `Free` -/

/-- The loop of `Free` over the zones: the memory after the bits were cleared, if the address is
in a zone. -/
def freeToZones (mem : ByteMem) (base count : ℕ) : ℕ → ℕ → Option (Option ByteMem)
  | fuel, zone =>
    if zone = 0 then some none
    else
      match fuel with
      | 0 => none
      | fuel + 1 =>
        let z := loadZone hhdmBase mem zone
        if base < z.base ∨ base ≥ z.base + z.count * PageSize then
          freeToZones mem base count fuel z.next
        else
          some (some (mem.clearBits (z.bitmap - hhdmBase) ((base - z.base) / PageSize) count))

/-- `Free`. -/
def Pmm.free (s : Pmm) (base count : ℕ) : Option Pmm :=
  if base = 0 ∨ count = 0 then some s
  else
    let base := base - base % PageSize
    match freeToZones hhdmBase s.mem base count s.zoneCount s.zones with
    | none => none
    | some (some mem) =>
      { s with mem := mem }.trashMany hhdmBase s.trashAfterUse (base + hhdmBase) count
    | some none =>
      if count ≠ 1 then some s
      else
        { s with
          mem := (s.mem.write64 (base + 8) 1).write64 base s.freelist
          freelist := base + hhdmBase }.trash hhdmBase s.trashAfterUse (base + hhdmBase)

/-! ### `Lookup` -/

/-- The fields of an info segment. -/
structure PmInfoSegment where
  next : ℕ
  base : ℕ
  length : ℕ
  info : ℕ
deriving DecidableEq, Repr

def loadSegment (mem : ByteMem) (segment : ℕ) : PmInfoSegment where
  next := mem.read64 (segment - hhdmBase)
  base := mem.read64 (segment - hhdmBase + 8)
  length := mem.read64 (segment - hhdmBase + 16)
  info := mem.read64 (segment - hhdmBase + 24)

/-- The loop of `Lookup` with at most `fuel` segments to search. -/
def lookupFrom (mem : ByteMem) (physAddr : ℕ) : ℕ → ℕ → Option ℕ
  | fuel, scan =>
    if scan = 0 then some 0
    else
      match fuel with
      | 0 => none
      | fuel + 1 =>
        let segment := loadSegment hhdmBase mem scan
        if physAddr < segment.base ∨ physAddr ≥ segment.base + segment.length then
          lookupFrom mem physAddr fuel segment.next
        else some (segment.info + sizeofPageInfo * ((physAddr - segment.base) / PageSize))

/-- `Lookup`: the pointer to the page info of an address, 0 if there is none. -/
def Pmm.lookup (s : Pmm) (physAddr : ℕ) : Option ℕ :=
  lookupFrom hhdmBase s.mem physAddr s.segmentCount s.segments

end Northport.Memory
