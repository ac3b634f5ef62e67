/-
# What the memory of the PMM holds

`PmmView` is what the PMM knows, apart from how it is stored: the free runs, the zones with the
bit of each of their pages, and the info segments.  All of them are lists of records in memory
that hold the view.  A view is valid when the free runs, the blocks that were handed out, the zones
and the records of the PMM itself lie in the ingested regions without overlapping; a write
inside one of them then leaves the others as they are.
-/
import Northport.Lib.RecordList
import Northport.Memory.Pmm

namespace Northport.Memory

open Lib

/-- A number of consecutive pages: a free run, or a block that was handed out. -/
structure Block where
  base : ℕ
  pages : ℕ
deriving DecidableEq, Repr

def Block.span (b : Block) : Span := ⟨b.base, b.pages * PageSize⟩

/-- A contiguous zone with the physical addresses of its header and its bitmap. -/
structure Zone where
  addr : ℕ
  bitmap : ℕ
  base : ℕ
  count : ℕ
deriving DecidableEq, Repr

def Zone.span (z : Zone) : Span := ⟨z.base, z.count * PageSize⟩

def Zone.header (z : Zone) : Span := ⟨z.addr, sizeofPmContigZone⟩

def Zone.bits (z : Zone) : Span := ⟨z.bitmap, roundUp z.count 8 / 8⟩

/-- The page `i` of the zone. -/
def Zone.page (z : Zone) (i : ℕ) : ℕ := z.base + i * PageSize

/-- An info segment with the physical address of its header and the pointer to its page infos. -/
structure Segment where
  addr : ℕ
  base : ℕ
  length : ℕ
  info : ℕ
deriving DecidableEq, Repr

def Segment.header (g : Segment) : Span := ⟨g.addr, sizeofPmInfoSegment⟩

variable {hhdmBase : ℕ} {mem mem' : ByteMem} {ptr next : ℕ}

/-! ### The records -/

/-- A free run, stored in its own first page. -/
def FreeAt (hhdmBase : ℕ) (mem : ByteMem) (ptr : ℕ) (r : Block) (next : ℕ) : Prop :=
  ptr = r.base + hhdmBase ∧ mem.read64 (r.base + 8) = r.pages ∧ mem.read64 r.base = next

def ZoneAt (hhdmBase : ℕ) (mem : ByteMem) (ptr : ℕ) (z : Zone) (next : ℕ) : Prop :=
  ptr = z.addr + hhdmBase ∧
    loadZone hhdmBase mem ptr = ⟨z.bitmap + hhdmBase, z.base, z.count, next⟩

def SegmentAt (hhdmBase : ℕ) (mem : ByteMem) (ptr : ℕ) (g : Segment) (next : ℕ) : Prop :=
  ptr = g.addr + hhdmBase ∧ loadSegment hhdmBase mem ptr = ⟨next, g.base, g.length, g.info⟩

/-- The words at the start of a span are read from its bytes. -/
lemma read64_span_congr {s : Span} (hmem : ∀ a, s.Contains a → mem' a = mem a) {k : ℕ}
    (hk : k + 8 ≤ s.length) : mem'.read64 (s.base + k) = mem.read64 (s.base + k) :=
  ByteMem.read64_congr fun a ha hb => hmem a ⟨by omega, by omega⟩

lemma FreeAt.congr {r : Block} (h : FreeAt hhdmBase mem ptr r next) (hr : 0 < r.pages)
    (hmem : ∀ a, r.span.Contains a → mem' a = mem a) : FreeAt hhdmBase mem' ptr r next := by
  obtain ⟨hptr, hpages, hnext⟩ := h
  have hsize : 16 ≤ r.span.length := by
    simp only [Block.span, PageSize]
    omega
  exact ⟨hptr, (read64_span_congr hmem (k := 8) (by omega)).trans hpages,
    (read64_span_congr hmem (k := 0) (by omega)).trans hnext⟩

lemma ZoneAt.congr {z : Zone} (h : ZoneAt hhdmBase mem ptr z next)
    (hmem : ∀ a, z.header.Contains a → mem' a = mem a) : ZoneAt hhdmBase mem' ptr z next := by
  obtain ⟨rfl, hload⟩ := h
  have hsame : ∀ k, k + 8 ≤ 40 → mem'.read64 (z.addr + k) = mem.read64 (z.addr + k) :=
    fun k hk => read64_span_congr (s := z.header) hmem hk
  refine ⟨rfl, ?_⟩
  rw [← hload]
  simp only [loadZone, Nat.add_sub_cancel, hsame 8 (by decide), hsame 16 (by decide),
    hsame 24 (by decide), hsame 32 (by decide)]

lemma SegmentAt.congr {g : Segment} (h : SegmentAt hhdmBase mem ptr g next)
    (hmem : ∀ a, g.header.Contains a → mem' a = mem a) : SegmentAt hhdmBase mem' ptr g next := by
  obtain ⟨rfl, hload⟩ := h
  have hsame : ∀ k, k + 8 ≤ 32 → mem'.read64 (g.addr + k) = mem.read64 (g.addr + k) :=
    fun k hk => read64_span_congr (s := g.header) hmem hk
  have hnext : mem'.read64 g.addr = mem.read64 g.addr := hsame 0 (by decide)
  refine ⟨rfl, ?_⟩
  rw [← hload]
  simp only [loadSegment, Nat.add_sub_cancel, hnext, hsame 8 (by decide), hsame 16 (by decide),
    hsame 24 (by decide)]

/-! ### The view -/

/-- What the PMM knows: the free runs, the zones and which of their pages are taken, the info
segments, the spans in which these and the page infos are stored, and the array of these. -/
structure PmmView where
  runs : List Block
  zones : List Zone
  bit : Zone → ℕ → Bool
  segments : List Segment
  info : List Span
  pageInfos : Span

/-- The spans of the zone headers, the bitmaps and the page info. -/
def PmmView.records (v : PmmView) : List Span :=
  v.zones.map Zone.header ++ v.zones.map Zone.bits ++ v.info

/-- The memory of the PMM holds the view. -/
structure Pmm.Holds (hhdmBase : ℕ) (s : Pmm) (v : PmmView) : Prop where
  freelist : RecordList (FreeAt hhdmBase s.mem) s.freelist v.runs
  zoneList : RecordList (ZoneAt hhdmBase s.mem) s.zones v.zones
  zones_le : v.zones.length ≤ s.zoneCount
  bits : ∀ z ∈ v.zones, ∀ i < z.count, s.mem.getBit z.bitmap i = v.bit z i
  segmentList : RecordList (SegmentAt hhdmBase s.mem) s.segments v.segments
  segments_le : v.segments.length ≤ s.segmentCount
  pageInfos : s.pageInfos = v.pageInfos
  metadata : ∀ m ∈ s.metadata, ∀ a, m.Contains a → 0 < cover v.records a

/-- The bytes that hold the view. -/
def PmmView.stored (v : PmmView) (a : ℕ) : Prop :=
  0 < cover (v.runs.map Block.span) a ∨ 0 < cover v.records a

/-- A run holds its record, and the records of the segments are in the page info. -/
structure PmmView.Stored (v : PmmView) : Prop where
  run : ∀ r ∈ v.runs, 0 < r.pages
  segment : ∀ g ∈ v.segments, ∀ a, g.header.Contains a → 0 < cover v.info a

/-- The byte of a bit is in the bitmap. -/
lemma Zone.bits_contains {z : Zone} {i : ℕ} (hi : i < z.count) :
    z.bits.Contains (z.bitmap + i / 8) := by
  have hround : z.count ≤ roundUp z.count 8 := (le_roundUp (by decide)).1
  have hmod := roundUp_mod z.count 8
  simp only [Zone.bits, Span.Contains]
  omega

/-- A write outside of the spans that hold the view changes nothing of it. -/
lemma Pmm.Holds.frame {s : Pmm} {v : PmmView} (h : s.Holds hhdmBase v) (hv : v.Stored)
    (rng : ℕ → ℕ) (hmem : ∀ a, v.stored a → mem a = s.mem a) :
    ({ s with mem := mem, rng := rng } : Pmm).Holds hhdmBase v := by
  have hrecords : ∀ a, 0 < cover (v.zones.map Zone.header) a ∨
      0 < cover (v.zones.map Zone.bits) a ∨ 0 < cover v.info a → mem a = s.mem a := by
    intro a ha
    refine hmem a (.inr ?_)
    simp only [PmmView.records, cover_append]
    omega
  refine { h with freelist := ?_, zoneList := ?_, bits := fun z hz i hi => ?_, segmentList := ?_ }
  · exact h.freelist.congr fun r hr p q hp => hp.congr (hv.run r hr) fun a ha =>
      hmem a (.inl (cover_map_pos hr ha))
  · exact h.zoneList.congr fun z hz p q hp => hp.congr fun a ha =>
      hrecords a (.inl (cover_map_pos hz ha))
  · have hbyte : mem (z.bitmap + i / 8) = s.mem (z.bitmap + i / 8) :=
      hrecords _ (.inr (.inl (cover_map_pos hz (Zone.bits_contains hi))))
    show mem.getBit z.bitmap i = _
    rw [← h.bits z hz i hi, ByteMem.getBit, ByteMem.getBit, hbyte]
  · exact h.segmentList.congr fun g hg p q hp => hp.congr fun a ha =>
      hrecords a (.inr (.inr (hv.segment g hg a ha)))

/-! ### Valid views -/

/-- How often an address is used: by free runs, by blocks from the freelist, by zones and by the
records of the PMM. -/
def PmmView.usage (v : PmmView) (singles : List Block) (a : ℕ) : ℕ :=
  cover (v.runs.map Block.span) a + cover (singles.map Block.span) a +
    cover (v.zones.map Zone.span) a + cover v.records a

/-- The regions that were given to the PMM: pairwise disjoint, page aligned, not at address 0,
and inside the direct map. -/
structure Usable (hhdmBase : ℕ) (regions : List MemmapEntry) : Prop where
  disjoint : regions.Pairwise Span.Disjoint
  aligned : ∀ e ∈ regions, e.base % PageSize = 0 ∧ e.length % PageSize = 0
  nonzero : ∀ e ∈ regions, e.base ≠ 0
  mapped : ∀ e ∈ regions, e.base + e.length + hhdmBase < 2 ^ 64

lemma Usable.sublist {l regions : List MemmapEntry} (h : Usable hhdmBase regions)
    (hl : l.Sublist regions) : Usable hhdmBase l where
  disjoint := h.disjoint.sublist hl
  aligned e he := h.aligned e (hl.subset he)
  nonzero e he := h.nonzero e (hl.subset he)
  mapped e he := h.mapped e (hl.subset he)

lemma Usable.of_cover {regions : List MemmapEntry} {a : ℕ} (h : Usable hhdmBase regions)
    (ha : 0 < cover regions a) : a ≠ 0 ∧ a + hhdmBase < 2 ^ 64 := by
  obtain ⟨e, he, hlo, hhi⟩ := cover_pos.mp ha
  have hne := h.nonzero e he
  have hmapped := h.mapped e he
  omega

/-- The blocks that were handed out, apart by where they come from. -/
def singles (blocks : List Block) : List Block := blocks.filter fun b => b.pages = 1

def zoneBlocks (blocks : List Block) : List Block := blocks.filter fun b => b.pages ≠ 1

/-- **A valid view**, with the regions and the blocks that were handed out. -/
structure PmmView.Valid (v : PmmView) (regions : List MemmapEntry) (blocks : List Block) : Prop
    extends v.Stored where
  usage_le : ∀ a, v.usage (singles blocks) a ≤ cover regions a
  run_ok : ∀ r ∈ v.runs, r.base % PageSize = 0
  single_ok : ∀ b ∈ singles blocks, b.base % PageSize = 0
  zone_ok : ∀ z ∈ v.zones, z.base % PageSize = 0
  /-- A longer block is a part of a zone, ... -/
  block_ok : ∀ b ∈ zoneBlocks blocks, 0 < b.pages ∧
    ∃ z ∈ v.zones, ∃ k, b.base = z.page k ∧ k + b.pages ≤ z.count
  block_disjoint : ∀ a, cover ((zoneBlocks blocks).map Block.span) a ≤ 1
  /-- ... and the bits of its pages are set. -/
  bits_set : ∀ z ∈ v.zones, ∀ i < z.count,
    0 < cover ((zoneBlocks blocks).map Block.span) (z.page i) → v.bit z i = true

end Northport.Memory
