/-
# The slab allocator (`Slab.cpp`)

A segment is a range of kernel memory with its header at the front; behind the header it is cut
into slots of one size.  With bounds checking on, a poisoned slab stands behind each slot.  The
free slots of a segment are in its intrusive list, whose links are stored in the slots; here the
list is a list of addresses.

Beside what the allocator stores, the state has the blocks that are in use.
-/
import Northport.Lib.Run
import Northport.Lib.Word

namespace Northport.Memory

open Lib List

/-- What an allocator is set up with.  A slot has room for the link of the list, and a segment for
its header. -/
structure SlabConfig where
  slabSize : ℕ
  slabsPerSeg : ℕ
  doBoundsCheck : Bool
  /-- `sizeof(SlabSegment)` -/
  segmentSize : ℕ
  slabSize_lt : slabSize < 2 ^ 32
  slabsPerSeg_lt : slabsPerSeg < 2 ^ 32
  segmentSize_pos : 0 < segmentSize
  segmentSize_lt : segmentSize < 2 ^ 32
  /-- `sizeof(SlabEntry)` -/
  entry_le : 8 ≤ slabSize
  header_le : alignUp segmentSize slabSize ≤ slabSize * slabsPerSeg

structure SlabSegment where
  base : ℕ
  freeCount : ℕ
  entries : List ℕ
deriving DecidableEq, Repr

structure SlabAlloc where
  segments : List SlabSegment
  /-- The blocks that `Alloc` has returned and that were not freed since. -/
  live : List ℕ
deriving DecidableEq, Repr

inductive SlabOp where
  /-- `Alloc`, and what `VMM::Alloc` returns if it is called. -/
  | alloc (base : Option ℕ)
  | free (ptr : ℕ)
deriving DecidableEq, Repr

namespace SlabConfig

variable (c : SlabConfig)

/-- `slabSize * slabsPerSeg`, a product of two 32-bit numbers. -/
def totalSize : ℕ := c.slabSize * c.slabsPerSeg % 2 ^ 32

/-- The header in whole slabs. -/
def header : ℕ := alignUp c.segmentSize c.slabSize

/-- The `freeCount` of a new segment. -/
def initialCount : ℕ :=
  if c.doBoundsCheck then sub64 c.slabsPerSeg (c.header / c.slabSize) / 2
  else sub64 c.slabsPerSeg (c.header / c.slabSize)

/-- The next slot behind `scan`. -/
def advance (scan : ℕ) : ℕ :=
  if c.doBoundsCheck then add64 (add64 scan c.slabSize) c.slabSize else add64 scan c.slabSize

/-- The loop of `CreateSegment`; `none` when its assertion fires. -/
def fillEntries (top : ℕ) : ℕ → ℕ → Option (List ℕ)
  | 0, _ => some []
  | count + 1, scan =>
    if scan < top then (fillEntries top count (c.advance scan)).map (scan :: ·) else none

def createSegment (base : ℕ) : Option SlabSegment :=
  (c.fillEntries (add64 base c.totalSize) c.initialCount (add64 base c.header)).map fun entries =>
    ⟨base, c.initialCount, entries⟩

end SlabConfig

namespace SlabSegment

/-- `PopFront` and `freeCount--`. -/
def pop (seg : SlabSegment) : Option ℕ × SlabSegment :=
  match seg.entries with
  | [] => (none, { seg with freeCount := sub64 seg.freeCount 1 })
  | ptr :: entries =>
    (some ptr, { seg with freeCount := sub64 seg.freeCount 1, entries := entries })

/-- `PushBack` and `freeCount++`. -/
def push (seg : SlabSegment) (ptr : ℕ) : SlabSegment :=
  { seg with freeCount := add64 seg.freeCount 1, entries := seg.entries ++ [ptr] }

end SlabSegment

namespace SlabAlloc

/-- The search of `Alloc` through the segments; `none` when its assertion fires. -/
def allocFrom : List SlabSegment → Option (Option ℕ × List SlabSegment)
  | [] => some (none, [])
  | seg :: segments =>
    if seg.freeCount = 0 then
      (allocFrom segments).map fun found => (found.1, seg :: found.2)
    else
      match seg.pop with
      | (none, _) => none
      | (some ptr, seg) => some (some ptr, seg :: segments)

/-- `Alloc`: the block that is returned, and the state afterwards. -/
def alloc (c : SlabConfig) (s : SlabAlloc) (base : Option ℕ) : Option (Option ℕ × SlabAlloc) :=
  match allocFrom s.segments with
  | none => none
  | some (some ptr, segments) => some (some ptr, ⟨segments, ptr :: s.live⟩)
  | some (none, _) =>
    match base with
    | none => some (none, s)
    | some base => (c.createSegment base).map fun latest =>
        (latest.pop.1, ⟨s.segments ++ [latest.pop.2], latest.pop.1.toList ++ s.live⟩)

/-- The search of `Free` through the segments. -/
def freeIn (c : SlabConfig) (ptr : ℕ) : List SlabSegment → Bool × List SlabSegment
  | [] => (false, [])
  | seg :: segments =>
    if ptr < seg.base ∨ add64 seg.base c.totalSize ≤ ptr then
      ((freeIn c ptr segments).1, seg :: (freeIn c ptr segments).2)
    else (true, seg.push ptr :: segments)

def free (c : SlabConfig) (s : SlabAlloc) (ptr : ℕ) : Bool × SlabAlloc :=
  ((freeIn c ptr s.segments).1, ⟨(freeIn c ptr s.segments).2, s.live.erase ptr⟩)

/-- `VMM::Alloc` returns a range that no segment has a part of. -/
def Fresh (c : SlabConfig) (s : SlabAlloc) (base : ℕ) : Prop :=
  base + c.totalSize ≤ wordSize ∧ ∀ seg ∈ s.segments,
    seg.base + c.totalSize ≤ base ∨ base + c.totalSize ≤ seg.base

instance (c : SlabConfig) (s : SlabAlloc) (base : ℕ) : Decidable (Fresh c s base) :=
  inferInstanceAs (Decidable (_ ∧ _))

/-- A step: `Alloc`, or `Free` of a block in use. -/
def step (c : SlabConfig) (s : SlabAlloc) : SlabOp → Option SlabAlloc
  | .alloc base => if ∀ b ∈ base, Fresh c s b then (s.alloc c base).map Prod.snd else none
  | .free ptr => if ptr ∈ s.live then some (s.free c ptr).2 else none

end SlabAlloc

/-! ### The slots -/

namespace SlabConfig

variable (c : SlabConfig)

/-- From one slot to the next. -/
def stride : ℕ := if c.doBoundsCheck then 2 * c.slabSize else c.slabSize

/-- How many slots there are behind the header. -/
def slotCount : ℕ :=
  if c.doBoundsCheck then (c.slabsPerSeg - c.header / c.slabSize) / 2
  else c.slabsPerSeg - c.header / c.slabSize

/-- The slots of the segment at an address. -/
def slots (base : ℕ) : List ℕ :=
  (range c.slotCount).map fun i => base + c.header + i * c.stride

/-- **A usable configuration**: a segment has a slot, and its size does not wrap. -/
def Usable : Prop := 0 < c.slotCount ∧ c.slabSize * c.slabsPerSeg < 2 ^ 32

lemma slabSize_pos : 0 < c.slabSize := lt_of_lt_of_le (by decide) c.entry_le

lemma header_eq : c.header = (c.segmentSize + c.slabSize - 1) / c.slabSize * c.slabSize :=
  alignUp_eq c.slabSize_pos (by
    have := c.slabSize_lt
    have := c.segmentSize_lt
    rw [wordSize]
    omega)

/-- The header takes whole slabs. -/
lemma header_div : c.header / c.slabSize * c.slabSize = c.header := by
  rw [header_eq, Nat.mul_div_cancel _ c.slabSize_pos]

lemma segmentSize_le_header : c.segmentSize ≤ c.header := by
  have h := Nat.lt_div_mul_add (a := c.segmentSize + c.slabSize - 1) c.slabSize_pos
  rw [header_eq]
  omega

lemma headerSlabs_pos : 0 < c.header / c.slabSize := by
  have h := c.segmentSize_le_header
  have hpos := c.segmentSize_pos
  rcases Nat.eq_zero_or_pos (c.header / c.slabSize) with hzero | hpos
  · have := c.header_div
    rw [hzero] at this
    omega
  · exact hpos

lemma headerSlabs_le : c.header / c.slabSize ≤ c.slabsPerSeg :=
  Nat.div_le_of_le_mul c.header_le

lemma initialCount_eq : c.initialCount = c.slotCount := by
  have hlt : c.slabsPerSeg < wordSize := c.slabsPerSeg_lt.trans (by decide)
  rw [initialCount, slotCount, sub64_eq hlt c.headerSlabs_le]

lemma slotCount_lt : c.slotCount < wordSize := by
  have hlt : c.slabsPerSeg < wordSize := c.slabsPerSeg_lt.trans (by decide)
  have hle := (Nat.sub_le c.slabsPerSeg (c.header / c.slabSize)).trans_lt hlt
  rw [slotCount]
  split_ifs
  · exact (Nat.div_le_self _ 2).trans_lt hle
  · exact hle

/-- The header and the slots, with what is poisoned, fill at most the slabs of the segment. -/
lemma header_add_slots_le : c.header + c.slotCount * c.stride ≤ c.slabSize * c.slabsPerSeg := by
  obtain ⟨k, hk⟩ := Nat.exists_eq_add_of_le c.headerSlabs_le
  have htotal : c.slabSize * c.slabsPerSeg = c.header + k * c.slabSize := by
    rw [hk, mul_comm, add_mul, c.header_div]
  rw [htotal]
  refine Nat.add_le_add_left ?_ _
  rw [slotCount, stride, hk, Nat.add_sub_cancel_left]
  split_ifs
  · rw [← mul_assoc]
    exact Nat.mul_le_mul_right _ (Nat.div_mul_le_self k 2)
  · exact le_rfl

lemma slabSize_le_stride : c.slabSize ≤ c.stride := by
  rw [stride]
  split_ifs <;> omega

variable {c}

lemma mem_slots {base p : ℕ} :
    p ∈ c.slots base ↔ ∃ i < c.slotCount, base + c.header + i * c.stride = p := by
  rw [slots, mem_map]
  simp only [mem_range]

/-- Slots lie behind each other. -/
lemma pairwise_slots (base : ℕ) : (c.slots base).Pairwise fun p q => p + c.stride ≤ q := by
  refine Pairwise.map _ (R := (· < ·)) (fun i j hij => ?_) pairwise_lt_range
  have hle : (i + 1) * c.stride ≤ j * c.stride := Nat.mul_le_mul_right _ hij
  rw [add_mul] at hle
  omega

lemma nodup_slots (base : ℕ) : (c.slots base).Nodup := by
  refine (pairwise_slots base).imp fun {p q} h heq => ?_
  have := c.slabSize_pos
  have := c.slabSize_le_stride
  omega

lemma Usable.totalSize_eq (h : c.Usable) : c.totalSize = c.slabSize * c.slabsPerSeg :=
  Nat.mod_eq_of_lt h.2

/-- In a usable segment the slots are inside, each with the slab behind it if that is poisoned. -/
lemma Usable.slot_le (h : c.Usable) {i : ℕ} (hi : i < c.slotCount) :
    c.header + i * c.stride + c.stride ≤ c.totalSize := by
  have hle : (i + 1) * c.stride ≤ c.slotCount * c.stride := Nat.mul_le_mul_right _ hi
  have htotal := c.header_add_slots_le
  rw [add_mul] at hle
  rw [h.totalSize_eq]
  omega

/-- When the size wraps, the last slot is outside of the segment. -/
lemma last_slot_outside (hpos : 0 < c.slotCount) (h : 2 ^ 32 ≤ c.slabSize * c.slabsPerSeg) :
    c.totalSize < c.header + (c.slotCount - 1) * c.stride + c.slabSize := by
  obtain ⟨k, hk⟩ := Nat.exists_eq_add_of_le c.headerSlabs_le
  obtain ⟨f, hf⟩ : ∃ f, c.slotCount = f + 1 := ⟨_, (Nat.succ_pred_eq_of_pos hpos).symm⟩
  obtain ⟨x, hx⟩ : ∃ x, x = c.slabSize * c.slabsPerSeg := ⟨_, rfl⟩
  have htotal : x = c.header + k * c.slabSize := by
    rw [hx, hk, mul_comm, add_mul, c.header_div]
  rw [totalSize, hf, Nat.add_sub_cancel]
  rw [slotCount, hk, Nat.add_sub_cancel_left] at hf
  rw [stride]
  split_ifs at hf ⊢ with hbounds
  · have hheader : c.slabSize ≤ c.header := by
      rw [← c.header_div]
      exact Nat.le_mul_of_pos_left _ c.headerSlabs_pos
    obtain ⟨r, hr, hkr⟩ : ∃ r, r ≤ 1 ∧ k = 2 * f + 2 + r := ⟨k % 2, by omega, by omega⟩
    have hmul : k * c.slabSize = f * (2 * c.slabSize) + 2 * c.slabSize + r * c.slabSize := by
      rw [hkr]
      ring
    -- an odd slab is left over only when there are at least four, and then two of them fit
    interval_cases r <;> omega
  · rw [hf, add_mul] at htotal
    omega

end SlabConfig

end Northport.Memory
