/-
# Sequences of `Alloc` and `Free` on a slab allocator

In a usable configuration the free entries of a segment and its blocks in use are always its
slots, each once.  A segment without a slot, or one whose size wraps, breaks this as soon as it is
created.
-/
import Northport.Memory.Slab

namespace Northport.Memory

open Lib List Option SlabConfig

/-- The address is in the range of the segment at `base`. -/
def SlabConfig.Within (c : SlabConfig) (base p : ℕ) : Prop := base ≤ p ∧ p < base + c.totalSize

instance (c : SlabConfig) (base p : ℕ) : Decidable (c.Within base p) :=
  inferInstanceAs (Decidable (_ ∧ _))

namespace SlabSegment

/-- **A segment is sound**: it counts its free entries, which together with the blocks in use are
its slots, each once.  The slots are inside the segment, behind its header, and overlap neither each
other nor a poisoned slab. -/
structure Sound (c : SlabConfig) (live : List ℕ) (seg : SlabSegment) : Prop where
  freeCount : seg.freeCount = seg.entries.length
  slots : (seg.entries ++ live.filter fun p => c.Within seg.base p).Perm (c.slots seg.base)
  inside : ∀ p ∈ c.slots seg.base,
    seg.base + c.segmentSize ≤ p ∧ p + c.slabSize ≤ seg.base + c.totalSize
  apart : (c.slots seg.base).Pairwise fun p q => p + c.slabSize ≤ q
  poison : c.doBoundsCheck = true → ∀ p ∈ c.slots seg.base, ∀ q ∈ c.slots seg.base,
    p + c.slabSize ≤ q + c.slabSize ∨ q + 2 * c.slabSize ≤ p

variable {c : SlabConfig} {seg : SlabSegment} {live live' : List ℕ} {p : ℕ}

variable (h : seg.Sound c live)

include h

lemma Sound.congr
    (hlive : (live'.filter fun p => c.Within seg.base p).Perm (live.filter fun p => c.Within seg.base p)) :
    seg.Sound c live' :=
  ⟨h.freeCount, (hlive.append_left _).trans h.slots, h.inside, h.apart, h.poison⟩

lemma Sound.contains (hp : p ∈ c.slots seg.base) : c.Within seg.base p := by
  have hpos := c.slabSize_pos
  obtain ⟨hlo, hhi⟩ := h.inside p hp
  exact ⟨by omega, by omega⟩

/-- The first free entry becomes a block in use. -/
lemma Sound.take {entries : List ℕ} (he : seg.entries = p :: entries) :
    Sound c (p :: live)
      { seg with freeCount := sub64 seg.freeCount 1, entries := entries } := by
  have hlength : seg.freeCount = entries.length + 1 := by
    rw [h.freeCount, he, length_cons]
  have hlt : seg.freeCount < wordSize := by
    have hle := h.slots.length_eq
    have hcount := c.slotCount_lt
    rw [SlabConfig.slots, length_map, length_range, length_append] at hle
    have := h.freeCount
    omega
  have hp : c.Within seg.base p := by
    refine h.contains (h.slots.mem_iff.mp ?_)
    rw [he]
    exact mem_append_left _ mem_cons_self
  refine ⟨?_, ?_, h.inside, h.apart, h.poison⟩
  · show sub64 seg.freeCount 1 = entries.length
    rw [sub64_eq hlt (by omega)]
    omega
  · refine Perm.trans ?_ h.slots
    rw [he]
    rw [filter_cons_of_pos (by simpa using hp)]
    exact perm_middle

/-- A block in use becomes the last free entry. -/
lemma Sound.give (hlive : live.Perm (p :: live')) (hp : c.Within seg.base p) :
    (seg.push p).Sound c live' := by
  have hslots : (seg.entries ++ p :: live'.filter fun p => c.Within seg.base p).Perm
      (c.slots seg.base) := by
    refine Perm.trans (Perm.append_left _ ?_) h.slots
    have hfilter := (hlive.filter fun p => c.Within seg.base p).symm
    rw [filter_cons_of_pos (by simpa using hp)] at hfilter
    exact hfilter
  have hlt : seg.freeCount + 1 < wordSize := by
    have hle := hslots.length_eq
    have hcount := c.slotCount_lt
    rw [SlabConfig.slots, length_map, length_range, length_append,
      length_cons] at hle
    have := h.freeCount
    omega
  refine ⟨?_, ?_, h.inside, h.apart, h.poison⟩
  · show add64 seg.freeCount 1 = (seg.entries ++ [p]).length
    rw [add64_eq hlt, h.freeCount, length_append, length_singleton]
  · show (seg.entries ++ [p] ++ live'.filter fun p => c.Within seg.base p).Perm _
    rw [append_assoc]
    exact hslots

end SlabSegment

namespace SlabConfig

variable {c : SlabConfig} {base : ℕ}

/-- The slots of a usable segment, of which one is taken. -/
lemma Usable.sound (h : c.Usable) {live : List ℕ}
    (hlive : ∀ p ∈ live, p < base ∨ base + c.totalSize ≤ p) :
    SlabSegment.Sound c live ⟨base, c.slotCount, c.slots base⟩ := by
  have hstride := c.slabSize_le_stride
  refine ⟨?_, ?_, fun p hp => ?_, ?_, fun hbounds p hp q hq => ?_⟩
  · show c.slotCount = (c.slots base).length
    rw [slots, length_map, length_range]
  · have hnone : (live.filter fun p => c.Within base p) = [] := by
      refine filter_eq_nil_iff.mpr fun p hp => ?_
      have := hlive p hp
      rw [decide_eq_true_eq]
      rintro ⟨hlo, hhi⟩
      omega
    rw [hnone, append_nil]
  · obtain ⟨i, hi, rfl⟩ := mem_slots.mp hp
    have hle := h.slot_le hi
    have hheader := c.segmentSize_le_header
    constructor <;> omega
  · exact (pairwise_slots base).imp fun {p q} h => by omega
  · have hstride : c.stride = 2 * c.slabSize := if_pos hbounds
    obtain ⟨i, hi, rfl⟩ := mem_slots.mp hp
    obtain ⟨j, hj, rfl⟩ := mem_slots.mp hq
    rw [hstride]
    rcases Nat.lt_or_ge j i with hij | hij
    · have hle : (j + 1) * (2 * c.slabSize) ≤ i * (2 * c.slabSize) := Nat.mul_le_mul_right _ hij
      rw [add_mul] at hle
      omega
    · have hle : i * (2 * c.slabSize) ≤ j * (2 * c.slabSize) := Nat.mul_le_mul_right _ hij
      omega

/-- The loop of `CreateSegment` goes through the slots, and its assertion holds. -/
lemma Usable.fillEntries_eq (h : c.Usable) (hbase : base + c.totalSize < wordSize) (count i : ℕ)
    (hi : i + count = c.slotCount) :
    c.fillEntries (base + c.totalSize) count (base + c.header + i * c.stride) =
      some ((range' i count).map fun i => base + c.header + i * c.stride) := by
  induction count generalizing i with
  | zero => rfl
  | succ count ih =>
    have hle := h.slot_le (i := i) (by omega)
    have hpos := c.slabSize_pos
    have hstride := c.slabSize_le_stride
    have hnext : c.advance (base + c.header + i * c.stride) =
        base + c.header + (i + 1) * c.stride := by
      rw [add_mul, advance]
      by_cases hbounds : c.doBoundsCheck
      · have hstride : c.stride = 2 * c.slabSize := if_pos hbounds
        have hone : add64 (base + c.header + i * c.stride) c.slabSize =
            base + c.header + i * c.stride + c.slabSize := add64_eq (by omega)
        rw [if_pos hbounds, add64_eq (by omega)]
        omega
      · have hstride : c.stride = c.slabSize := if_neg hbounds
        rw [if_neg hbounds, add64_eq (by omega)]
        omega
    rw [fillEntries, if_pos (by omega), hnext, ih (i + 1) (by omega)]
    rfl

/-- **A new segment** has all its slots in the list. -/
lemma Usable.createSegment_eq (h : c.Usable) (hbase : base + c.totalSize < wordSize) :
    c.createSegment base = some ⟨base, c.slotCount, c.slots base⟩ := by
  have hheader := h.slot_le h.1
  have hfill := h.fillEntries_eq hbase c.slotCount 0 (zero_add _)
  rw [zero_mul, add_zero] at hfill
  rw [createSegment, initialCount_eq, add64_eq hbase, add64_eq (by omega), hfill, slots,
    range_eq_range']
  rfl

/-- The assertion fires for a range that ends with the address space. -/
lemma Usable.createSegment_top (h : c.Usable) (hbase : base + c.totalSize = wordSize) :
    c.createSegment base = none := by
  obtain ⟨n, hn⟩ := Nat.exists_eq_succ_of_ne_zero h.1.ne'
  rw [createSegment, initialCount_eq, hn, add64, hbase, Nat.mod_self, fillEntries,
    if_neg (Nat.not_lt_zero _)]
  rfl

end SlabConfig

namespace SlabAlloc

variable {c : SlabConfig} {s s' : SlabAlloc} {p : ℕ}

/-! ### The searches -/

/-- `Alloc` uses the first segment that has a free entry. -/
lemma allocFrom_cases (segments : List SlabSegment) :
    (∀ seg ∈ segments, seg.freeCount = 0) ∧ allocFrom segments = some (none, segments) ∨
    ∃ pre seg post, segments = pre ++ seg :: post ∧ seg.freeCount ≠ 0 ∧
      allocFrom segments = seg.pop.1.map fun p => (some p, pre ++ seg.pop.2 :: post) := by
  induction segments with
  | nil => exact .inl ⟨nofun, rfl⟩
  | cons seg segments ih =>
    rw [allocFrom]
    by_cases hfree : seg.freeCount = 0
    · rw [if_pos hfree]
      rcases ih with ⟨hall, heq⟩ | ⟨pre, seg', post, rfl, hne, heq⟩
      · refine .inl ⟨forall_mem_cons.mpr ⟨hfree, hall⟩, ?_⟩
        rw [heq]
        rfl
      · refine .inr ⟨seg :: pre, seg', post, rfl, hne, ?_⟩
        rw [heq]
        cases seg'.pop.1 <;> rfl
    · rw [if_neg hfree]
      refine .inr ⟨[], seg, segments, rfl, hfree, ?_⟩
      rcases seg.pop with ⟨_ | p, seg'⟩ <;> rfl

/-- `Free` uses the first segment whose range contains the block. -/
lemma freeIn_cases {segments : List SlabSegment} (hfits : ∀ seg ∈ segments,
    seg.base + c.totalSize < wordSize) (h : ∃ seg ∈ segments, c.Within seg.base p) :
    ∃ pre seg post, segments = pre ++ seg :: post ∧ c.Within seg.base p ∧
      freeIn c p segments = (true, pre ++ seg.push p :: post) := by
  induction segments with
  | nil =>
    obtain ⟨seg, hseg, -⟩ := h
    cases hseg
  | cons seg segments ih =>
    obtain ⟨hfit, hfits⟩ := forall_mem_cons.mp hfits
    rw [freeIn, add64_eq hfit]
    by_cases hwithin : c.Within seg.base p
    · refine ⟨[], seg, segments, rfl, hwithin, if_neg ?_⟩
      obtain ⟨hlo, hhi⟩ := hwithin
      omega
    · obtain ⟨pre, seg', post, rfl, hwithin', heq⟩ := ih hfits (by
        obtain ⟨seg', hseg', hwithin'⟩ := h
        rcases mem_cons.mp hseg' with rfl | hseg'
        · exact absurd hwithin' hwithin
        · exact ⟨seg', hseg', hwithin'⟩)
      refine ⟨seg :: pre, seg', post, rfl, hwithin', ?_⟩
      rw [if_pos (by by_contra hnot; exact hwithin ⟨by omega, by omega⟩), heq]
      rfl

/-! ### The invariant -/

/-- **The allocator is sound**: all segments are, no block was given out twice, and every block in
use is a slot. -/
structure Sound (c : SlabConfig) (s : SlabAlloc) : Prop where
  segments : ∀ seg ∈ s.segments, seg.Sound c s.live
  nodup : s.live.Nodup
  slot : ∀ p ∈ s.live, ∃ seg ∈ s.segments, p ∈ c.slots seg.base

/-- A new segment is only made in a usable configuration. -/
def CreatesUsable (c : SlabConfig) (s : SlabAlloc) : SlabOp → Prop
  | .alloc base => (s.step c (.alloc base)).isSome → base.isSome →
      (∀ seg ∈ s.segments, seg.freeCount = 0) → c.Usable
  | .free _ => True

/-- The ranges of two segments have nothing in common. -/
def Apart (c : SlabConfig) (seg seg' : SlabSegment) : Prop :=
  seg.base + c.totalSize ≤ seg'.base ∨ seg'.base + c.totalSize ≤ seg.base

structure Inv (c : SlabConfig) (s : SlabAlloc) : Prop extends Sound c s where
  usable : s.segments ≠ [] → c.Usable
  fits : ∀ seg ∈ s.segments, seg.base + c.totalSize < wordSize
  apart : s.segments.Pairwise (Apart c)

lemma inv_init : Inv c ⟨[], []⟩ :=
  ⟨⟨nofun, nodup_nil, nofun⟩,
    fun h => absurd rfl h, nofun, Pairwise.nil⟩

section

variable (hs : Inv c s) {seg : SlabSegment} {post pre : List SlabSegment} {base : ℕ}
include hs

/-- A block that is free in a segment is not in use. -/
lemma Inv.not_live (hseg : seg ∈ s.segments) (hp : p ∈ seg.entries) : p ∉ s.live := by
  intro hlive
  have hsound := hs.segments seg hseg
  have hslot : p ∈ c.slots seg.base := hsound.slots.mem_iff.mp (mem_append_left _ hp)
  have hnodup := hsound.slots.nodup_iff.mpr (c.nodup_slots seg.base)
  refine (nodup_append.mp hnodup).2.2 p hp p ?_ rfl
  exact mem_filter.mpr ⟨hlive, decide_eq_true (hsound.contains hslot)⟩

/-- **The frame**: when one segment gets or gives away a block of its own range, the other segments
have the same blocks in use as before. -/
lemma Inv.replace {seg' : SlabSegment} {live : List ℕ} (hsegments : s.segments = pre ++ seg :: post)
    (hbase : seg'.base = seg.base) (hseg' : seg'.Sound c live) (hnodup : live.Nodup)
    (hslot : ∀ q ∈ live, ∃ k ∈ s.segments, q ∈ c.slots k.base) (hp : c.Within seg.base p)
    (hlive : live.Perm (p :: s.live) ∨ s.live.Perm (p :: live)) :
    Inv c ⟨pre ++ seg' :: post, live⟩ := by
  have hmem : ∀ k, k ∈ s.segments ↔ k = seg ∨ k ∈ pre ∨ k ∈ post := by
    intro k
    rw [hsegments, mem_append, mem_cons]
    tauto
  have hother : ∀ k, k ∈ pre ∨ k ∈ post → k.Sound c live := by
    intro k hk
    have hnot : ¬ c.Within k.base p := by
      have hapart : Apart c k seg ∨ Apart c seg k := by
        have hpairwise := hs.apart
        rw [hsegments, pairwise_append, pairwise_cons] at hpairwise
        rcases hk with hk | hk
        · exact .inl (hpairwise.2.2 k hk seg mem_cons_self)
        · exact .inr (hpairwise.2.1.1 k hk)
      obtain ⟨hlo, hhi⟩ := hp
      rintro ⟨hlo', hhi'⟩
      rcases hapart with (h | h) | (h | h) <;> omega
    have hfilter : ∀ l : List ℕ, (p :: l).filter (fun q => c.Within k.base q) =
        l.filter fun q => c.Within k.base q :=
      fun l => filter_cons_of_neg (by simpa using hnot)
    refine (hs.segments k ((hmem k).mpr (.inr hk))).congr ?_
    rcases hlive with h | h
    · exact (h.filter _).trans (by rw [hfilter])
    · exact ((h.filter _).trans (by rw [hfilter])).symm
  have hcases : ∀ k ∈ pre ++ seg' :: post, k = seg' ∨ k ∈ pre ∨ k ∈ post := by
    intro k hk
    rw [mem_append, mem_cons] at hk
    tauto
  refine ⟨⟨fun k hk => ?_, hnodup, fun q hq => ?_⟩, fun _ => ?_, fun k hk => ?_, ?_⟩
  · rcases hcases k hk with rfl | hk
    · exact hseg'
    · exact hother k hk
  · obtain ⟨k, hk, hq⟩ := hslot q hq
    rcases (hmem k).mp hk with rfl | hk
    · exact ⟨seg', by simp, hbase ▸ hq⟩
    · refine ⟨k, ?_, hq⟩
      rw [mem_append]
      tauto
  · exact hs.usable (by rw [hsegments]; simp)
  · rcases hcases k hk with rfl | hk
    · rw [hbase]
      exact hs.fits seg ((hmem seg).mpr (.inl rfl))
    · exact hs.fits k ((hmem k).mpr (.inr hk))
  · have hpairwise := hs.apart
    rw [hsegments, pairwise_append] at hpairwise
    simp only [pairwise_append, pairwise_cons, mem_cons, Apart, hbase] at hpairwise ⊢
    refine ⟨hpairwise.1, hpairwise.2.1, fun k hk k' hk' => ?_⟩
    rcases hk' with rfl | hk'
    · rw [hbase]
      exact hpairwise.2.2 k hk seg (.inl rfl)
    · exact hpairwise.2.2 k hk k' (.inr hk')

/-! ### The steps -/

/-- The first free entry of a segment is given out. -/
lemma Inv.take {entries : List ℕ} (hsegments : s.segments = pre ++ seg :: post)
    (he : seg.entries = p :: entries) : Inv c ⟨pre ++ seg.pop.2 :: post, p :: s.live⟩ := by
  have hseg : seg ∈ s.segments := by
    rw [hsegments]
    exact mem_append_right _ mem_cons_self
  have hsound := hs.segments seg hseg
  have hfree : p ∈ seg.entries := he ▸ mem_cons_self
  have hslot : p ∈ c.slots seg.base := hsound.slots.mem_iff.mp (mem_append_left _ hfree)
  have hpop : seg.pop.2 =
      { seg with freeCount := sub64 seg.freeCount 1, entries := entries } := by
    rw [SlabSegment.pop, he]
  refine hs.replace hsegments (by rw [hpop]) ?_
    (nodup_cons.mpr ⟨hs.not_live hseg hfree, hs.nodup⟩)
    (forall_mem_cons.mpr ⟨⟨seg, hseg, hslot⟩, hs.slot⟩) (hsound.contains hslot) (.inl (Perm.refl _))
  rw [hpop]
  exact hsound.take he

/-- A segment with a free entry gives one out. -/
lemma Inv.exists_pop (hseg : seg ∈ s.segments) (hfree : seg.freeCount ≠ 0) :
    ∃ p entries, seg.entries = p :: entries ∧ seg.pop.1 = some p := by
  cases he : seg.entries with
  | nil => exact absurd ((hs.segments seg hseg).freeCount.trans (congrArg length he)) hfree
  | cons p entries => exact ⟨p, entries, rfl, by rw [SlabSegment.pop, he]⟩

/-- A new segment, before its first entry is taken. -/
lemma Inv.append (hc : c.Usable) (hfresh : Fresh c s base) (hbase : base + c.totalSize < wordSize) :
    Inv c ⟨s.segments ++ [⟨base, c.slotCount, c.slots base⟩], s.live⟩ := by
  have hlive : ∀ q ∈ s.live, q < base ∨ base + c.totalSize ≤ q := by
    intro q hq
    obtain ⟨seg, hseg, hslot⟩ := hs.slot q hq
    obtain ⟨hlo, hhi⟩ := (hs.segments seg hseg).contains hslot
    rcases hfresh.2 seg hseg with h | h <;> omega
  refine ⟨⟨?_, hs.nodup, fun q hq => ?_⟩, fun _ => hc, ?_, ?_⟩
  · refine forall_mem_append.mpr ⟨hs.segments, ?_⟩
    exact forall_mem_singleton.mpr (hc.sound hlive)
  · obtain ⟨seg, hseg, hslot⟩ := hs.slot q hq
    exact ⟨seg, mem_append_left _ hseg, hslot⟩
  · exact forall_mem_append.mpr ⟨hs.fits, forall_mem_singleton.mpr hbase⟩
  · refine pairwise_append.mpr ⟨hs.apart, pairwise_singleton _ _, fun seg hseg k hk => ?_⟩
    obtain rfl := mem_singleton.mp hk
    exact hfresh.2 seg hseg

/-- `Alloc` from a new segment. -/
lemma Inv.create (hc : c.Usable) (hfresh : Fresh c s base) {latest : SlabSegment}
    (hlatest : c.createSegment base = some latest) :
    Inv c ⟨s.segments ++ [latest.pop.2], latest.pop.1.toList ++ s.live⟩ := by
  rcases hfresh.1.lt_or_eq with hbase | hbase
  · obtain rfl := some.inj ((hc.createSegment_eq hbase).symm.trans hlatest)
    have happend := hs.append hc hfresh hbase
    obtain ⟨p, entries, he, hpop⟩ := happend.exists_pop (mem_append_right _
      (mem_singleton_self _)) hc.1.ne'
    rw [hpop]
    exact happend.take rfl he
  · exact absurd ((hc.createSegment_top hbase).symm.trans hlatest) (by simp)

lemma Inv.alloc {base : Option ℕ} (hop : CreatesUsable c s (.alloc base))
    (h : s.step c (.alloc base) = some s') : Inv c s' := by
  have hop := hop (h ▸ rfl)
  obtain ⟨hfresh, h⟩ := ite_none_right_eq_some.mp h
  obtain ⟨⟨found, s₁⟩, halloc, rfl⟩ := map_eq_some_iff.mp h
  rw [alloc.eq_def] at halloc
  rcases allocFrom_cases s.segments with ⟨hall, heq⟩ | ⟨pre, seg, post, hsegments, hfree, heq⟩
  · rw [heq] at halloc
    cases base with
    | none =>
      cases halloc
      exact hs
    | some base =>
      obtain ⟨latest, hlatest, hpair⟩ := map_eq_some_iff.mp halloc
      cases hpair
      exact hs.create (hop rfl hall) (hfresh base rfl) hlatest
  · have hseg : seg ∈ s.segments := by
      rw [hsegments]
      exact mem_append_right _ mem_cons_self
    obtain ⟨p, entries, he, hpop⟩ := hs.exists_pop hseg hfree
    rw [heq, hpop] at halloc
    cases halloc
    exact hs.take hsegments he

lemma Inv.free (h : s.step c (.free p) = some s') : Inv c s' := by
  obtain ⟨hlive, h⟩ := ite_none_right_eq_some.mp h
  cases h
  have hwithin : ∃ seg ∈ s.segments, c.Within seg.base p := by
    obtain ⟨seg, hseg, hslot⟩ := hs.slot p hlive
    exact ⟨seg, hseg, (hs.segments seg hseg).contains hslot⟩
  obtain ⟨pre, seg, post, hsegments, hp, heq⟩ := freeIn_cases hs.fits hwithin
  have hseg : seg ∈ s.segments := by
    rw [hsegments]
    exact mem_append_right _ mem_cons_self
  have hperm := perm_cons_erase hlive
  rw [free, heq]
  refine hs.replace hsegments rfl ((hs.segments seg hseg).give hperm hp) (hs.nodup.erase p)
    (fun q hq => hs.slot q (mem_of_mem_erase hq)) hp (.inr hperm)

end

/-- A segment that is not usable is unsound as soon as it is there. -/
lemma not_sound_of_create {base : ℕ} {latest : SlabSegment} {live : List ℕ} (hc : ¬ c.Usable)
    (hlatest : c.createSegment base = some latest) : ¬ latest.pop.2.Sound c live := by
  obtain ⟨entries, hfill, rfl⟩ := map_eq_some_iff.mp hlatest
  intro hsound
  rcases Nat.eq_zero_or_pos c.slotCount with hzero | hpos
  · -- the counter of an empty segment wraps
    rw [initialCount_eq, hzero] at hfill hsound
    cases hfill
    exact absurd (show sub64 0 1 = 0 from hsound.freeCount) (by decide)
  · have hwrap : 2 ^ 32 ≤ c.slabSize * c.slabsPerSeg := by
      by_contra hlt
      exact hc ⟨hpos, not_le.mp hlt⟩
    have hbase : (SlabSegment.pop ⟨base, c.initialCount, entries⟩).2.base = base := by
      cases entries <;> rfl
    have hout := last_slot_outside hpos hwrap
    have hin := hsound.inside (base + c.header + (c.slotCount - 1) * c.stride)
      (mem_slots.mpr ⟨c.slotCount - 1, by omega, by rw [hbase]⟩)
    omega

variable {op : SlabOp}

lemma createsUsable_of_sound (h : ∀ s', s.step c op = some s' → Sound c s') :
    CreatesUsable c s op := by
  cases op with
  | free ptr => exact trivial
  | alloc base =>
    intro hsome hbase hall
    obtain ⟨s', hs'⟩ := isSome_iff_exists.mp hsome
    have hsound := h s' hs'
    obtain ⟨b, rfl⟩ := isSome_iff_exists.mp hbase
    obtain ⟨-, hs'⟩ := ite_none_right_eq_some.mp hs'
    obtain ⟨⟨found, s₁⟩, halloc, rfl⟩ := map_eq_some_iff.mp hs'
    rw [alloc] at halloc
    rcases allocFrom_cases s.segments with ⟨-, heq⟩ | ⟨pre, seg, post, hsegments, hfree, -⟩
    · rw [heq] at halloc
      obtain ⟨latest, hlatest, hpair⟩ := map_eq_some_iff.mp halloc
      cases hpair
      by_contra hc
      exact not_sound_of_create hc hlatest (hsound.segments _ (mem_append_right _
        (mem_singleton_self _)))
    · exact absurd (hall seg (by rw [hsegments]; simp)) hfree

/-- **The step lemma.** -/
lemma Inv.step (hs : Inv c s) (hop : CreatesUsable c s op) (h : s.step c op = some s') :
    Inv c s' := by
  cases op with
  | alloc base => exact hs.alloc hop h
  | free ptr => exact hs.free h

/-- **The slots of a slab allocator** are free or in use, each once, along every sequence of `Alloc`
and `Free`, exactly if no segment is created that has no slot or whose size wraps. -/
theorem slots_sound_iff (c : SlabConfig) (ops : List SlabOp) :
    Always (step c) (Sound c) ⟨[], []⟩ ops ↔
      Allowed (step c) (CreatesUsable c) ⟨[], []⟩ ops :=
  always_iff_allowed (Inv c) (Sound c)
    (fun _ _ hs _ => ⟨createsUsable_of_sound, fun hop _ h => (hs.step hop h).toSound⟩)
    (fun _ _ _ hs hop h => hs.step hop h) inv_init inv_init.toSound ops

/-- Slabs of 64 bytes, of which the header takes the only one. -/
def headerOnly : SlabConfig where
  slabSize := 64
  slabsPerSeg := 1
  doBoundsCheck := false
  segmentSize := 48
  slabSize_lt := by decide
  slabsPerSeg_lt := by decide
  segmentSize_pos := by decide
  segmentSize_lt := by decide
  entry_le := by decide
  header_le := by decide

/-- The first `Alloc` returns nothing, and the segment then counts `2 ^ 64 - 1` free entries. -/
theorem alloc_without_slots : ∃ s, run (step headerOnly) ⟨[], []⟩ [.alloc (some 4096)] =
    some s ∧ ¬ Sound headerOnly s := by
  refine ⟨⟨[⟨4096, 2 ^ 64 - 1, []⟩], []⟩, by decide, fun h => ?_⟩
  exact absurd (h.segments _ (mem_singleton_self _)).freeCount (by decide)

end SlabAlloc

end Northport.Memory
