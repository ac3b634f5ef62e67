/-
# The zones that IngestMemory carves out

`IngestMemory` cuts contiguous zones off the ends of the largest regions until the quota is
reached, and claims pages for their headers and bitmaps from the smallest region that has them.
`carve` computes which spans the zones get and what is left, without the memory.
-/
import Northport.Memory.PmmInvariant

namespace Northport.Memory

open Lib List ByteMem

variable {hhdmBase : ℕ} {regions : List MemmapEntry} {l l' : List MemmapEntry}
  {base pages count zone wanted metadataAddr : ℕ} {s s' : ZoneLoop} {e first : MemmapEntry}
  {z : Zone} {zs : List Zone}

/-! ### The memory map -/

lemma bubble_perm (k : ℕ) (l : List MemmapEntry) : (bubble k l).Perm l := by
  induction k generalizing l with
  | zero => exact Perm.refl l
  | succ k ih =>
    match l with
    | [] => exact Perm.refl _
    | [a] => exact Perm.refl _
    | a :: b :: l =>
      rw [bubble]
      split_ifs with hlt
      · exact ((ih (a :: l)).cons b).trans (Perm.swap a b l)
      · exact (ih (b :: l)).cons a

lemma sortMemoryMapBySize_perm (l : List MemmapEntry) : (sortMemoryMapBySize l).Perm l := by
  have hfold : ∀ (is : List ℕ) (n : ℕ) (l' : List MemmapEntry),
      (is.foldl (fun l i => bubble (n - i - 1) l) l').Perm l' := by
    intro is n
    induction is with
    | nil => exact fun l' => Perm.refl l'
    | cons i is ih => exact fun l' => (ih _).trans (bubble_perm _ _)
  exact hfold _ _ l

/-- What is known of an entry while it is cut up. -/
structure EntryOk (hhdmBase : ℕ) (e : MemmapEntry) : Prop where
  base : e.base % PageSize = 0
  length : e.length % PageSize = 0
  nonzero : e.base ≠ 0
  mapped : e.base + e.length + hhdmBase < 2 ^ 64

lemma Usable.entryOk (h : Usable hhdmBase regions) : ∀ e ∈ regions, EntryOk hhdmBase e :=
  fun e he => ⟨(h.aligned e he).1, (h.aligned e he).2, h.nonzero e he, h.mapped e he⟩

def pagesOf (entries : List MemmapEntry) : ℕ := (entries.map fun e => e.length / PageSize).sum

lemma pagesOf_perm (h : l.Perm l') : pagesOf l = pagesOf l' :=
  (h.map _).sum_eq

/-- The front of one entry is claimed. -/
lemma claimFromSmallest_spec {entries entries' : List MemmapEntry}
    (h : claimFromSmallest pages entries = some (base, entries')) :
    ∃ l₁ e l₂, entries = l₁ ++ e :: l₂ ∧ pages * PageSize ≤ e.length ∧ base = e.base ∧
      entries' = l₁ ++ ⟨e.base + pages * PageSize, e.length - pages * PageSize⟩ :: l₂ := by
  induction entries generalizing entries' with
  | nil => exact absurd h (by simp [claimFromSmallest])
  | cons e l ih =>
    rw [claimFromSmallest] at h
    split at h
    · next base' l' hl =>
      cases h
      obtain ⟨l₁, x, l₂, rfl, hlen, hbase, rfl⟩ := ih hl
      exact ⟨e :: l₁, x, l₂, rfl, hlen, hbase, rfl⟩
    · split_ifs at h with hlen
      cases h
      exact ⟨[], e, l, rfl, Nat.le_of_not_lt hlen, rfl, rfl⟩

section

variable {entries entries' : List MemmapEntry}
  (h : claimFromSmallest pages entries = some (base, entries'))
include h

/-- The claimed span and the entries that are left cover what the entries did. -/
lemma claim_cover (a : ℕ) : cover entries a = cover (⟨base, pages * PageSize⟩ :: entries') a := by
  obtain ⟨l₁, e, l₂, rfl, hlen, rfl, rfl⟩ := claimFromSmallest_spec h
  have hsplit : cover (⟨e.base, pages * PageSize⟩ ::
      ⟨e.base + pages * PageSize, e.length - pages * PageSize⟩ :: l₂) a = cover (e :: l₂) a := by
    have h := cover_split e.base (pages * PageSize) (e.length - pages * PageSize) l₂ a
    rwa [Nat.add_sub_cancel' hlen] at h
  simp only [cover_append, cover_cons] at hsplit ⊢
  omega

lemma claim_entryOk (hok : ∀ e ∈ entries, EntryOk hhdmBase e) :
    (∀ e ∈ entries', EntryOk hhdmBase e) ∧ EntryOk hhdmBase ⟨base, pages * PageSize⟩ := by
  obtain ⟨l₁, e, l₂, rfl, hlen, rfl, rfl⟩ := claimFromSmallest_spec h
  rw [forall_mem_append, forall_mem_cons] at hok ⊢
  obtain ⟨hbefore, ⟨hbase, hlength, hne, hmapped⟩, hafter⟩ := hok
  have hrest : EntryOk hhdmBase ⟨e.base + pages * PageSize, e.length - pages * PageSize⟩ := by
    refine ⟨?_, ?_, ?_, ?_⟩ <;> simp only [PageSize] at * <;> omega
  exact ⟨⟨hbefore, hrest, hafter⟩, hbase, Nat.mul_mod_left _ _, hne, by simp only; omega⟩

lemma claim_pages :
    pagesOf entries = pages + pagesOf entries' ∧ entries'.length = entries.length := by
  obtain ⟨l₁, e, l₂, rfl, hlen, rfl, rfl⟩ := claimFromSmallest_spec h
  have hsplit : e.length / PageSize = pages + (e.length - pages * PageSize) / PageSize := by
    simp only [PageSize] at *
    omega
  simp only [pagesOf, map_append, map_cons, sum_append, sum_cons, hsplit,
    length_append, length_cons, and_true]
  omega

end

/-! ### A zone -/

lemma loadZone_initZone {mem : ByteMem} {bitmapBytes next : ℕ}
    (hzone : zone + sizeofPmContigZone < 2 ^ 64) (hbase : base < 2 ^ 64) (hcount : count < 2 ^ 64)
    (hnext : next < 2 ^ 64) :
    loadZone hhdmBase (initZone hhdmBase mem zone base count bitmapBytes next) zone =
      ⟨zone + sizeofPmContigZone, base, count, next⟩ := by
  set addr := zone - hhdmBase with haddr
  -- the bitmap begins behind the header
  have hzero : ∀ (m : ByteMem) (k : ℕ), k + 8 ≤ 40 →
      (m.zero (addr + sizeofPmContigZone) bitmapBytes).read64 (addr + k) = m.read64 (addr + k) := by
    intro m k hk
    refine read64_congr fun x _ hx => ?_
    rw [zero, if_neg (by rw [sizeofPmContigZone]; omega)]
  simp only [loadZone, initZone, ← haddr, PmContigZone.mk.injEq]
  refine ⟨?_, ?_, ?_, read64_write64 hnext⟩ <;>
    simp (disch := omega) only [read64_write64_of_disjoint, hzero, read64_write64 hzone,
      read64_write64 hbase, read64_write64 hcount]

lemma getBit_initZone (hhdmBase : ℕ) (mem : ByteMem) (zone base count bitmapBytes next : ℕ) {i : ℕ}
    (hi : i / 8 < bitmapBytes) :
    (initZone hhdmBase mem zone base count bitmapBytes next).getBit
      (zone - hhdmBase + sizeofPmContigZone) i = false := by
  have hbyte : initZone hhdmBase mem zone base count bitmapBytes next
      (zone - hhdmBase + sizeofPmContigZone + i / 8) = 0#8 := by
    simp only [initZone, write64, zero, sizeofPmContigZone]
    rw [if_neg (by omega), if_pos (by omega)]
  rw [getBit, hbyte]
  simp

lemma onlyWrites_initZone (mem : ByteMem) (base count bitmapBytes next : ℕ) {sp : Span}
    (hlo : sp.base ≤ zone - hhdmBase)
    (hhi : zone - hhdmBase + sizeofPmContigZone + bitmapBytes ≤ sp.base + sp.length) :
    OnlyWrites sp mem (initZone hhdmBase mem zone base count bitmapBytes next) := by
  have hsize : sizeofPmContigZone = 40 := rfl
  refine ((((((OnlyWrites.zero ?_ ?_).trans (OnlyWrites.write64 ?_ ?_)).trans
    (OnlyWrites.write64 ?_ ?_)).trans (OnlyWrites.write64 ?_ ?_)).trans
    (OnlyWrites.zero ?_ ?_)).trans (OnlyWrites.write64 ?_ ?_))
  all_goals omega

/-! ### The loop over the quota -/

/-- The bytes of the bitmap, and the pages for it and the header. -/
def bitmapBytes (count : ℕ) : ℕ := roundUp count 8 / 8

def metadataPages (count : ℕ) : ℕ :=
  roundUp (bitmapBytes count + 2 * sizeofPmContigZone) PageSize / PageSize

/-- The regions and the zones after the loop over the quota, with `i` pages of it reserved. -/
def carveZones (contiguousQuota : ℕ) :
    ℕ → ℕ → List MemmapEntry → List Span → Option (List MemmapEntry × List Span)
  | fuel, i, entries, zones =>
    if i < contiguousQuota then
      match fuel, entries with
      | fuel + 1, e :: l =>
        let count := min (contiguousQuota - i) (e.length / PageSize)
        match claimFromSmallest (metadataPages count)
          (⟨e.base, e.length - count * PageSize⟩ :: l) with
        | some (_, first :: l) =>
          carveZones contiguousQuota fuel (i + count) (sortMemoryMapBySize (first :: l))
            (⟨first.base + first.length, count * PageSize⟩ :: zones)
        | _ => none
      | _, _ => none
    else some (entries, zones)

/-- The regions that are left and the zones, in the order of their list. -/
def carve (fuel : ℕ) (entries : List MemmapEntry) (contiguousQuota : ℕ) :
    Option (List MemmapEntry × List Span) :=
  (carveZones contiguousQuota fuel 0 (sortMemoryMapBySize entries) []).bind fun (l, zones) =>
    let infoStoreSize := sizeofPmInfoSegment * (l.length + zones.length + 1) +
      sizeofPageInfo * (pagesOf entries + 1)
    (claimFromSmallest (roundUp infoStoreSize PageSize / PageSize) l).map fun (_, l) => (l, zones)

/-- What one turn of the loop does. -/
lemma addZone_cases (h : addZone hhdmBase wanted s = some (count, s')) :
    ∃ e l metadataAddr first l', s.entries = e :: l ∧ count = min wanted (e.length / PageSize) ∧
      claimFromSmallest (metadataPages count) (⟨e.base, e.length - count * PageSize⟩ :: l) =
        some (metadataAddr, first :: l') ∧
      s' =
        { mem := initZone hhdmBase s.mem
            (roundUp (metadataAddr + hhdmBase) sizeofPmContigZone) (first.base + first.length) count
            (bitmapBytes count) s.zones
          entries := sortMemoryMapBySize (first :: l')
          zones := roundUp (metadataAddr + hhdmBase) sizeofPmContigZone
          contigZones := s.contigZones + 1
          metadata := ⟨roundUp (metadataAddr + hhdmBase) sizeofPmContigZone - hhdmBase,
              sizeofPmContigZone⟩ ::
            ⟨roundUp (metadataAddr + hhdmBase) sizeofPmContigZone - hhdmBase + sizeofPmContigZone,
              bitmapBytes count⟩ :: s.metadata } := by
  rw [addZone] at h
  split at h
  · cases h
  · next e l hentries =>
    dsimp only at h
    split at h
    · next metadataAddr first l' hclaim =>
      split_ifs at h with hzero
      cases h
      exact ⟨e, l, metadataAddr, first, l', hentries, rfl, hclaim, rfl⟩
    · cases h

/-- The invariant of the loop: the zones `zs` are set up, and nothing is used twice. -/
structure ZoneLoop.Inv (hhdmBase : ℕ) (regions : List MemmapEntry) (s : ZoneLoop)
    (zs : List Zone) : Prop where
  zoneList : RecordList (ZoneAt hhdmBase s.mem) s.zones zs
  count : s.contigZones = zs.length
  bits : ∀ z ∈ zs, ∀ i < z.count, s.mem.getBit z.bitmap i = false
  zone_ok : ∀ z ∈ zs, z.base % PageSize = 0 ∧ z.base + z.count * PageSize < 2 ^ 64
  entry_ok : ∀ e ∈ s.entries, EntryOk hhdmBase e
  usage_le : ∀ a, cover s.entries a + cover (zs.map Zone.span) a + cover (zs.map Zone.header) a +
    cover (zs.map Zone.bits) a ≤ cover regions a
  pages : pagesOf s.entries + (zs.map Zone.count).sum ≤ pagesOf regions
  metadata : ∀ m ∈ s.metadata, ∀ a, m.Contains a →
    0 < cover (zs.map Zone.header) a + cover (zs.map Zone.bits) a
  zones_lt : s.zones < 2 ^ 64

/-- The end of an entry is cut off. -/
lemma EntryOk.trim (h : EntryOk hhdmBase e) (hcount : count ≤ e.length / PageSize) :
    EntryOk hhdmBase ⟨e.base, e.length - count * PageSize⟩ ∧ count * PageSize ≤ e.length := by
  obtain ⟨hbase, hlength, hne, hmapped⟩ := h
  simp only [PageSize] at *
  exact ⟨⟨hbase, by simp only [PageSize]; omega, hne, by simp only; omega⟩, by omega⟩

lemma cover_trim {n : ℕ} (h : n ≤ e.length) (l : List Span) (a : ℕ) :
    cover (e :: l) a = cover (⟨e.base, e.length - n⟩ :: ⟨e.base + (e.length - n), n⟩ :: l) a := by
  have hsplit := cover_split e.base (e.length - n) n l a
  rw [Nat.sub_add_cancel h] at hsplit
  exact hsplit.symm

/-- The claim may move the start of the first entry, but not its end. -/
lemma claim_head (h : claimFromSmallest pages (e :: l) = some (base, first :: l')) :
    first.base + first.length = e.base + e.length := by
  obtain ⟨l₁, x, l₂, hl, hlen, -, hl'⟩ := claimFromSmallest_spec h
  cases l₁ with
  | nil =>
    obtain ⟨rfl, -⟩ := cons.inj hl
    obtain ⟨rfl, -⟩ := cons.inj hl'
    simp only
    omega
  | cons y l₁ =>
    obtain ⟨rfl, -⟩ := cons.inj hl
    obtain ⟨rfl, -⟩ := cons.inj hl'
    rfl

/-- The zone that a turn of the loop sets up. -/
def newZone (hhdmBase metadataAddr base count : ℕ) : Zone where
  addr := roundUp (metadataAddr + hhdmBase) sizeofPmContigZone - hhdmBase
  bitmap := roundUp (metadataAddr + hhdmBase) sizeofPmContigZone - hhdmBase + sizeofPmContigZone
  base := base
  count := count

/-- Header and bitmap lie behind each other in the pages that were claimed for them. -/
lemma newZone_records (hz : z = newZone hhdmBase metadataAddr base count) :
    metadataAddr ≤ z.addr ∧
      z.addr + sizeofPmContigZone + bitmapBytes count <
        metadataAddr + metadataPages count * PageSize ∧
      roundUp (metadataAddr + hhdmBase) sizeofPmContigZone = z.addr + hhdmBase := by
  subst hz
  have hround : metadataAddr + hhdmBase ≤ roundUp (metadataAddr + hhdmBase) 40 ∧
      roundUp (metadataAddr + hhdmBase) 40 < metadataAddr + hhdmBase + 40 :=
    le_roundUp (by decide)
  have hpages : bitmapBytes count + 2 * 40 ≤ roundUp (bitmapBytes count + 2 * 40) 4096 :=
    (le_roundUp (by decide)).1
  have hmod := roundUp_mod (bitmapBytes count + 2 * 40) 4096
  simp only [newZone, metadataPages, sizeofPmContigZone, PageSize]
  omega

/-- What the pages of the entries are used for after a turn of the loop. -/
lemma newZone_usage (hcount : count * PageSize ≤ e.length)
    (hclaim : claimFromSmallest (metadataPages count)
      (⟨e.base, e.length - count * PageSize⟩ :: l) = some (metadataAddr, first :: l')) (a : ℕ)
    (hz : z = newZone hhdmBase metadataAddr (first.base + first.length) count) :
    cover (first :: l') a + cover [z.span] a + cover [z.header] a + cover [z.bits] a ≤
      cover (e :: l) a := by
  obtain ⟨hlo, hhi, -⟩ := newZone_records hz
  have hspan : z.span = ⟨e.base + (e.length - count * PageSize), count * PageSize⟩ := by
    rw [← claim_head hclaim, hz]
    rfl
  have hrecords : cover [z.header] a + cover [z.bits] a ≤
      cover [⟨metadataAddr, metadataPages count * PageSize⟩] a := by
    have hbits : z.bits = ⟨z.addr + sizeofPmContigZone, bitmapBytes count⟩ := by
      rw [hz]
      rfl
    have hin : z.header.Contains a ∨ z.bits.Contains a →
        (⟨metadataAddr, metadataPages count * PageSize⟩ : Span).Contains a := by
      simp only [hbits, Zone.header, Span.Contains]
      omega
    have hapart : ¬ (z.header.Contains a ∧ z.bits.Contains a) := by
      simp only [hbits, Zone.header, Span.Contains]
      omega
    simp only [cover_cons, cover_nil]
    split_ifs with hheader hbit hmeta <;> first | omega | tauto
  have hcover := claim_cover hclaim a
  rw [cover_trim hcount, ← hspan]
  simp only [cover_cons, cover_nil] at hcover hrecords ⊢
  omega

variable (h : s.Inv hhdmBase regions zs) (hr : Usable hhdmBase regions)

include h hr

/-- **A turn of the loop** sets up one more zone. -/
lemma ZoneLoop.Inv.addZone (hadd : addZone hhdmBase wanted s = some (count, s')) :
    ∃ z, s'.Inv hhdmBase regions (z :: zs) ∧
      ∀ contiguousQuota fuel i zones, contiguousQuota - i = wanted → i < contiguousQuota →
        carveZones contiguousQuota (fuel + 1) i s.entries zones =
          carveZones contiguousQuota fuel (i + count) s'.entries (z.span :: zones) := by
  obtain ⟨e, l, metadataAddr, first, l', hentries, hmin, hclaim, rfl⟩ := addZone_cases hadd
  have hok := h.entry_ok
  rw [hentries, forall_mem_cons] at hok
  obtain ⟨htrim, hcount⟩ := hok.1.trim (hmin ▸ Nat.min_le_right wanted (e.length / PageSize))
  obtain ⟨hok', hclaimed⟩ := claim_entryOk hclaim (forall_mem_cons.mpr ⟨htrim, hok.2⟩)
  have hend : first.base + first.length = e.base + (e.length - count * PageSize) :=
    claim_head hclaim
  obtain ⟨hpages, -⟩ := claim_pages hclaim
  have hmapped := hok.1.mapped
  obtain ⟨-, -, hne, hmapped'⟩ := hclaimed
  simp only at hne hmapped'
  obtain ⟨z, hz, hzcount, hzbase, hbitmap, hbits⟩ : ∃ z,
      z = newZone hhdmBase metadataAddr (first.base + first.length) count ∧ z.count = count ∧
      z.base = first.base + first.length ∧ z.bitmap = z.addr + sizeofPmContigZone ∧
      z.bits = ⟨z.addr + sizeofPmContigZone, bitmapBytes count⟩ := ⟨_, rfl, rfl, rfl, rfl, rfl⟩
  obtain ⟨hlo, hhi, hzone⟩ := newZone_records hz
  rw [hzone]
  have hperm := sortMemoryMapBySize_perm (first :: l')
  have husage : ∀ a, cover (first :: l') a + cover [z.span] a + cover [z.header] a +
      cover [z.bits] a + (cover (zs.map Zone.span) a + cover (zs.map Zone.header) a +
      cover (zs.map Zone.bits) a) ≤ cover regions a := by
    intro a
    have hnew := newZone_usage hcount hclaim a hz
    have hle := h.usage_le a
    rw [hentries] at hle
    omega
  -- the claimed pages hold nothing of the older zones
  have honly : OnlyWrites ⟨metadataAddr, metadataPages count * PageSize⟩ s.mem
      (initZone hhdmBase s.mem (z.addr + hhdmBase) (first.base + first.length) count
        (bitmapBytes count) s.zones) :=
    onlyWrites_initZone _ _ _ _ _ (by simp only; omega) (by simp only; omega)
  have hkeep : ∀ a, 0 < cover (zs.map Zone.header) a ∨ 0 < cover (zs.map Zone.bits) a →
      initZone hhdmBase s.mem (z.addr + hhdmBase) (first.base + first.length) count
        (bitmapBytes count) s.zones a = s.mem a := by
    refine fun a ha => honly a fun hin => ?_
    have hle := h.usage_le a
    have hone := cover_le_one_of_pairwise hr.disjoint a
    have hcover := claim_cover hclaim a
    rw [hentries, cover_trim hcount] at hle
    simp only [cover_cons, if_pos hin] at hle hcover
    omega
  refine ⟨z, ⟨?_, ?_, ?_, ?_, ?_, ?_, ?_, ?_, ?_⟩, fun quota fuel i zones hwanted hi => ?_⟩
  · refine ⟨by simp only; omega, s.zones, ⟨rfl, ?_⟩, ?_⟩
    · rw [loadZone_initZone (by omega) (by omega) ?_ h.zones_lt]
      · simp only [PmContigZone.mk.injEq, and_true, hzbase, hzcount, hbitmap]
        omega
      · have hle : count ≤ count * PageSize := Nat.le_mul_of_pos_right count (by decide)
        omega
    · exact h.zoneList.congr fun y hy p q hp => hp.congr fun a ha =>
        hkeep a (.inl (cover_map_pos hy ha))
  · simp only [h.count, length_cons]
  · refine forall_mem_cons.mpr ⟨fun i hi => ?_, fun y hy i hi => ?_⟩
    · have hbyte := Zone.bits_contains hi
      simp only [hbits, hbitmap, Span.Contains] at hbyte
      have hget := getBit_initZone hhdmBase s.mem (z.addr + hhdmBase) (first.base + first.length) count
        (bitmapBytes count) s.zones (i := i) (by omega)
      rwa [Nat.add_sub_cancel, ← hbitmap] at hget
    · have hbyte := hkeep _ (.inr (cover_map_pos hy (Zone.bits_contains hi)))
      simp only [getBit, hbyte]
      exact h.bits y hy i hi
  · refine forall_mem_cons.mpr ⟨?_, h.zone_ok⟩
    have hbase := htrim.base
    have hlength := htrim.length
    refine ⟨?_, by rw [hzbase, hend, hzcount]; omega⟩
    rw [hzbase, hend, Nat.add_mod, hbase, hlength, Nat.zero_mod]
  · exact fun x hx => hok' x (hperm.mem_iff.mp hx)
  · intro a
    have hle := husage a
    simp only [cover_perm hperm, map_cons, cover_cons, cover_nil] at hle ⊢
    omega
  · have hle := h.pages
    have hentry : e.length / PageSize = count + (e.length - count * PageSize) / PageSize := by
      simp only [PageSize] at hcount ⊢
      omega
    simp only [pagesOf_perm hperm, map_cons, sum_cons, hzcount]
    rw [hentries] at hle
    simp only [pagesOf, map_cons, sum_cons] at hle hpages ⊢
    omega
  · have hnew : ∀ a, 0 < cover [z.header] a + cover [z.bits] a ∨
        0 < cover (zs.map Zone.header) a + cover (zs.map Zone.bits) a →
        0 < cover ((z :: zs).map Zone.header) a + cover ((z :: zs).map Zone.bits) a := by
      intro a ha
      simp only [map_cons, cover_cons, cover_nil] at ha ⊢
      omega
    simp only [Nat.add_sub_cancel, forall_mem_cons]
    refine ⟨fun a ha => hnew a (.inl (Nat.add_pos_left ?_ _)),
      fun a ha => hnew a (.inl (Nat.add_pos_right _ ?_)),
      fun m hm a ha => hnew a (.inr (h.metadata m hm a ha))⟩
    · exact cover_pos.mpr ⟨z.header, mem_singleton_self _, ha⟩
    · exact cover_pos.mpr ⟨z.bits, mem_singleton_self _, hbits ▸ ha⟩
  · simp only
    omega
  · subst hwanted
    rw [carveZones.eq_def]
    simp only [if_pos hi, hentries, ← hmin, hclaim]
    rw [Zone.span, hzbase, hzcount]

/-- **The loop over the quota.** -/
lemma ZoneLoop.Inv.zoneLoop {contiguousQuota fuel i : ℕ}
    (hloop : zoneLoop hhdmBase contiguousQuota fuel i s = some s') :
    ∃ zs', s'.Inv hhdmBase regions zs' ∧
      carveZones contiguousQuota fuel i s.entries (zs.map Zone.span) =
        some (s'.entries, zs'.map Zone.span) := by
  induction fuel generalizing i s zs with
  | zero =>
    rw [zoneLoop.eq_def] at hloop
    dsimp only at hloop
    split_ifs at hloop with hi
    cases hloop
    refine ⟨zs, h, ?_⟩
    exact if_neg hi
  | succ fuel ih =>
    rw [zoneLoop.eq_def] at hloop
    dsimp only at hloop
    split_ifs at hloop with hi
    · obtain ⟨⟨count, s₁⟩, hadd, hrest⟩ := Option.bind_eq_some_iff.mp hloop
      obtain ⟨z, hinv, hcarve⟩ := h.addZone hr hadd
      obtain ⟨zs', hinv', hcarve'⟩ := ih hinv hrest
      refine ⟨zs', hinv', ?_⟩
      rw [hcarve _ _ _ _ rfl hi]
      exact hcarve'
    · cases hloop
      refine ⟨zs, h, ?_⟩
      rw [carveZones.eq_def]
      exact if_neg hi

end Northport.Memory
