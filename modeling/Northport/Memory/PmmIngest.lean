/-
# What IngestMemory sets up

Next to the zones, pages are claimed for the info segments and the page infos, and what is left
of the regions becomes the freelist.  The memory holds the view of all this afterwards.  Of the
info segments only the last one is in the list: the list is entered through its tail.
-/
import Northport.Memory.PmmCarve

namespace Northport.Memory

open Lib List Option ByteMem OnlyWrites

variable {hhdmBase : ℕ} {regions : List MemmapEntry} {I : Span}
  {infoStore segmentStore pageMax segmentMax fuel infoStoreAddr contiguousQuota : ℕ} {mem : ByteMem}
  {old specs : List Span} {s : SegmentLoop} {entries : List MemmapEntry} {runs : List Block}

/-! ### The info segments -/

/-- The segments of these spans are added one after the other. -/
def addSegments (hhdmBase segmentStore infoStore : ℕ) (s : SegmentLoop) (specs : List Span) :
    SegmentLoop :=
  specs.foldl (fun s g => addSegment hhdmBase segmentStore infoStore s g.base g.length) s

def nonempty (entries : List MemmapEntry) : List MemmapEntry := entries.filter fun e => e.length ≠ 0

lemma addRegionSegments_eq (segmentStore infoStore : ℕ) (s : SegmentLoop)
    (entries : List MemmapEntry) :
    addRegionSegments hhdmBase segmentStore infoStore s entries =
      addSegments hhdmBase segmentStore infoStore s (nonempty entries) := by
  induction entries generalizing s with
  | nil => rfl
  | cons e l ih =>
    rw [addRegionSegments]
    by_cases he : e.length = 0
    · rw [if_pos he, ih]
      simp [nonempty, he]
    · rw [if_neg he, ih]
      simp [nonempty, he, addSegments]

/-- The last of the segments; the list of the segments is entered there. -/
def lastSegment (hhdmBase segmentStore infoStore : ℕ) (specs : List Span) : List Segment :=
  match specs.getLast? with
  | none => []
  | some g => [⟨segmentStore - hhdmBase + sizeofPmInfoSegment * (specs.length - 1), g.base,
      g.length, infoStore + sizeofPageInfo * pagesOf specs.dropLast⟩]

lemma pagesOf_nonempty (l : List MemmapEntry) : pagesOf (nonempty l) = pagesOf l := by
  induction l with
  | nil => rfl
  | cons e l ih =>
    simp only [pagesOf, nonempty] at ih ⊢
    by_cases he : e.length = 0 <;> simpa [he] using ih

lemma pagesOf_append (l l' : List MemmapEntry) : pagesOf (l ++ l') = pagesOf l + pagesOf l' := by
  simp [pagesOf]

/-- The stores of the segments and of the page infos lie in a span `I`. -/
structure Stores (hhdmBase segmentStore infoStore : ℕ) (I : Span) (segmentMax pageMax : ℕ) :
    Prop where
  segment_lo : I.base + hhdmBase ≤ segmentStore
  segment_hi : segmentStore + sizeofPmInfoSegment * segmentMax ≤ I.base + I.length + hhdmBase
  info_lo : I.base + hhdmBase ≤ infoStore
  info_hi : infoStore + sizeofPageInfo * pageMax ≤ I.base + I.length + hhdmBase
  mapped : EntryOk hhdmBase I

/-- The invariant of the loops over the segments. -/
structure SegmentLoop.Inv (hhdmBase segmentStore infoStore : ℕ) (I : Span) (old : List Span)
    (mem : ByteMem) (s : SegmentLoop) (specs : List Span) : Prop where
  segmentIndex : s.segmentIndex = specs.length
  infoIndex : s.infoIndex = pagesOf specs
  only : OnlyWrites I mem s.mem
  list : RecordList (SegmentAt hhdmBase s.mem) s.tail
    (lastSegment hhdmBase segmentStore infoStore specs)
  metadata : ∀ m ∈ s.metadata, m ∈ old ∨ ∀ a, m.Contains a → I.Contains a

/-- The fields of a new segment. -/
lemma loadSegment_init (hhdmBase : ℕ) (mem : ByteMem) (addr : ℕ) {base length info : ℕ} (hbase : base < 2 ^ 64)
    (hlength : length < 2 ^ 64) (hinfo : info < 2 ^ 64) :
    loadSegment hhdmBase ((((mem.zero addr sizeofPmInfoSegment).write64 (addr + 8) base).write64
      (addr + 16) length).write64 (addr + 24) info) (addr + hhdmBase) =
        ⟨0, base, length, info⟩ := by
  simp only [loadSegment, Nat.add_sub_cancel, PmInfoSegment.mk.injEq]
  refine ⟨?_, ?_, ?_, read64_write64 hinfo⟩ <;>
    simp (disch := omega) only [read64_write64_of_disjoint, read64_write64 hbase,
      read64_write64 hlength]
  exact read64_zero le_rfl (Nat.add_le_add_left (by decide) _)

/-- The tail of the list is the segment that was added last. -/
lemma SegmentLoop.Inv.tail_eq (h : s.Inv hhdmBase segmentStore infoStore I old mem specs)
    (hlo : hhdmBase ≤ segmentStore) (htail : s.tail ≠ 0) :
    0 < specs.length ∧ s.tail = segmentStore + sizeofPmInfoSegment * (specs.length - 1) := by
  have hlist := h.list
  rw [lastSegment] at hlist
  cases hlast : specs.getLast? with
  | none =>
    rw [hlast] at hlist
    exact absurd hlist htail
  | some g =>
    rw [hlast] at hlist
    obtain ⟨-, -, ⟨hptr, -⟩, -⟩ := hlist
    refine ⟨length_pos_of_mem (mem_of_getLast? hlast), ?_⟩
    simp only at hptr
    omega

/-- The record of the last segment is in the store. -/
lemma lastSegment_header (specs : List Span)
    (hstores : Stores hhdmBase segmentStore infoStore I segmentMax pageMax)
    (hlength : specs.length ≤ segmentMax) :
    ∀ g ∈ lastSegment hhdmBase segmentStore infoStore specs,
      ∀ a, g.header.Contains a → I.Contains a := by
  intro g hg a ha
  obtain ⟨hlo, hhi, -, -, -⟩ := hstores
  rw [lastSegment] at hg
  cases hlast : specs.getLast? with
  | none =>
    rw [hlast] at hg
    cases hg
  | some x =>
    rw [hlast] at hg
    obtain rfl := mem_singleton.mp hg
    have hpos : 0 < specs.length := length_pos_of_mem (mem_of_getLast? hlast)
    simp only [Segment.header, Span.Contains, sizeofPmInfoSegment] at *
    omega

lemma lastSegment_length (segmentStore infoStore : ℕ) (specs : List Span) :
    (lastSegment hhdmBase segmentStore infoStore specs).length ≤ specs.length := by
  rw [lastSegment]
  cases hlast : specs.getLast? with
  | none => exact zero_le
  | some x => exact length_pos_of_mem (mem_of_getLast? hlast)

section

variable (h : s.Inv hhdmBase segmentStore infoStore I old mem specs)
  (hstores : Stores hhdmBase segmentStore infoStore I segmentMax pageMax)

include h hstores

/-- **One more segment.** -/
lemma SegmentLoop.Inv.addSegment {g : Span}
    (hlength : specs.length < segmentMax) (hpages : pagesOf (specs ++ [g]) ≤ pageMax)
    (hg : g.base + g.length < 2 ^ 64) :
    (addSegment hhdmBase segmentStore infoStore s g.base g.length).Inv hhdmBase segmentStore
      infoStore I old mem (specs ++ [g]) := by
  obtain ⟨hslo, hshi, hilo, hihi, -, -, hne, hmapped⟩ := hstores
  have hsegment : sizeofPmInfoSegment * specs.length + sizeofPmInfoSegment ≤
      sizeofPmInfoSegment * segmentMax := by
    exact Nat.mul_le_mul_left _ hlength
  have hinfo : sizeofPageInfo * pagesOf specs + sizeofPageInfo * (g.length / PageSize) ≤
      sizeofPageInfo * pageMax := by
    rw [← mul_add]
    refine Nat.mul_le_mul_left _ (le_trans (le_of_eq ?_) hpages)
    simp [pagesOf]
  have htail := h.tail_eq (by omega)
  obtain ⟨addr, haddr⟩ : ∃ addr, segmentStore + sizeofPmInfoSegment * specs.length =
      addr + hhdmBase := ⟨_, (Nat.sub_add_cancel (by omega)).symm⟩
  have hsize : sizeofPmInfoSegment = 32 := rfl
  have hprev : sizeofPmInfoSegment * (specs.length - 1) + sizeofPmInfoSegment =
      sizeofPmInfoSegment * specs.length ∨ specs.length = 0 := by
    rcases Nat.eq_zero_or_pos specs.length with h0 | hpos
    · exact .inr h0
    · rw [← Nat.mul_succ, Nat.succ_eq_add_one, Nat.sub_add_cancel hpos]
      exact .inl rfl
  simp only [Memory.addSegment, h.segmentIndex, h.infoIndex, haddr, Nat.add_sub_cancel]
  have hinit : OnlyWrites I s.mem ((((s.mem.zero addr sizeofPmInfoSegment).write64
      (addr + 8) g.base).write64 (addr + 16) g.length).write64 (addr + 24)
        (infoStore + sizeofPageInfo * pagesOf specs)) := by
    refine (((OnlyWrites.zero ?_ ?_).trans (OnlyWrites.write64 ?_ ?_)).trans
      (write64 ?_ ?_)).trans (write64 ?_ ?_) <;> omega
  have hload := loadSegment_init hhdmBase s.mem addr (show g.base < 2 ^ 64 by omega)
    (show g.length < 2 ^ 64 by omega)
    (show infoStore + sizeofPageInfo * pagesOf specs < 2 ^ 64 by omega)
  generalize ((((s.mem.zero addr sizeofPmInfoSegment).write64
      (addr + 8) g.base).write64 (addr + 16) g.length).write64 (addr + 24)
        (infoStore + sizeofPageInfo * pagesOf specs)) = mem₁ at hinit hload ⊢
  have hlast : lastSegment hhdmBase segmentStore infoStore (specs ++ [g]) =
      [⟨addr, g.base, g.length, infoStore + sizeofPageInfo * pagesOf specs⟩] := by
    simp only [lastSegment, getLast?_append, getLast?_singleton, some_or,
      length_append, length_singleton, Nat.add_sub_cancel, dropLast_concat]
    congr 2
    omega
  refine ⟨by simp, by simp [pagesOf], h.only.trans ?_, ?_, ?_⟩
  · split_ifs with h0
    · exact hinit
    · refine hinit.trans (write64 ?_ ?_) <;> have := htail h0 <;> omega
  · rw [hlast]
    refine ⟨by simp only; omega, 0, ⟨rfl, ?_⟩, rfl⟩
    rw [← hload]
    split_ifs with h0
    · rfl
    · -- the link is written in front of the new segment
      simp (disch := omega) only [loadSegment, Nat.add_sub_cancel, read64_write64_of_disjoint]
  · intro m hm
    simp only [mem_cons] at hm
    rcases hm with rfl | rfl | hm
    on_goal 3 => exact h.metadata m hm
    all_goals
      refine .inr fun a ha => ?_
      simp only [Span.Contains] at ha ⊢
      omega

/-- **All segments.** -/
lemma SegmentLoop.Inv.addSegments (more : List Span)
    (hlength : specs.length + more.length ≤ segmentMax)
    (hpages : pagesOf specs + pagesOf more ≤ pageMax)
    (hmore : ∀ g ∈ more, g.base + g.length < 2 ^ 64) :
    (addSegments hhdmBase segmentStore infoStore s more).Inv hhdmBase segmentStore
      infoStore I old mem (specs ++ more) := by
  induction more generalizing s specs with
  | nil =>
    rw [append_nil]
    exact h
  | cons g more ih =>
    have hsum : pagesOf (g :: more) = pagesOf [g] + pagesOf more := pagesOf_append [g] more
    rw [length_cons] at hlength
    have hfirst := h.addSegment hstores (g := g) (by omega) (by rw [pagesOf_append]; omega)
      (hmore g mem_cons_self)
    have hrest := ih hfirst (by simp only [length_append, length_singleton]; omega)
      (by rw [pagesOf_append]; omega) fun x hx => hmore x (mem_cons_of_mem _ hx)
    rw [append_assoc] at hrest
    exact hrest

/-- The loop over the zones adds their segments. -/
lemma addZoneSegments_spec {zs : List Zone}
    {ptr : ℕ} (hzs : RecordList (ZoneAt hhdmBase mem) ptr zs) (hfuel : zs.length ≤ fuel)
    (hapart : ∀ z ∈ zs, ∀ a, z.header.Contains a → ¬ I.Contains a)
    (hlength : specs.length + zs.length ≤ segmentMax)
    (hpages : pagesOf specs + pagesOf (zs.map Zone.span) ≤ pageMax)
    (hmapped : ∀ z ∈ zs, z.span.base + z.span.length < 2 ^ 64) :
    ∃ s', addZoneSegments hhdmBase segmentStore infoStore fuel ptr s = some s' ∧
      s'.Inv hhdmBase segmentStore infoStore I old mem (specs ++ zs.map Zone.span) := by
  induction zs generalizing s specs ptr fuel with
  | nil =>
    rw [addZoneSegments.eq_def, map_nil, append_nil]
    exact ⟨s, if_pos hzs, h⟩
  | cons z zs ih =>
    obtain ⟨hne, next, hz, hrest⟩ := hzs
    obtain ⟨fuel, rfl⟩ := Nat.exists_eq_add_of_le' (Nat.one_le_of_lt hfuel)
    -- the headers of the zones are as they were
    have hkeep : ∀ s' : SegmentLoop, OnlyWrites I mem s'.mem →
        loadZone hhdmBase s'.mem ptr = ⟨z.bitmap + hhdmBase, z.base, z.count, next⟩ :=
      fun s' honly => (hz.congr fun a ha => honly a (hapart z mem_cons_self a ha)).2
    have hsum : pagesOf ((z :: zs).map Zone.span) =
        pagesOf [z.span] + pagesOf (zs.map Zone.span) := pagesOf_append [z.span] _
    rw [length_cons] at hlength hfuel
    have hfirst := h.addSegment hstores (g := z.span) (by omega) (by rw [pagesOf_append]; omega)
      (hmapped z mem_cons_self)
    rw [addZoneSegments.eq_def]
    simp only [if_neg hne, hkeep s h.only]
    rw [Zone.span] at hfirst
    rw [hkeep _ hfirst.only]
    obtain ⟨s', hrun, hall⟩ := ih hfirst hrest (show zs.length ≤ fuel by omega)
      (fun y hy => hapart y (mem_cons_of_mem _ hy))
      (by simp only [length_append, length_singleton]; omega)
      (by rw [pagesOf_append]; rw [Zone.span] at hsum; omega)
      fun y hy => hmapped y (mem_cons_of_mem _ hy)
    rw [append_assoc] at hall
    exact ⟨s', hrun, hall⟩

end

/-! ### The free runs -/

/-- The regions that are left, in front of the runs. -/
def pushRuns : List Block → List MemmapEntry → List Block
  | runs, [] => runs
  | runs, e :: l => pushRuns (if e.length = 0 then runs else ⟨e.base, e.length / PageSize⟩ :: runs) l

lemma EntryOk.span {e : MemmapEntry} (h : EntryOk hhdmBase e) :
    (⟨e.base, e.length / PageSize⟩ : Block).span = e := by
  rw [Block.span, Nat.div_mul_cancel (Nat.dvd_of_mod_eq_zero h.length)]

lemma cover_pushRuns (runs : List Block) (hok : ∀ e ∈ entries, EntryOk hhdmBase e) (a : ℕ) :
    cover ((pushRuns runs entries).map Block.span) a =
      cover (runs.map Block.span) a + cover entries a := by
  induction entries generalizing runs with
  | nil => rfl
  | cons e l ih =>
    have hrest := fun x hx => hok x (mem_cons_of_mem e hx)
    rw [pushRuns, ih _ hrest]
    split_ifs with h0
    · rw [cover_cons_empty h0]
    · rw [map_cons, (hok e mem_cons_self).span, cover_cons, cover_cons]
      omega

lemma pushRuns_forall {P : Block → Prop} (hruns : ∀ r ∈ runs, P r)
    (hentries : ∀ e ∈ entries, e.length ≠ 0 → P ⟨e.base, e.length / PageSize⟩) :
    ∀ r ∈ pushRuns runs entries, P r := by
  induction entries generalizing runs with
  | nil => exact hruns
  | cons e l ih =>
    refine ih ?_ fun x hx => hentries x (mem_cons_of_mem _ hx)
    split_ifs with h0
    · exact hruns
    · exact forall_mem_cons.mpr ⟨hentries e mem_cons_self h0, hruns⟩

/-- **The freelist** is set up in the regions that are left. -/
lemma addFreeRuns_spec (mem : ByteMem) {head : ℕ} (h : RecordList (FreeAt hhdmBase mem) head runs)
    (hhead : head < 2 ^ 64) (hruns : ∀ r ∈ runs, 0 < r.pages)
    (hok : ∀ e ∈ entries, EntryOk hhdmBase e)
    (hapart : ∀ a, cover (runs.map Block.span) a + cover entries a ≤ 1) :
    RecordList (FreeAt hhdmBase (addFreeRuns hhdmBase mem head entries).1)
        (addFreeRuns hhdmBase mem head entries).2 (pushRuns runs entries) ∧
      ∀ a, cover entries a = 0 → (addFreeRuns hhdmBase mem head entries).1 a = mem a := by
  induction entries generalizing mem head runs with
  | nil => exact ⟨h, fun _ _ => rfl⟩
  | cons e l ih =>
    obtain ⟨heok, hlok⟩ := forall_mem_cons.mp hok
    simp only [addFreeRuns, pushRuns]
    by_cases h0 : e.length = 0
    · simp only [if_pos h0]
      have hempty : ∀ a, cover (e :: l) a = cover l a := fun a => cover_cons_empty h0
      simp only [hempty] at hapart ⊢
      exact ih mem h hhead hruns hlok hapart
    · simp only [if_neg h0]
      obtain ⟨hbase, hlength, hne, hmapped⟩ := heok
      have hpages : 0 < e.length / PageSize ∧ e.length / PageSize < 2 ^ 64 ∧
          16 ≤ e.length := by
        simp only [PageSize] at *
        omega
      have honly : OnlyWrites e mem
          ((mem.write64 (e.base + 8) (e.length / PageSize)).write64 e.base head) := by
        refine trans (write64 ?_ ?_)
          (write64 ?_ ?_) <;> omega
      have hlist : RecordList (FreeAt hhdmBase
          ((mem.write64 (e.base + 8) (e.length / PageSize)).write64 e.base head))
          (e.base + hhdmBase) (⟨e.base, e.length / PageSize⟩ :: runs) := by
        refine ⟨by omega, head, ⟨rfl, ?_, read64_write64 hhead⟩, ?_⟩
        · rw [read64_write64_of_disjoint (.inl le_rfl),
            read64_write64 hpages.2.1]
        · refine h.congr fun r hr p q hp => hp.congr (hruns r hr) fun a ha => honly a fun hin => ?_
          have hpos := cover_map_pos (f := Block.span) hr ha
          have hone := hapart a
          rw [cover_cons, if_pos hin] at hone
          omega
      obtain ⟨hres, hsame⟩ := ih _ hlist (by omega)
        (forall_mem_cons.mpr ⟨hpages.1, hruns⟩) hlok fun a => by
          have hone := hapart a
          rw [map_cons, (EntryOk.mk hbase hlength hne hmapped).span]
          simp only [cover_cons] at hone ⊢
          omega
      refine ⟨hres, fun a ha => ?_⟩
      have hout : ¬ e.Contains a ∧ cover l a = 0 := by
        rw [cover_cons] at ha
        by_cases hin : e.Contains a
        · rw [if_pos hin] at ha
          omega
        · rw [if_neg hin] at ha
          exact ⟨hin, ha⟩
      rw [hsame a hout.2, honly a hout.1]

/-! ### `IngestMemory` -/

/-- What `IngestMemory` sets up: the view holds, the parts of it share no address, and they are
what `carve` says. -/
structure Ingested (hhdmBase fuel : ℕ) (regions : List MemmapEntry) (contiguousQuota : ℕ)
    (s : Pmm) (v : PmmView) : Prop extends v.Stored where
  holds : s.Holds hhdmBase v
  usage_le : ∀ a, cover (v.runs.map Block.span) a + cover (v.zones.map Zone.span) a +
    cover v.records a ≤ cover regions a
  run_ok : ∀ r ∈ v.runs, r.base % PageSize = 0
  zone_ok : ∀ z ∈ v.zones, z.base % PageSize = 0
  bits : ∀ z i, v.bit z i = false
  parts : ∃ rest, carve fuel regions contiguousQuota = some (rest, v.zones.map Zone.span) ∧
    v.runs = pushRuns [] rest ∧ (∀ e ∈ rest, EntryOk hhdmBase e) ∧
    pagesOf rest + pagesOf (v.zones.map Zone.span) ≤ pagesOf regions ∧
    ∃ I segmentStore infoStore, v.info = [I] ∧
      v.pageInfos = ⟨infoStore, sizeofPageInfo * pagesOf regions⟩ ∧
      v.segments = lastSegment hhdmBase segmentStore infoStore
        (nonempty rest ++ v.zones.map Zone.span) ∧
      Stores hhdmBase segmentStore infoStore I (rest.length + v.zones.length) (pagesOf regions)

lemma infoStores {hhdmBase segments pages : ℕ}
    (hI : EntryOk hhdmBase ⟨infoStoreAddr, roundUp (sizeofPmInfoSegment * (segments + 1) +
      sizeofPageInfo * (pages + 1)) PageSize / PageSize * PageSize⟩) :
    Stores hhdmBase (roundUp infoStoreAddr sizeofPmInfoSegment + hhdmBase)
      (roundUp (roundUp infoStoreAddr sizeofPmInfoSegment + hhdmBase +
        sizeofPmInfoSegment * (segments + 1)) sizeofPageInfo)
      ⟨infoStoreAddr, roundUp (sizeofPmInfoSegment * (segments + 1) +
        sizeofPageInfo * (pages + 1)) PageSize / PageSize * PageSize⟩ segments pages := by
  have haligned : roundUp infoStoreAddr 32 = infoStoreAddr := by
    have hmod : infoStoreAddr % 4096 = 0 := hI.base
    simp only [roundUp]
    omega
  have hsize : sizeofPmInfoSegment * (segments + 1) + sizeofPageInfo * (pages + 1) ≤
      roundUp (sizeofPmInfoSegment * (segments + 1) + sizeofPageInfo * (pages + 1)) PageSize :=
    (le_roundUp (by decide)).1
  have hlen : roundUp (sizeofPmInfoSegment * (segments + 1) + sizeofPageInfo * (pages + 1))
      PageSize / PageSize * PageSize =
      roundUp (sizeofPmInfoSegment * (segments + 1) + sizeofPageInfo * (pages + 1)) PageSize :=
    Nat.div_mul_cancel (Nat.dvd_of_mod_eq_zero (roundUp_mod _ _))
  have hinfo : infoStoreAddr + hhdmBase + sizeofPmInfoSegment * (segments + 1) ≤
      roundUp (infoStoreAddr + hhdmBase + sizeofPmInfoSegment * (segments + 1)) sizeofPageInfo ∧
      roundUp (infoStoreAddr + hhdmBase + sizeofPmInfoSegment * (segments + 1)) sizeofPageInfo <
        infoStoreAddr + hhdmBase + sizeofPmInfoSegment * (segments + 1) + sizeofPageInfo :=
    le_roundUp (by decide)
  rw [show roundUp infoStoreAddr sizeofPmInfoSegment = infoStoreAddr from haligned]
  simp only [mul_add, sizeofPmInfoSegment, sizeofPageInfo, mul_one] at *
  refine ⟨?_, ?_, ?_, ?_, hI⟩ <;> simp only [sizeofPmInfoSegment, sizeofPageInfo] <;> omega

/-- The steps of `IngestMemory` up to the page info. -/
lemma Pmm.ingestMemory_cases {s s' : Pmm}
    (h : s.ingestMemory hhdmBase fuel regions contiguousQuota = some s') :
    regions ≠ [] ∧ (s'.trashAfterUse = s.trashAfterUse ∧ s'.trashBeforeUse = s.trashBeforeUse) ∧
      ∃ z infoStoreAddr rest, zoneLoop hhdmBase contiguousQuota fuel 0
          { mem := s.mem, entries := sortMemoryMapBySize regions, zones := 0, contigZones := 0,
            metadata := [] } = some z ∧
        claimFromSmallest (roundUp (sizeofPmInfoSegment * (z.entries.length + z.contigZones + 1) +
          sizeofPageInfo * (pagesOf regions + 1)) PageSize / PageSize) z.entries =
            some (infoStoreAddr, rest) := by
  rw [Pmm.ingestMemory] at h
  split_ifs at h with hne
  dsimp only at h
  split at h
  · cases h
  · next z hz =>
    split at h
    · cases h
    · next infoStoreAddr rest hclaim =>
      split_ifs at h
      obtain ⟨l, hl, rfl⟩ := map_eq_some_iff.mp h
      exact ⟨hne, ⟨rfl, rfl⟩, z, infoStoreAddr, rest, hz, hclaim⟩

/-- **Behind the loop over the quota, `IngestMemory`** returns if there is memory for the page info,
and sets up a view. -/
lemma Pmm.ingest_returns {s : Pmm} {z : ZoneLoop} {rest : List MemmapEntry}
    (hr : Usable hhdmBase regions) (hne : regions ≠ [])
    (hzones : zoneLoop hhdmBase contiguousQuota fuel 0
      { mem := s.mem, entries := sortMemoryMapBySize regions, zones := 0, contigZones := 0,
        metadata := [] } = some z)
    (hclaim : claimFromSmallest (roundUp (sizeofPmInfoSegment * (z.entries.length + z.contigZones + 1) +
      sizeofPageInfo * (pagesOf regions + 1)) PageSize / PageSize) z.entries =
        some (infoStoreAddr, rest)) :
    ∃ s' v, s.ingestMemory hhdmBase fuel regions contiguousQuota = some s' ∧
      Ingested hhdmBase fuel regions contiguousQuota s' v := by
  have hsort := sortMemoryMapBySize_perm regions
  -- the zones
  have hstart : ZoneLoop.Inv hhdmBase regions
      { mem := s.mem, entries := sortMemoryMapBySize regions, zones := 0, contigZones := 0,
        metadata := [] } [] :=
    { zoneList := rfl
      count := rfl
      bits := by simp
      zone_ok := by simp
      entry_ok := fun e he => hr.entryOk e (hsort.mem_iff.mp he)
      usage_le := fun a => (cover_perm hsort a).le
      pages := (pagesOf_perm hsort).le
      metadata := by simp
      zones_lt := Nat.two_pow_pos 64 }
  obtain ⟨zs, hinv, hcarve⟩ := hstart.zoneLoop hr hzones
  -- the page info
  obtain ⟨hrest, hI⟩ := claim_entryOk hclaim hinv.entry_ok
  have hpages : pagesOf rest ≤ pagesOf z.entries :=
    (Nat.le_add_left _ _).trans_eq (claim_pages hclaim).1.symm
  have hrestLength := (claim_pages hclaim).2
  obtain ⟨I, segmentStore, infoStore, hinfoStore, hstores, hcover, hreturns⟩ :
      ∃ I segmentStore infoStore, infoStore = roundUp (roundUp infoStoreAddr sizeofPmInfoSegment +
        hhdmBase + sizeofPmInfoSegment * (z.entries.length + z.contigZones + 1)) sizeofPageInfo ∧
      Stores hhdmBase segmentStore infoStore I
        (z.entries.length + z.contigZones) (pagesOf regions) ∧
      (∀ a, cover z.entries a = cover (I :: rest) a) ∧
      ∀ l, addZoneSegments hhdmBase segmentStore infoStore z.contigZones z.zones
        (addRegionSegments hhdmBase segmentStore infoStore
          { mem := z.mem, segmentIndex := 0, infoIndex := 0, tail := 0, metadata := z.metadata }
          rest) = some l → s.ingestMemory hhdmBase fuel regions contiguousQuota = some
            { s with
              mem := (addFreeRuns hhdmBase l.mem 0 rest).1
              zones := z.zones
              segments := l.tail
              freelist := (addFreeRuns hhdmBase l.mem 0 rest).2
              zoneCount := z.contigZones
              segmentCount := l.segmentIndex
              pageInfos := ⟨infoStore, sizeofPageInfo * pagesOf regions⟩
              metadata := l.metadata } := by
    refine ⟨_, _, _, rfl, infoStores hI, claim_cover hclaim, fun l hl => ?_⟩
    rw [Pmm.ingestMemory, if_neg hne]
    simp only [hzones]
    rw [pagesOf] at hclaim
    simp only [hclaim, if_neg hI.nonzero, hl, map_some]
    rfl
  have husage : ∀ a, cover rest a + cover [I] a + cover (zs.map Zone.span) a +
      cover (zs.map Zone.header) a + cover (zs.map Zone.bits) a ≤ cover regions a := by
    intro a
    have hle := hinv.usage_le a
    rw [hcover] at hle
    simp only [cover_cons, cover_nil] at hle ⊢
    omega
  have hone := fun a => (husage a).trans (cover_le_one_of_pairwise hr.disjoint a)
  -- the segments
  have hzmapped : ∀ y ∈ zs, y.span.base + y.span.length < 2 ^ 64 :=
    fun y hy => (hinv.zone_ok y hy).2
  have hzpages : pagesOf (zs.map Zone.span) = (zs.map Zone.count).sum := by
    simp only [pagesOf, List.map_map]
    congr 1
    refine List.map_congr_left fun y _ => ?_
    exact Nat.mul_div_cancel _ (by decide)
  have hlength : (nonempty rest).length + zs.length ≤ z.entries.length + z.contigZones := by
    have hle : (nonempty rest).length ≤ rest.length := length_filter_le _ _
    rw [hinv.count]
    omega
  have htotal : pagesOf (nonempty rest) + pagesOf (zs.map Zone.span) ≤ pagesOf regions := by
    have hle := hinv.pages
    rw [pagesOf_nonempty]
    omega
  have hstart : SegmentLoop.Inv hhdmBase segmentStore infoStore I z.metadata z.mem
      { mem := z.mem, segmentIndex := 0, infoIndex := 0, tail := 0, metadata := z.metadata } [] :=
    ⟨rfl, rfl, refl _ _, rfl, fun m hm => .inl hm⟩
  have hregions := hstart.addSegments hstores (nonempty rest)
    (by rw [length_nil]; omega) (by rw [pagesOf, map_nil, sum_nil]; omega)
    fun g hg => by
      have hmapped := (hrest g (mem_of_mem_filter hg)).mapped
      omega
  have hzheader : ∀ a, 0 < cover (zs.map Zone.header) a ∨ 0 < cover (zs.map Zone.bits) a →
      ¬ I.Contains a ∧ cover rest a = 0 := by
    intro a ha
    have hle := hone a
    by_cases hin : I.Contains a
    · rw [cover_cons, if_pos hin] at hle
      omega
    · exact ⟨hin, by omega⟩
  obtain ⟨l, hsegments, hall⟩ := addZoneSegments_spec hregions hstores hinv.zoneList hinv.count.ge
    (fun y hy a ha => (hzheader a (.inl (cover_map_pos hy ha))).1) hlength htotal hzmapped
  rw [← addRegionSegments_eq] at hsegments
  -- the free runs
  obtain ⟨hfree, hsame⟩ := addFreeRuns_spec l.mem
    (show RecordList (FreeAt hhdmBase l.mem) 0 [] from rfl) (Nat.two_pow_pos 64) (by simp)
    hrest fun a => by
      have hle := hone a
      rw [map_nil, cover_nil]
      omega
  have hzmem : ∀ a, 0 < cover (zs.map Zone.header) a ∨ 0 < cover (zs.map Zone.bits) a →
      (addFreeRuns hhdmBase l.mem 0 rest).1 a = z.mem a := by
    intro a ha
    obtain ⟨hnotin, hzero⟩ := hzheader a ha
    rw [hsame a hzero, hall.only a hnotin]
  have hheader := lastSegment_header (nonempty rest ++ zs.map Zone.span) hstores
    (by rw [length_append, length_map]; exact hlength)
  refine ⟨_, { runs := pushRuns [] rest, zones := zs, bit := fun _ _ => false,
               segments := lastSegment hhdmBase segmentStore infoStore
                 (nonempty rest ++ zs.map Zone.span), info := [I],
               pageInfos := ⟨infoStore, sizeofPageInfo * pagesOf regions⟩ }, hreturns l hsegments,
    ⟨?_, ?_⟩, ⟨hfree, ?_, hinv.count.ge, ?_, ?_, ?_, ?_, ?_⟩, ?_, ?_,
    fun y hy => (hinv.zone_ok y hy).1, fun _ _ => rfl,
    rest, ?_, rfl, hrest, pagesOf_nonempty rest ▸ htotal, I, segmentStore, infoStore, rfl, rfl, rfl,
    ?_⟩
  · refine pushRuns_forall (by simp) fun e he h0 => ?_
    have hlen := (hrest e he).length
    simp only [PageSize] at hlen ⊢
    omega
  · intro g hg a ha
    exact cover_pos.mpr ⟨I, mem_cons_self, hheader g hg a ha⟩
  · exact hinv.zoneList.congr fun y hy p q hp => hp.congr fun a ha =>
      hzmem a (.inl (cover_map_pos hy ha))
  · intro y hy i hi
    have hbyte := hzmem _ (.inr (cover_map_pos hy (Zone.bits_contains hi)))
    simp only [getBit, hbyte]
    exact hinv.bits y hy i hi
  · refine hall.list.congr fun g hg p q hp => hp.congr fun a ha => hsame a ?_
    have hin := hheader g hg a ha
    have hle := hone a
    rw [cover_cons, if_pos hin] at hle
    omega
  · exact (lastSegment_length _ _ _).trans hall.segmentIndex.ge
  · rw [hinfoStore]
  · intro m hm a ha
    simp only [PmmView.records, cover_append, cover_cons]
    rcases hall.metadata m hm with hm | hin
    · have hpos := hinv.metadata m hm a ha
      omega
    · rw [if_pos (hin a ha)]
      omega
  · intro a
    have hle := husage a
    simp only [PmmView.records, cover_append, cover_pushRuns [] hrest, map_nil, cover_nil,
      cover_cons] at hle ⊢
    omega
  · refine pushRuns_forall (by simp) fun e he _ => ?_
    exact (hrest e he).base
  · rw [carve]
    simp only [map_nil] at hcarve
    rw [hcarve, bind_some]
    simp only [length_map, ← hinv.count, hclaim, map_some]
  · rw [hrestLength, ← hinv.count]
    exact hstores

/-- **`IngestMemory`** sets up a view. -/
theorem Pmm.ingested {s s' : Pmm} (hr : Usable hhdmBase regions)
    (h : s.ingestMemory hhdmBase fuel regions contiguousQuota = some s') :
    ∃ v, Ingested hhdmBase fuel regions contiguousQuota s' v := by
  obtain ⟨hne, -, z, infoStoreAddr, rest, hzones, hclaim⟩ := Pmm.ingestMemory_cases h
  obtain ⟨s'', v, h', hv⟩ := Pmm.ingest_returns hr hne hzones hclaim
  exact ⟨v, some.inj (h'.symm.trans h) ▸ hv⟩

end Northport.Memory
