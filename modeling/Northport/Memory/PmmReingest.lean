/-
# Further calls of IngestMemory

`PMM::Init` and `ReclaimBootMemory` call `IngestMemory` several times.  Each call begins the freelist,
the list of the zones and the list of the segments anew, so that what the PMM knew before is
lost.  What is left of it are the blocks that are held: single pages can still be freed, blocks of a
lost zone are dropped.
-/
import Northport.Memory.PmmLookup

namespace Northport.Memory

open Lib List Option PmmView Block Pmm

variable {hhdmBase : ℕ} {regions : List MemmapEntry} {s s' : Pmm} {v : PmmView}
  {R : List MemmapEntry} {a contiguousQuota fuel : ℕ} {b : Block} {g : Grown}
  {live lost : List Block} {mem : ByteMem}

/-! ### Runs with several calls -/

/-- The PMM with its clients, and the regions that were given to it. -/
structure Grown where
  clients : Clients Pmm
  regions : List MemmapEntry := []

inductive GrowOp where
  | ingest (fuel : ℕ) (entries : List MemmapEntry) (contiguousQuota : ℕ)
  | client (op : PmmOp)

def Grown.step (hhdmBase : ℕ) (g : Grown) : GrowOp → Option Grown
  | .ingest fuel entries contiguousQuota =>
    (g.clients.core.ingestMemory hhdmBase fuel entries contiguousQuota).map fun core =>
      { clients := { g.clients with core := core }, regions := entries ++ g.regions }
  | .client op => ((pmmManager hhdmBase).step g.clients op).map fun c => { g with clients := c }

/-- The regions of a call are apart from those of the calls before, and its assertions do not
fire. -/
def Grown.Ok (hhdmBase : ℕ) (g : Grown) : GrowOp → Prop
  | .ingest fuel entries contiguousQuota => Usable hhdmBase (entries ++ g.regions) ∧
      (g.clients.core.ingestMemory hhdmBase fuel entries contiguousQuota).isSome
  | .client op => (pmmManager hhdmBase).Ok g.clients op

/-- What the PMM knows of its regions.  It manages the regions `R` with the blocks `live`; the
blocks `lost` are of zones that it has forgotten. -/
structure Grown.Knows (hhdmBase : ℕ) (g : Grown) (v : PmmView) (R : List MemmapEntry)
    (live lost : List Block) : Prop where
  holds : g.clients.core.Holds hhdmBase v
  quiet : g.clients.core.trashAfterUse = false ∧ g.clients.core.trashBeforeUse = false
  all : Usable hhdmBase g.regions
  usable : Usable hhdmBase R
  valid : v.Valid R live
  blocks : g.clients.blocks.Perm (live ++ lost)
  cover_le : ∀ a, cover R a + cover (lost.map span) a ≤ cover g.regions a
  lost_ok : ∀ b ∈ lost, b.pages ≠ 1 ∧ 0 < b.pages ∧ b.base % PageSize = 0
  segment : ∀ x ∈ v.segments, x.info ≠ 0 ∧ (∀ a, x.span.Contains a → 0 < cover R a) ∧
    (v.zones = [] → 0 < x.length)

/-- A lost block is apart from everything that the PMM manages. -/
lemma Grown.Knows.lost_apart (h : g.Knows hhdmBase v R live lost) (hb : b ∈ lost)
    (ha : b.span.Contains a) : cover R a = 0 := by
  have hle := h.cover_le a
  have hone := cover_le_one_of_pairwise h.all.disjoint a
  have hpos : 0 < cover (lost.map span) a := cover_map_pos hb ha
  omega

/-- `Free` of a lost block does nothing. -/
lemma Grown.Knows.free_lost (h : g.Knows hhdmBase v R live lost) (hb : b ∈ lost) :
    g.clients.core.free hhdmBase b.base b.pages = some g.clients.core := by
  obtain ⟨hone, hpos, haligned⟩ := h.lost_ok b hb
  have hself : b.span.Contains b.base := by
    simp only [Block.span, Span.Contains, PageSize]
    omega
  have hzero := h.lost_apart hb hself
  have hnone : v.zones.find? (fun z => z.span.Contains b.base) = none := by
    refine find?_eq_none.mpr fun z hz hspan => ?_
    have hzone : 0 < cover (v.zones.map Zone.span) b.base := cover_map_pos hz (by simpa using hspan)
    have hle := h.valid.usage_le b.base
    simp only [usage] at hle
    omega
  have hzones := freeToZones_eq b.base (n := b.pages) h.holds.zoneList h.holds.zones_le
  rw [hnone] at hzones
  rw [Pmm.free]
  split_ifs
  · rfl
  · simp only [haligned, Nat.sub_zero, hzones, map_none]

/-- What is known of the segments stays when the layout does. -/
lemma segment_of_sameLayout {v' : PmmView} (hsame : v.SameLayout v')
    (h : ∀ x ∈ v.segments, x.info ≠ 0 ∧ (∀ a, x.span.Contains a → 0 < cover R a) ∧
      (v.zones = [] → 0 < x.length)) :
    ∀ x ∈ v'.segments, x.info ≠ 0 ∧ (∀ a, x.span.Contains a → 0 < cover R a) ∧
      (v'.zones = [] → 0 < x.length) := by
  rw [hsame.segments, hsame.zones]
  exact h

/-- **A step of the clients.** -/
lemma Grown.Knows.client (h : g.Knows hhdmBase v R live lost) {op : PmmOp}
    (hop : (pmmManager hhdmBase).Ok g.clients op) :
    ∃ c v' live' lost', (pmmManager hhdmBase).step g.clients op = some c ∧
      Grown.Knows hhdmBase { g with clients := c } v' R live' lost' := by
  obtain ⟨hholds, ⟨hafter, hbefore⟩, hall, hr, hvalid, hblocks, hcover, hlost, hsegment⟩ := id h
  cases op with
  | alloc n =>
    obtain ⟨⟨a, v'⟩, halloc⟩ : ∃ x, v.alloc n = some x := by
      refine ne_none_iff_exists'.mp fun hnone => ?_
      have hfail : (pmmManager hhdmBase).alloc g.clients.core n = none := hholds.alloc_none hnone
      rw [Manager.Ok, hfail] at hop
      exact Bool.false_ne_true hop
    obtain ⟨s', hs', hholds', hsame⟩ := hholds.alloc hr hvalid (.inr (.inl hbefore)) halloc
    have hok : v'.Valid R (if a = 0 then live else ⟨a, n⟩ :: live) :=
      viewOk_alloc hr (c := ⟨v, live, []⟩) hvalid halloc
    refine ⟨_, v', if a = 0 then live else ⟨a, n⟩ :: live, lost, Manager.step_alloc hs',
      hholds', ⟨hsame.1.trans hafter, hsame.2.trans hbefore⟩, hall, hr, hok, ?_, hcover, hlost,
      segment_of_sameLayout (alloc_sameLayout halloc) hsegment⟩
    split_ifs
    · exact hblocks
    · exact hblocks.cons _
  | free b =>
    by_cases hlive : b ∈ live
    · obtain ⟨s', hs', hholds', hsame⟩ := hholds.free hr hvalid hlive (.inr hafter)
      refine ⟨_, v.free b, live.erase b, lost, Manager.step_free hs', hholds',
        ⟨hsame.1.trans hafter, hsame.2.trans hbefore⟩, hall, hr, hvalid.free hr hlive, ?_, hcover,
        hlost, segment_of_sameLayout (v.free_sameLayout b) hsegment⟩
      have hperm := hblocks.erase b
      rwa [erase_append_left _ hlive] at hperm
    · have hmem : b ∈ lost :=
        (mem_append.mp (hblocks.mem_iff.mp hop)).resolve_left hlive
      have hfree : (pmmManager hhdmBase).free g.clients.core b = some g.clients.core :=
        h.free_lost hmem
      refine ⟨_, v, live, lost.erase b, Manager.step_free hfree, hholds, ⟨hafter, hbefore⟩, hall, hr,
        hvalid, ?_, fun a => ?_, fun x hx => hlost x (mem_of_mem_erase hx), hsegment⟩
      · have hperm := hblocks.erase b
        rwa [erase_append_right _ hlive] at hperm
      · have hle := hcover a
        have hsplit := cover_perm ((perm_cons_erase hmem).map Block.span) a
        rw [map_cons, cover_cons] at hsplit
        simp only
        omega
  | write a x =>
    obtain ⟨b, hb, ha⟩ := hop
    refine ⟨_, v, live, lost, rfl, ?_, ⟨hafter, hbefore⟩, hall, hr, hvalid, hblocks, hcover, hlost,
      hsegment⟩
    rcases mem_append.mp (hblocks.mem_iff.mp hb) with hlive | hmem
    · exact hholds.write hr hvalid hlive ha x
    · -- the forgotten zones hold nothing of the view
      have hframed : g.clients.core.Framed b.span
          { g.clients.core with mem := Function.update g.clients.core.mem a x } :=
        ⟨ByteMem.OnlyWrites.update ha, rfl⟩
      refine hframed.holds hholds hvalid.toStored fun y hy hstored => ?_
      have hzero := h.lost_apart hmem hy
      have hle := hvalid.usage_le y
      simp only [usage, stored] at hle hstored
      omega

/-! ### A further call -/

/-- The single pages that are held are usable regions themselves. -/
lemma PmmView.Valid.single_entryOk (hr : Usable hhdmBase R) (h : v.Valid R live)
    (hb : b ∈ singles live) : EntryOk hhdmBase b.span := by
  obtain ⟨hmem, hone⟩ := mem_filter.mp hb
  have hone : b.pages = 1 := by simpa using hone
  have hbase := h.block_base hr hmem
  -- the last address of the page is mapped, so its end is
  have hlast : b.span.Contains (b.base + 0xfff) := by
    simp only [Block.span, Span.Contains, PageSize, hone]
    omega
  have hused := cover_map_pos hb hlast
  have hle := h.usage_le (b.base + 0xfff)
  simp only [usage] at hle
  obtain ⟨e, he, hea⟩ := cover_pos.mp (show 0 < cover R (b.base + 0xfff) by omega)
  have hmapped := hr.mapped e he
  refine ⟨hbase.2.2, Nat.mul_mod_left _ _, hbase.1, ?_⟩
  simp only [Block.span, Span.Contains, PageSize, hone] at hea ⊢
  omega

lemma cover_zoneBlocks_le (h : v.Valid R live) (a : ℕ) :
    cover ((zoneBlocks live).map span) a ≤ cover (v.zones.map Zone.span) a := by
  by_cases hpos : 0 < cover ((zoneBlocks live).map span) a
  · obtain ⟨t, ht, hta⟩ := cover_pos.mp hpos
    obtain ⟨b, hb, rfl⟩ := mem_map.mp ht
    obtain ⟨-, z, hz, k, hbase, hk⟩ := h.block_ok b hb
    exact (h.block_disjoint a).trans (cover_map_pos hz (Zone.span_of_block hbase hk hta))
  · omega

/-- The segments that a call sets up describe its regions. -/
lemma Ingested.segment_ok (h : Ingested hhdmBase fuel regions contiguousQuota s v) :
    ∀ x ∈ v.segments, x.info ≠ 0 ∧ (∀ a, x.span.Contains a → 0 < cover regions a) ∧
      (v.zones = [] → 0 < x.length) := by
  obtain ⟨rest, -, hruns, hok, -, I, segmentStore, infoStore, -, -, hsegments, hstores⟩ := h.parts
  intro x hx
  rw [hsegments, lastSegment] at hx
  cases hlast : (nonempty rest ++ v.zones.map Zone.span).getLast? with
  | none =>
    rw [hlast] at hx
    cases hx
  | some t =>
    rw [hlast] at hx
    obtain rfl := mem_singleton.mp hx
    have hmem := mem_of_getLast? hlast
    refine ⟨?_, fun a ha => ?_, fun hz => ?_⟩
    · have hlo := hstores.info_lo
      have hne := hstores.mapped.nonzero
      simp only
      omega
    · have hle := h.usage_le a
      rw [hruns, cover_pushRuns [] hok] at hle
      rcases mem_append.mp hmem with hmem | hmem
      · have hpos : 0 < cover rest a := cover_pos.mpr ⟨t, mem_of_mem_filter hmem, ha⟩
        omega
      · have hpos : 0 < cover (v.zones.map Zone.span) a := cover_pos.mpr ⟨t, hmem, ha⟩
        omega
    · rw [hz, map_nil, append_nil] at hmem
      have hne := (mem_filter.mp hmem).2
      simp only [ne_eq, decide_not, Bool.not_eq_eq_eq_not, Bool.not_true,
        decide_eq_false_iff_not] at hne
      simp only
      omega

/-- **A further call of `IngestMemory`**: only the single pages that are held are left of what
the PMM managed. -/
lemma Grown.Knows.ingest (h : g.Knows hhdmBase v R live lost) {entries : List MemmapEntry}
    (hall : Usable hhdmBase (entries ++ g.regions))
    (hingest : g.clients.core.ingestMemory hhdmBase fuel entries contiguousQuota = some s') :
    ∃ v', Ingested hhdmBase fuel entries contiguousQuota s' v' ∧
      Grown.Knows hhdmBase { clients := { g.clients with core := s' }
                             regions := entries ++ g.regions } v'
        (entries ++ (singles live).map Block.span) (singles live) (zoneBlocks live ++ lost) := by
  obtain ⟨hholds, ⟨hafter, hbefore⟩, -, hr, hvalid, hblocks, hcover, hlost, hsegment⟩ := id h
  have hsettings := ingestMemory_settings hingest
  have hleft := hall.sublist (sublist_append_left entries _)
  obtain ⟨v', hv'⟩ := ingested hleft hingest
  have hsingles : singles (singles live) = singles live := by simp [singles]
  have hzones : zoneBlocks (singles live) = [] := by
    rw [zoneBlocks, singles, List.filter_filter]
    simp
  have hcover' : ∀ a, cover (entries ++ (singles live).map Block.span) a +
      cover ((zoneBlocks live ++ lost).map Block.span) a ≤ cover (entries ++ g.regions) a := by
    intro a
    have hle := hcover a
    have husage := hvalid.usage_le a
    have hzone := cover_zoneBlocks_le hvalid a
    simp only [usage] at husage
    simp only [cover_append, map_append]
    omega
  have hone := cover_le_one_of_pairwise hall.disjoint
  refine ⟨v', hv', hv'.holds, ⟨hsettings.1.trans hafter, hsettings.2.trans hbefore⟩, hall, ?_,
    ⟨hv'.toStored, ?_, hv'.run_ok, ?_, hv'.zone_ok, ?_, ?_, ?_⟩, ?_, hcover', ?_, ?_⟩
  · have hok : ∀ e ∈ entries ++ (singles live).map Block.span, EntryOk hhdmBase e :=
      forall_mem_append.mpr ⟨hleft.entryOk,
        forall_mem_map.mpr fun b hb => hvalid.single_entryOk hr hb⟩
    refine ⟨pairwise_disjoint_of_cover fun a => ?_, fun e he => ⟨(hok e he).base, (hok e he).length⟩,
      fun e he => (hok e he).nonzero, fun e he => (hok e he).mapped⟩
    have hle := hcover' a
    have hle' := hone a
    omega
  · intro a
    have hle := hv'.usage_le a
    simp only [usage, hsingles, cover_append]
    omega
  · rw [hsingles]
    exact hvalid.single_ok
  · simp [hzones]
  · rw [hzones]
    exact fun _ => zero_le
  · rw [hzones]
    exact fun _ _ _ _ hc => absurd hc (lt_irrefl 0)
  · rw [← append_assoc]
    exact hblocks.trans ((singles_append_zoneBlocks live).symm.append_right lost)
  · refine forall_mem_append.mpr ⟨fun b hb => ?_, hlost⟩
    obtain ⟨hmem, hmany⟩ := mem_filter.mp hb
    exact ⟨by simpa using hmany, hvalid.block_pos hmem, (hvalid.block_base hr hmem).2.2⟩
  · intro x hx
    obtain ⟨hinfo, hspan, hlen⟩ := hv'.segment_ok x hx
    refine ⟨hinfo, fun a ha => ?_, hlen⟩
    have hpos := hspan a ha
    rw [cover_append]
    omega

/-- The PMM before the first call. -/
lemma Grown.knows_init (hhdmBase : ℕ) (mem : ByteMem) :
    Grown.Knows hhdmBase { clients := { core := init mem } }
      { runs := [], zones := [], bit := fun _ _ => false, segments := [], info := [],
        pageInfos := ⟨0, 0⟩ } [] [] [] := by
  have hnone : Usable hhdmBase [] := by constructor <;> simp
  refine ⟨⟨rfl, rfl, le_rfl, ?_, rfl, le_rfl, rfl, ?_⟩, ⟨rfl, rfl⟩, hnone, hnone,
    ⟨⟨?_, ?_⟩, fun _ => le_rfl, ?_, ?_, ?_, ?_, fun _ => zero_le, ?_⟩, Perm.refl _,
    fun _ => le_rfl, ?_, ?_⟩
  all_goals simp [init, singles, zoneBlocks]

/-- **Every reached state** is known. -/
lemma Grown.run_knows {ops : List GrowOp} (hops : Allowed (Grown.step hhdmBase) (Grown.Ok hhdmBase)
      { clients := { core := init mem } } ops) :
    ∃ g, run (Grown.step hhdmBase) { clients := { core := init mem } } ops = some g ∧
      ∃ v R live lost, g.Knows hhdmBase v R live lost := by
  have hstep : ∀ (g : Grown) (op : GrowOp), (∃ v R live lost, g.Knows hhdmBase v R live lost) →
      Grown.Ok hhdmBase g op → ∃ g', Grown.step hhdmBase g op = some g' ∧
        ∃ v R live lost, g'.Knows hhdmBase v R live lost := by
    rintro g op ⟨v, R, live, lost, h⟩ hop
    cases op with
    | ingest fuel entries contiguousQuota =>
      obtain ⟨hall, hsome⟩ := hop
      obtain ⟨s', hs'⟩ := isSome_iff_exists.mp hsome
      obtain ⟨v', -, h'⟩ := h.ingest hall hs'
      exact ⟨_, by rw [Grown.step, hs']; rfl, v', _, _, _, h'⟩
    | client op =>
      obtain ⟨c, v', live', lost', hc, h'⟩ := h.client hop
      exact ⟨_, by rw [Grown.step, hc]; rfl, v', R, live', lost', h'⟩
  exact run_invariant _ hstep ⟨_, _, _, _, Grown.knows_init hhdmBase mem⟩ hops

/-! ### What a call keeps -/

/-- A page can be allocated: it is on the freelist, or its bit in a zone of the list is clear. -/
def Pmm.FreePage (hhdmBase : ℕ) (s : Pmm) (a : ℕ) : Prop :=
  (∃ runs, RecordList (FreeAt hhdmBase s.mem) s.freelist runs ∧ ∃ r ∈ runs, r.span.Contains a) ∨
    ∃ zs, RecordList (ZoneAt hhdmBase s.mem) s.zones zs ∧ ∃ z ∈ zs, ∃ i < z.count,
      s.mem.getBit z.bitmap i = false ∧ (⟨z.page i, 1⟩ : Block).span.Contains a

/-- `Free` finds the zone. -/
def Pmm.ZoneListed (hhdmBase : ℕ) (s : Pmm) (z : Zone) : Prop :=
  ∃ zs, RecordList (ZoneAt hhdmBase s.mem) s.zones zs ∧ z ∈ zs

/-- What was free, reachable or known before a call still is after it. -/
structure Pmm.Keeps (hhdmBase : ℕ) (s s' : Pmm) : Prop where
  free : ∀ a, s.FreePage hhdmBase a → s'.FreePage hhdmBase a
  zone : ∀ z, s.ZoneListed hhdmBase z → s'.ZoneListed hhdmBase z
  lookup : ∀ a info, s.lookup hhdmBase a = some info → info ≠ 0 →
    s'.lookup hhdmBase a = some info

lemma freeAt_unique (p : ℕ) (x x' : Block) (q q' : ℕ) (h : FreeAt hhdmBase mem p x q)
    (h' : FreeAt hhdmBase mem p x' q') : x = x' ∧ q = q' := by
  obtain ⟨hp, hpages, hq⟩ := h
  obtain ⟨hp', hpages', hq'⟩ := h'
  have hbase : x.base = x'.base := by omega
  rw [← hbase] at hpages' hq'
  refine ⟨?_, hq.symm.trans hq'⟩
  cases x
  cases x'
  simp only [Block.mk.injEq]
  exact ⟨hbase, hpages.symm.trans hpages'⟩

lemma zoneAt_unique (p : ℕ) (x x' : Zone) (q q' : ℕ) (h : ZoneAt hhdmBase mem p x q)
    (h' : ZoneAt hhdmBase mem p x' q') : x = x' ∧ q = q' := by
  obtain ⟨hp, hload⟩ := h
  obtain ⟨hp', hload'⟩ := h'
  rw [hload, PmContigZone.mk.injEq] at hload'
  obtain ⟨hbitmap, hbase, hcount, hq⟩ := hload'
  refine ⟨?_, hq⟩
  cases x
  cases x'
  simp only [Zone.mk.injEq] at *
  omega

/-- Only addresses of the managed regions are free. -/
lemma Pmm.Holds.freePage_cover (h : s.Holds hhdmBase v)
    (hle : ∀ a, cover (v.runs.map span) a + cover (v.zones.map Zone.span) a ≤ cover R a)
    (ha : s.FreePage hhdmBase a) : 0 < cover R a := by
  have hle := hle a
  rcases ha with ⟨runs, hruns, r, hr, hra⟩ | ⟨zs, hzs, z, hz, i, hi, -, hza⟩
  · rw [hruns.unique h.freelist freeAt_unique] at hr
    have hpos : 0 < cover (v.runs.map span) a := cover_map_pos hr hra
    omega
  · rw [hzs.unique h.zoneList zoneAt_unique] at hz
    have hpos : 0 < cover (v.zones.map Zone.span) a :=
      cover_map_pos hz (Zone.span_of_block (b := ⟨z.page i, 1⟩) rfl (by simp only; omega) hza)
    omega

/-- The first run of the freelist is free. -/
lemma Pmm.Holds.freePage_head (h : s.Holds hhdmBase v) {r : Block} (hr : r ∈ v.runs)
    (hpos : 0 < r.pages) : s.FreePage hhdmBase r.base := by
  refine .inl ⟨v.runs, h.freelist, r, hr, ?_⟩
  simp only [Block.span, Span.Contains, PageSize]
  omega

/-- **`IngestMemory` keeps what there was exactly if there was nothing**: no free page on the
freelist, no zone and no info segment. -/
theorem ingest_keeps_iff {mem : ByteMem} {ops : List GrowOp} {g : Grown} {fuel contiguousQuota : ℕ}
    {entries : List MemmapEntry}
    (hops : Allowed (Grown.step hhdmBase) (Grown.Ok hhdmBase)
      { clients := { core := init mem } } ops)
    (hrun : run (Grown.step hhdmBase) { clients := { core := init mem } } ops = some g)
    (hall : Usable hhdmBase (entries ++ g.regions))
    (hingest : g.clients.core.ingestMemory hhdmBase fuel entries contiguousQuota = some s') :
    g.clients.core.Keeps hhdmBase s' ↔
      g.clients.core.freelist = 0 ∧ g.clients.core.zones = 0 ∧ g.clients.core.segments = 0 := by
  obtain ⟨g', hrun', v, R, live, lost, h⟩ := Grown.run_knows hops
  cases hrun.symm.trans hrun'
  obtain ⟨v', hv', -⟩ := h.ingest hall hingest
  -- no address is both in the old regions and in the new ones
  have hapart : ∀ a, 0 < cover R a → cover entries a = 0 := by
    intro a ha
    have hle := h.cover_le a
    have hone := cover_le_one_of_pairwise hall.disjoint a
    rw [cover_append] at hone
    omega
  have hold := h.valid.usage_le
  have hnew := hv'.usage_le
  constructor
  · intro hkeeps
    have hfree : v.runs = [] := by
      by_contra hne
      obtain ⟨r, hr⟩ := exists_mem_of_ne_nil _ hne
      have hfree' := hkeeps.free _ (h.holds.freePage_head hr (h.valid.run r hr))
      have hcover := hv'.holds.freePage_cover (R := entries)
        (fun a => (Nat.le_add_right _ _).trans (hnew a)) hfree'
      have hused := h.holds.freePage_cover (R := R) (fun a => by
        have hle := hold a
        simp only [usage] at hle
        omega) (h.holds.freePage_head hr (h.valid.run r hr))
      have hzero := hapart _ hused
      omega
    have hzones : v.zones = [] := by
      by_contra hne
      obtain ⟨z, hz⟩ := exists_mem_of_ne_nil _ hne
      obtain ⟨zs, hzs, hz'⟩ := hkeeps.zone z ⟨v.zones, h.holds.zoneList, hz⟩
      rw [hzs.unique hv'.holds.zoneList zoneAt_unique] at hz'
      have hheader : z.header.Contains z.addr := by
        simp only [Zone.header, Span.Contains, sizeofPmContigZone]
        omega
      have hpos : 0 < cover (v.zones.map Zone.header) z.addr := cover_map_pos hz hheader
      have hpos' : 0 < cover (v'.zones.map Zone.header) z.addr := cover_map_pos hz' hheader
      have hle := hold z.addr
      have hle' := hnew z.addr
      have hzero := hapart z.addr
      simp only [usage, records, cover_append] at hle hle'
      omega
    have hsegments : v.segments = [] := by
      by_contra hne
      obtain ⟨x, l, hx⟩ := exists_cons_of_ne_nil hne
      obtain ⟨hinfo, hspan, hlength⟩ := h.segment x (hx ▸ mem_cons_self)
      have hlen := hlength hzones
      have hself : x.span.Contains x.base := by
        simp only [Segment.span, Span.Contains]
        omega
      -- the page info of the first page of the segment is not found any more
      have hlookup : v.lookup x.base = x.info := by
        rw [PmmView.lookup, hx, find?_cons_of_pos (by simpa using hself)]
        simp
      have hkept := hkeeps.lookup x.base x.info (by rw [h.holds.lookup, hlookup]) hinfo
      rw [hv'.holds.lookup, some.injEq] at hkept
      have hnone : v'.lookup x.base = 0 := by
        rw [PmmView.lookup, find?_eq_none.mpr]
        intro y hy hya
        have hpos := (hv'.segment_ok y hy).2.1 x.base (by simpa using hya)
        have hzero := hapart x.base (hspan x.base hself)
        omega
      exact hinfo (hkept.symm.trans hnone)
    exact ⟨h.holds.freelist.eq_nil_iff.mp hfree, h.holds.zoneList.eq_nil_iff.mp hzones,
      h.holds.segmentList.eq_nil_iff.mp hsegments⟩
  · rintro ⟨hfreelist, hzones, hsegments⟩
    have hnil : v.runs = [] := h.holds.freelist.eq_nil_iff.mpr hfreelist
    have hznil : v.zones = [] := h.holds.zoneList.eq_nil_iff.mpr hzones
    have hsnil : v.segments = [] := h.holds.segmentList.eq_nil_iff.mpr hsegments
    refine ⟨fun a ha => ?_, fun z hz => ?_, fun a info hinfo hne => ?_⟩
    · rcases ha with ⟨runs, hruns, r, hr, -⟩ | ⟨zs, hzs, z, hz, -⟩
      · rw [hruns.unique h.holds.freelist freeAt_unique, hnil] at hr
        cases hr
      · rw [hzs.unique h.holds.zoneList zoneAt_unique, hznil] at hz
        cases hz
    · obtain ⟨zs, hzs, hz⟩ := hz
      rw [hzs.unique h.holds.zoneList zoneAt_unique, hznil] at hz
      cases hz
    · rw [h.holds.lookup, PmmView.lookup, hsnil] at hinfo
      exact absurd (some.inj hinfo).symm hne

lemma ingest_again : ((get _ ingest_sixPages).ingestMemory 0xffff800000000000 0
    [⟨0x100000, 0x3000⟩] 0).isSome = true := by
  decide +kernel

lemma usable_again : Usable 0xffff800000000000 ([⟨0x100000, 0x3000⟩] ++ sixPages) := by
  constructor <;> simp [sixPages, PageSize, Span.Disjoint, Span.Contains]
  omega

/-- The first call finds nothing that it could lose, and the second one does. -/
theorem ingest_keeps_iff_twice :
    (init fun _ => 0#8).Keeps 0xffff800000000000 (get _ ingest_sixPages) ∧
    ¬ (get _ ingest_sixPages).Keeps 0xffff800000000000 (get _ ingest_again) := by
  have hfirst := (some_get ingest_sixPages).symm
  refine ⟨(@ingest_keeps_iff _ _ (fun _ => 0#8) [] _ 1 2 sixPages trivial rfl usable_sixPages
    hfirst).mpr ⟨rfl, rfl, rfl⟩, fun hkeeps => ?_⟩
  have hops : Allowed (Grown.step 0xffff800000000000) (Grown.Ok 0xffff800000000000)
      { clients := { core := init fun _ => 0#8 } } [.ingest 1 sixPages 2] :=
    ⟨⟨usable_sixPages, ingest_sixPages⟩, fun _ _ => trivial⟩
  have hrun : run (Grown.step 0xffff800000000000) { clients := { core := init fun _ => 0#8 } }
      [.ingest 1 sixPages 2] =
        some { clients := { core := get _ ingest_sixPages }, regions := sixPages } :=
    congrArg (fun r => (r.map fun core => (⟨{ core := core }, sixPages⟩ : Grown)).bind some) hfirst
  obtain ⟨-, hzones, -⟩ :=
    (ingest_keeps_iff hops hrun usable_again (some_get ingest_again).symm).mp hkeeps
  exact absurd hzones (by decide +kernel)

/-- A second call, with a region elsewhere: the page info of the zone is not found any more, and
`Alloc(2)` has lost the zone. -/
theorem ingest_again_forgets :
    Usable 0xffff800000000000 ([⟨0x100000, 0x3000⟩] ++ sixPages) ∧
    ¬ (get _ ingest_sixPages).Keeps 0xffff800000000000 (get _ ingest_again) ∧
    ((get _ ingest_sixPages).alloc 0xffff800000000000 2).map Prod.fst = some 0x5000 ∧
    ((get _ ingest_again).alloc 0xffff800000000000 2).map Prod.fst = some 0 := by
  have hbefore : (get _ ingest_sixPages).lookup 0xffff800000000000 0x5000 =
      some 0xffff800000002080 := by
    decide +kernel
  refine ⟨usable_again, fun hkeeps => ?_, by decide +kernel, by decide +kernel⟩
  have hkept := hkeeps.lookup _ _ hbefore (by decide)
  cases hkept

end Northport.Memory
