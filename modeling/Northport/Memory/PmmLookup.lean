/-
# Lookup finds the pages of the last segment only

`IngestMemory` links all info segments, but enters their list at its tail.  Which pages the clients
can get is known from the regions and zones that it carves; their page infos are found exactly if
all of them are in the last segment.
-/
import Northport.Memory.PmmRuns

namespace Northport.Memory

open Lib List Option PmmView Clients

variable {hhdmBase : ℕ} {regions rest : List MemmapEntry} {s : Pmm} {v v' : PmmView}
  {blocks : List Block} {a fuel contiguousQuota : ℕ} {b r : Block} {d d' : Clients PmmView}
  {c : Clients Pmm} {runs : List Block} {z : Zone}

/-! ### `Lookup` on the view -/

def Segment.span (g : Segment) : Span := ⟨g.base, g.length⟩

/-- The page info of an address, 0 if no segment has it. -/
def PmmView.lookup (v : PmmView) (a : ℕ) : ℕ :=
  match v.segments.find? fun g => g.span.Contains a with
  | none => 0
  | some g => g.info + sizeofPageInfo * ((a - g.base) / PageSize)

lemma lookupFrom_eq {mem : ByteMem} {ptr : ℕ} {gs : List Segment}
    (hgs : RecordList (SegmentAt hhdmBase mem) ptr gs) (hfuel : gs.length ≤ fuel) :
    lookupFrom hhdmBase mem a fuel ptr =
      some (match gs.find? fun g => g.span.Contains a with
        | none => 0
        | some g => g.info + sizeofPageInfo * ((a - g.base) / PageSize)) := by
  induction gs generalizing ptr fuel with
  | nil =>
    rw [lookupFrom.eq_def]
    exact if_pos hgs
  | cons g gs ih =>
    obtain ⟨hne, next, ⟨rfl, hload⟩, hrest⟩ := hgs
    obtain ⟨fuel, rfl⟩ := Nat.exists_eq_add_of_le' (Nat.one_le_of_lt hfuel)
    have hcond : (a < g.base ∨ a ≥ g.base + g.length) ↔ ¬ g.span.Contains a := by
      simp only [Segment.span, Span.Contains]
      omega
    rw [lookupFrom.eq_def]
    simp only [if_neg hne, hload, hcond]
    by_cases hin : g.span.Contains a
    · rw [if_neg (not_not.mpr hin), find?_cons_of_pos (by simpa using hin)]
    · rw [if_pos hin, find?_cons_of_neg (by simpa using hin)]
      exact ih hrest (Nat.le_of_succ_le_succ hfuel)

lemma Pmm.Holds.lookup (h : s.Holds hhdmBase v) (a : ℕ) : s.lookup hhdmBase a = some (v.lookup a) :=
  lookupFrom_eq h.segmentList h.segments_le

/-! ### What no call changes -/

/-- The parts of the view that stay as `IngestMemory` has set them up. -/
structure PmmView.SameLayout (v v' : PmmView) : Prop where
  zones : v'.zones = v.zones
  segments : v'.segments = v.segments
  pageInfos : v'.pageInfos = v.pageInfos

lemma PmmView.SameLayout.trans {w : PmmView} (h : v.SameLayout v') (h' : v'.SameLayout w) :
    v.SameLayout w :=
  ⟨h'.zones.trans h.zones, h'.segments.trans h.segments, h'.pageInfos.trans h.pageInfos⟩

lemma PmmView.alloc_sameLayout {n : ℕ} (h : v.alloc n = some (a, v')) : v.SameLayout v' := by
  simp only [alloc] at h
  split_ifs at h
  · cases h
    exact ⟨rfl, rfl, rfl⟩
  · obtain ⟨r, -, heq⟩ := map_eq_some_iff.mp h
    cases heq
    exact ⟨rfl, rfl, rfl⟩
  · split at h
    · cases h
      exact ⟨rfl, rfl, rfl⟩
    · cases h
      exact ⟨rfl, rfl, rfl⟩

lemma PmmView.free_sameLayout (v : PmmView) (b : Block) : v.SameLayout (v.free b) := by
  rw [free]
  split
  · exact ⟨rfl, rfl, rfl⟩
  · split_ifs <;> exact ⟨rfl, rfl, rfl⟩

/-- The addresses of the freelist and of the single pages that were handed out. -/
def PmmView.pages (v : PmmView) (blocks : List Block) (a : ℕ) : ℕ :=
  cover (v.runs.map Block.span) a + cover ((singles blocks).map Block.span) a

lemma PmmView.Valid.alloc_pages (hr : Usable hhdmBase regions) (h : v.Valid regions blocks) {n : ℕ}
    (halloc : v.alloc n = some (a, v')) (x : ℕ) :
    v'.pages (if a = 0 then blocks else ⟨a, n⟩ :: blocks) x = v.pages blocks x := by
  simp only [PmmView.alloc] at halloc
  split_ifs at halloc with h0 h1
  · cases halloc
    rw [if_pos rfl]
  · obtain ⟨r, hhead, heq⟩ := map_eq_some_iff.mp halloc
    obtain ⟨runs, hruns⟩ := head?_eq_some_iff.mp hhead
    cases heq
    have hne : r.base ≠ 0 := ((h.popRun hruns).block_base hr mem_cons_self).1
    have hcover := cover_popRun (h.run r (hruns ▸ mem_cons_self)) runs x
    subst h1
    rw [if_neg hne, pages, pages, (singles_cons_one rfl blocks).1,
      PmmView.popRun, hruns, hcover]
    simp only [map_cons, cover_cons]
    omega
  · split at halloc
    · cases halloc
      rw [if_pos rfl]
    · cases halloc
      split_ifs
      · rfl
      · rw [pages, (singles_cons_many h1 blocks).1]
        rfl

lemma PmmView.Valid.free_pages (hr : Usable hhdmBase regions) (h : v.Valid regions blocks)
    (hb : b ∈ blocks) (x : ℕ) : (v.free b).pages (blocks.erase b) x = v.pages blocks x := by
  have hperm : (singles blocks).Perm (singles (b :: blocks.erase b)) :=
    (perm_cons_erase hb).filter _
  rw [PmmView.pages, PmmView.pages, cover_perm (hperm.map Block.span)]
  by_cases hone : b.pages = 1
  · have hpage : (⟨b.base, 1⟩ : Block) = b := by rw [← hone]
    rw [PmmView.free, h.zoneOf_single hr hb hone, (singles_cons_one hone _).1]
    simp only [if_pos hone, PmmView.pushRun, map_cons, cover_cons, hpage]
    omega
  · obtain ⟨z, hz, k, hfind, -⟩ := h.zoneOf_block hr hb hone
    rw [PmmView.free, hfind, (singles_cons_many hone _).1]
    rfl

/-- What `IngestMemory` has laid out, along a run. -/
structure Clients.Laid (v : PmmView) (d : Clients PmmView) : Prop where
  layout : v.SameLayout d.core
  pages : ∀ a, d.core.pages d.blocks a = v.pages [] a

lemma Clients.Laid.step (hr : Usable hhdmBase regions) {op : PmmOp} (hd : ViewOk regions d)
    (h : d.Laid v) (hop : viewManager.Ok d op) (hstep : viewManager.step d op = some d') :
    d'.Laid v := by
  cases op with
  | alloc n =>
    obtain ⟨⟨a, v'⟩, halloc, rfl⟩ := map_eq_some_iff.mp hstep
    exact ⟨h.layout.trans (alloc_sameLayout halloc),
      fun x => (hd.alloc_pages hr halloc x).trans (h.pages x)⟩
  | free b =>
    cases hstep
    exact ⟨h.layout.trans (d.core.free_sameLayout b),
      fun x => (hd.free_pages hr hop x).trans (h.pages x)⟩
  | write a x =>
    cases hstep
    exact { h with }

/-! ### One segment -/

/-- The page infos of the clients are found: every page of every block has one, in the array of
the page infos, and no two pages share one. -/
def LookupOk (hhdmBase : ℕ) (c : Clients Pmm) : Prop :=
  (∀ b ∈ c.blocks, ∀ a, b.span.Contains a → ∃ info, c.core.lookup hhdmBase a = some info ∧
    info ≠ 0 ∧ c.core.pageInfos.base ≤ info ∧
    info + sizeofPageInfo ≤ c.core.pageInfos.base + c.core.pageInfos.length) ∧
  ∀ b ∈ c.blocks, ∀ b' ∈ c.blocks, ∀ a a', b.span.Contains a → b'.span.Contains a' →
    a / PageSize ≠ a' / PageSize → c.core.lookup hhdmBase a ≠ c.core.lookup hhdmBase a'

/-- Only the last segment has pages that can be allocated: either a single region is left and there
is no zone, or no region is left and all zones but the last one are too small for a block. -/
def OneSegment (rest : List MemmapEntry) (zones : List Span) : Prop :=
  (nonempty rest = [] ∨ ((nonempty rest).length = 1 ∧ zones = [])) ∧
    ∀ z ∈ zones.dropLast, z.length < 2 * PageSize

instance (rest : List MemmapEntry) (zones : List Span) : Decidable (OneSegment rest zones) := by
  unfold OneSegment
  infer_instance

/-- `Lookup` with the last segment in the list. -/
lemma lookup_lastSegment {segmentStore infoStore : ℕ} {specs : List Span}
    (hv : v.segments = lastSegment hhdmBase segmentStore infoStore specs) (a : ℕ) :
    (∃ g, specs.getLast? = some g ∧ g.Contains a ∧ v.lookup a = infoStore +
      sizeofPageInfo * (pagesOf specs.dropLast + (a - g.base) / PageSize)) ∨
    ((∀ g, specs.getLast? = some g → ¬ g.Contains a) ∧ v.lookup a = 0) := by
  rw [PmmView.lookup, hv, lastSegment]
  cases hlast : specs.getLast? with
  | none => exact .inr ⟨fun g hg => absurd hg (by simp), rfl⟩
  | some g =>
    by_cases hin : g.Contains a
    · refine .inl ⟨g, rfl, hin, ?_⟩
      rw [find?_cons_of_pos (by exact decide_eq_true hin)]
      simp only [mul_add, add_assoc]
    · refine .inr ⟨fun x hx => ?_, ?_⟩
      · rwa [← some.inj hx]
      · simp only
        rw [find?_cons_of_neg (by exact fun h => hin (of_decide_eq_true h))]
        rfl

/-- Each address of a single page that is held is in a region that was left. -/
lemma Clients.Laid.single_in_rest (h : d.Laid v) (hruns : v.runs = pushRuns [] rest)
    (hok : ∀ e ∈ rest, EntryOk hhdmBase e) (ha : 0 < cover ((singles d.blocks).map Block.span) a) :
    ∃ e ∈ nonempty rest, e.Contains a := by
  have hpages := h.pages a
  simp only [PmmView.pages, hruns, cover_pushRuns [] hok, singles, filter_nil, map_nil,
    cover_nil] at hpages ha
  obtain ⟨e, he, hea⟩ := cover_pos.mp (show 0 < cover rest a by omega)
  refine ⟨e, mem_filter.mpr ⟨he, ?_⟩, hea⟩
  simp only [Span.Contains] at hea
  simp only [ne_eq, decide_not, Bool.not_eq_eq_eq_not, Bool.not_true, decide_eq_false_iff_not]
  omega

/-- With one segment, it has every address of every block. -/
lemma Clients.Laid.in_last (hd : ViewOk regions d) (h : d.Laid v)
    (hruns : v.runs = pushRuns [] rest) (hok : ∀ e ∈ rest, EntryOk hhdmBase e)
    (hone : OneSegment rest (v.zones.map Zone.span)) (hb : b ∈ d.blocks) (ha : b.span.Contains a) :
    ∃ g, (nonempty rest ++ v.zones.map Zone.span).getLast? = some g ∧ g.Contains a := by
  obtain ⟨hrest, hzones⟩ := hone
  by_cases hsingle : b.pages = 1
  · obtain ⟨e, he, hea⟩ :=
      h.single_in_rest hruns hok (cover_map_pos (mem_singles hb hsingle) ha)
    rcases hrest with hnil | ⟨hlength, hnone⟩
    · exact absurd (hnil ▸ he) not_mem_nil
    · obtain ⟨x, hx⟩ := length_eq_one_iff.mp hlength
      rw [hx] at he
      obtain rfl := mem_singleton.mp he
      exact ⟨e, by rw [hx, hnone]; rfl, hea⟩
  · obtain ⟨hpos, z, hz, k, hbase, hk⟩ := hd.block_ok b (mem_zoneBlocks hb hsingle)
    rw [h.layout.zones] at hz
    have hspan : z.span ∈ v.zones.map Zone.span := mem_map_of_mem hz
    rcases hrest with hnil | ⟨-, hnone⟩
    · rw [hnil, nil_append]
      obtain ⟨g, hg⟩ : ∃ g, (v.zones.map Zone.span).getLast? = some g :=
        ⟨_, getLast?_eq_some_getLast (ne_nil_of_mem hspan)⟩
      have hsplit := dropLast_append_getLast? g hg
      refine ⟨g, hg, ?_⟩
      rw [← hsplit, mem_append] at hspan
      rcases hspan with hspan | hspan
      · have hlt := hzones _ hspan
        simp only [Zone.span, PageSize] at hlt
        omega
      · rw [← mem_singleton.mp hspan]
        exact Zone.span_of_block hbase hk ha
    · exact absurd (hnone ▸ hspan) not_mem_nil

/-- **With one segment, the page infos of all blocks are found.** -/
lemma Ingested.lookupOk {s' : Pmm} (hv : Ingested hhdmBase fuel regions contiguousQuota s' v)
    (hsim : c.Sim hhdmBase regions d) (hlaid : d.Laid v)
    (hcarve : carve fuel regions contiguousQuota = some (rest, v.zones.map Zone.span))
    (hone : OneSegment rest (v.zones.map Zone.span)) : LookupOk hhdmBase c := by
  obtain ⟨rest', hcarve', hruns, hok, hpages, I, segmentStore, infoStore, -, hinfos, hsegments,
    hstores⟩ := hv.parts
  cases hcarve.symm.trans hcarve'
  set specs := nonempty rest ++ v.zones.map Zone.span with hspecs
  -- where the page info of an address of a block is
  have hlookup : ∀ b ∈ c.blocks, ∀ a, b.span.Contains a → ∃ g, specs.getLast? = some g ∧
      g.Contains a ∧ c.core.lookup hhdmBase a = some (infoStore +
        sizeofPageInfo * (pagesOf specs.dropLast + (a - g.base) / PageSize)) := by
    intro b hb a ha
    obtain ⟨g, hg, hga⟩ := hlaid.in_last hsim.valid hruns hok hone (hsim.blocks ▸ hb) ha
    have hsegments' : d.core.segments = lastSegment hhdmBase segmentStore infoStore specs :=
      hlaid.layout.segments.trans hsegments
    rcases lookup_lastSegment hsegments' a with ⟨g', hg', -, heq⟩ | ⟨hnone, -⟩
    · cases hg.symm.trans hg'
      exact ⟨g, hg', hga, by rw [hsim.holds.lookup, heq]⟩
    · exact absurd hga (hnone g hg)
  have haligned : ∀ g, specs.getLast? = some g → g.base % PageSize = 0 ∧
      g.length % PageSize = 0 ∧ pagesOf specs.dropLast + g.length / PageSize ≤ pagesOf regions := by
    intro g hg
    have hsplit := congrArg pagesOf (dropLast_append_getLast? g hg)
    rw [pagesOf_append, hspecs, pagesOf_append, pagesOf_nonempty] at hsplit
    have hlast : pagesOf [g] = g.length / PageSize := by simp [pagesOf]
    have hle : pagesOf specs.dropLast + g.length / PageSize ≤ pagesOf regions := by
      rw [hspecs]
      omega
    rcases mem_append.mp (mem_of_getLast? hg) with hmem | hmem
    · have hentry := hok g (mem_of_mem_filter hmem)
      exact ⟨hentry.base, hentry.length, hle⟩
    · obtain ⟨z, hz, rfl⟩ := mem_map.mp hmem
      exact ⟨hv.zone_ok z hz, Nat.mul_mod_left _ _, hle⟩
  have hinfos' : c.core.pageInfos = ⟨infoStore, sizeofPageInfo * pagesOf regions⟩ := by
    rw [hsim.holds.pageInfos, hlaid.layout.pageInfos, hinfos]
  constructor
  · intro b hb a ha
    obtain ⟨g, hg, hga, heq⟩ := hlookup b hb a ha
    refine ⟨_, heq, ?_, ?_, ?_⟩
    · have hlo := hstores.info_lo
      have hne := hstores.mapped.nonzero
      omega
    · rw [hinfos']
      exact Nat.le_add_right _ _
    · obtain ⟨-, hlength, hle⟩ := haligned g hg
      rw [hinfos']
      simp only [Span.Contains, sizeofPageInfo, PageSize] at *
      omega
  · intro b hb b' hb' a a' ha ha' hne heq
    obtain ⟨g, hg, hga, hinfo⟩ := hlookup b hb a ha
    obtain ⟨g, hg', hga', hinfo'⟩ := hlookup b' hb' a' ha'
    cases hg.symm.trans hg'
    have hbase := (haligned g hg).1
    rw [hinfo, hinfo', some.injEq] at heq
    simp only [Span.Contains, sizeofPageInfo, PageSize] at *
    omega

/-! ### Pages that the clients can get -/

/-- What the clients of the view may do, the clients of the PMM may do. -/
lemma Clients.Sim.allowed (hr : Usable hhdmBase regions) (h : c.Sim hhdmBase regions d)
    (hafter : c.core.trashAfterUse = false) (hbefore : c.core.trashBeforeUse = false)
    {ops : List PmmOp} (hops : Allowed viewManager.step viewManager.Ok d ops) :
    Allowed (pmmManager hhdmBase).step (pmmManager hhdmBase).Ok c ops := by
  induction ops generalizing c d with
  | nil => exact trivial
  | cons op ops ih =>
    obtain ⟨hop, hops⟩ := hops
    obtain ⟨c', d', hc', hd', hsim', hsame⟩ :=
      h.step hr hop (harmless_of_off hafter hbefore _ _)
    refine ⟨?_, fun c'' hc'' => ?_⟩
    · cases op with
      | alloc n =>
        obtain ⟨⟨a, core⟩, halloc, -⟩ := map_eq_some_iff.mp hc'
        exact isSome_iff_exists.mpr ⟨_, halloc⟩
      | free b =>
        rw [Manager.Ok, h.blocks]
        exact hop
      | write a x =>
        rw [Manager.Ok, h.blocks]
        exact hop
    · cases hc'.symm.trans hc''
      exact ih hsim' (hsame.1.trans hafter) (hsame.2.trans hbefore) (hops d' hd')

/-- The clients can get to hold this address. -/
def Obtainable (d : Clients PmmView) (a : ℕ) : Prop :=
  ∃ ops d', Allowed viewManager.step viewManager.Ok d ops ∧ run viewManager.step d ops = some d' ∧
    ∃ b ∈ d'.blocks, b.span.Contains a

lemma Obtainable.cons (op : PmmOp) (hop : viewManager.Ok d op)
    (hstep : viewManager.step d op = some d') (h : Obtainable d' a) : Obtainable d a := by
  obtain ⟨ops, d'', hops, hrun, hb⟩ := h
  refine ⟨op :: ops, d'', ⟨hop, fun x hx => ?_⟩, ?_, hb⟩
  · cases hstep.symm.trans hx
    exact hops
  · rw [run_cons hstep]
    exact hrun

lemma obtainable_alloc {n : ℕ} (hn : 0 < n) (halloc : d.core.alloc n = some (a, v')) (hne : a ≠ 0) :
    Obtainable d a := by
  refine Obtainable.cons (.alloc n) (isSome_iff_exists.mpr ⟨_, halloc⟩)
    (Manager.step_alloc halloc) ⟨[], _, trivial, rfl, ⟨a, n⟩, ?_, ?_⟩
  · simp only [if_neg hne]
    exact mem_cons_self
  · simp only [Block.span, Span.Contains, PageSize]
    omega

lemma alloc_one (hruns : v.runs = r :: runs) : v.alloc 1 = some (r.base, v.popRun) := by
  simp [alloc, hruns]

/-- The first page of the freelist. -/
lemma obtainable_head (hr : Usable hhdmBase regions) (hd : ViewOk regions d)
    (hruns : d.core.runs = r :: runs) : Obtainable d r.base :=
  obtainable_alloc Nat.one_pos (alloc_one hruns) ((hd.popRun hruns).block_base hr mem_cons_self).1

/-- The first page of the second run, when the first one is used up. -/
lemma obtainable_second (hr : Usable hhdmBase regions) (hd : ViewOk regions d) {r' : Block}
    (hruns : d.core.runs = r :: r' :: runs) : Obtainable d r'.base := by
  induction hn : r.pages generalizing d r with
  | zero =>
    have hpos := hd.run r (hruns ▸ mem_cons_self)
    omega
  | succ n ih =>
    have halloc := alloc_one hruns
    refine Obtainable.cons (.alloc 1) (isSome_iff_exists.mpr ⟨_, halloc⟩)
      (Manager.step_alloc halloc) ?_
    have hvalid := viewOk_alloc hr hd halloc
    by_cases hmany : 1 < r.pages
    · refine ih (r := ⟨r.base + PageSize, r.pages - 1⟩) hvalid ?_ (by simp only; omega)
      simp only [PmmView.popRun, hruns, popRun, if_pos hmany]
    · have hrest : d.core.popRun.runs = r' :: runs := by
        simp only [PmmView.popRun, hruns, popRun, if_neg hmany]
      exact obtainable_head hr hvalid hrest

/-- The first zone that has room for a block of two pages, if no page is taken. -/
lemma findBlock_two (hbits : ∀ z i, v.bit z i = false) {zs : List Zone} (hz : z ∈ zs)
    (hcount : 2 ≤ z.count) :
    ∃ l₁ y l₂, zs = l₁ ++ y :: l₂ ∧ v.findBlock 2 zs = some (y, 0) ∧ 2 ≤ y.count ∧ z ∉ l₁ := by
  induction zs with
  | nil => cases hz
  | cons y zs ih =>
    have hclear : v.bit y = fun _ => false := funext (hbits y)
    by_cases hy : 2 ≤ y.count
    · refine ⟨[], y, zs, rfl, ?_, hy, not_mem_nil⟩
      obtain ⟨n, hn⟩ := Nat.exists_eq_add_of_le' hy
      simp [findBlock, hclear, hn, searchRun]
    · have hne : z ≠ y := fun h => hy (h ▸ hcount)
      obtain ⟨l₁, x, l₂, rfl, hfind, hx, hnot⟩ := ih ((mem_cons.mp hz).resolve_left hne)
      refine ⟨y :: l₁, x, l₂, rfl, ?_, hx, by simp [hne, hnot]⟩
      have hsmall : (searchRun (v.bit y) 2 y.count 0 0 0).1 ≠ 2 := by
        have hcases : y.count = 0 ∨ y.count = 1 := by omega
        rcases hcases with h | h <;> simp [hclear, h, searchRun]
      simp only [findBlock, if_neg hsmall, hfind]

lemma obtainable_zone (hr : Usable hhdmBase regions) (hv : v.Valid regions [])
    (hbits : ∀ z i, v.bit z i = false) (hz : z ∈ v.zones) (hcount : 2 ≤ z.count) :
    ∃ l₁ y l₂, v.zones = l₁ ++ y :: l₂ ∧ z ∉ l₁ ∧ 2 ≤ y.count ∧
      Obtainable { core := v } (y.page 0) := by
  obtain ⟨l₁, y, l₂, hzones, hfind, hy, hnot⟩ := findBlock_two hbits hz hcount
  refine ⟨l₁, y, l₂, hzones, hnot, hy, ?_⟩
  have halloc : v.alloc 2 = some (y.page 0, v.setBits y 0 2 true) := by
    simp [alloc, hfind]
  have hvalid := hv.take hr (z := y) (by rw [hzones]; simp) (by decide) (k := 0) (n := 2)
    (by omega) fun i _ _ => hbits y i
  exact obtainable_alloc Nat.two_pos halloc (hvalid.block_base hr mem_cons_self).1

lemma pushRuns_eq (runs : List Block) (entries : List MemmapEntry) : pushRuns runs entries =
    ((nonempty entries).map fun e => ⟨e.base, e.length / PageSize⟩).reverse ++ runs := by
  induction entries generalizing runs with
  | nil => rfl
  | cons e l ih =>
    rw [pushRuns, ih, nonempty, nonempty]
    split_ifs with h0 <;> simp [h0]

/-- Two segments with pages that can be allocated: the page infos of the earlier one are not
found. -/
lemma Ingested.oneSegment (hr : Usable hhdmBase regions)
    (hv : Ingested hhdmBase fuel regions contiguousQuota s v) (hruns : v.runs = pushRuns [] rest)
    (hok : ∀ e ∈ rest, EntryOk hhdmBase e) (hlast : ∀ a, Obtainable { core := v } a →
      ∃ g, (nonempty rest ++ v.zones.map Zone.span).getLast? = some g ∧ g.Contains a) :
    OneSegment rest (v.zones.map Zone.span) := by
  have hvalid := hv.valid
  have hone := hvalid.usage_le_one hr
  rw [pushRuns_eq, append_nil] at hruns
  constructor
  · by_contra hcontra
    rw [not_or, not_and] at hcontra
    obtain ⟨hne, hcontra⟩ := hcontra
    obtain ⟨l, g, hl⟩ := (eq_nil_or_concat' (nonempty rest)).resolve_left hne
    have hspan : ∀ e ∈ l ++ [g], (⟨e.base, e.length / PageSize⟩ : Block).span = e ∧
        e.Contains e.base := by
      intro e he
      rw [← hl] at he
      obtain ⟨hmem, hne⟩ := mem_filter.mp he
      refine ⟨(hok e hmem).span, le_rfl, ?_⟩
      simp only [ne_eq, decide_not, Bool.not_eq_eq_eq_not, Bool.not_true,
        decide_eq_false_iff_not] at hne
      omega
    rw [hl, map_append, map_singleton, reverse_append, reverse_singleton,
      singleton_append] at hruns
    by_cases hz : v.zones.map Zone.span = []
    · -- the last region is used up first, then pages of the one before it are handed out
      have hlne : l ≠ [] := by
        rintro rfl
        exact hcontra (by rw [hl]; rfl) hz
      obtain ⟨l', e, rfl⟩ := (eq_nil_or_concat' l).resolve_left hlne
      rw [map_append, map_singleton, reverse_append, reverse_singleton,
        singleton_append] at hruns
      obtain ⟨x, hx, hxe⟩ := hlast _ (obtainable_second hr (d := { core := v }) hvalid hruns)
      rw [hz, append_nil, hl, getLast?_concat] at hx
      cases hx
      have hle := hone e.base
      have he := hspan e (by simp)
      simp only [usage, hruns, map_cons, (hspan g (by simp)).1, he.1, cover_cons,
        if_pos hxe, if_pos he.2] at hle
      omega
    · -- the last segment is one of a zone
      obtain ⟨x, hx, hxg⟩ := hlast _ (obtainable_head hr (d := { core := v }) hvalid hruns)
      rw [getLast?_append_of_ne_nil _ hz] at hx
      have hpos : 0 < cover (v.zones.map Zone.span) g.base :=
        cover_pos.mpr ⟨x, mem_of_getLast? hx, hxg⟩
      have hle := hone g.base
      have hg := hspan g (by simp)
      simp only [usage, hruns, map_cons, hg.1, cover_cons, if_pos hg.2] at hle
      omega
  · intro t ht
    by_contra hlarge
    rw [← map_dropLast] at ht
    obtain ⟨z, hz, rfl⟩ := mem_map.mp ht
    have hcount : 2 ≤ z.count := by
      simp only [Zone.span, PageSize] at hlarge
      omega
    obtain ⟨l₁, y, l₂, hzones, hnot, hy, hobtain⟩ :=
      obtainable_zone hr hvalid hv.bits (mem_of_mem_dropLast hz) hcount
    rcases eq_nil_or_concat' l₂ with rfl | ⟨l₃, x, rfl⟩
    · rw [hzones, dropLast_concat] at hz
      exact hnot hz
    · obtain ⟨w, hw, hwy⟩ := hlast _ hobtain
      have hwx : w = x.span := by
        have hend : v.zones = (l₁ ++ y :: l₃) ++ [x] := by simp [hzones]
        rw [hend, map_append, map_singleton, ← append_assoc,
          getLast?_concat] at hw
        exact (some.inj hw).symm
      have hle := hone (y.page 0)
      have hyy := Zone.contains_page (z := y) (i := 0) (by omega)
      rw [hwx] at hwy
      simp only [usage, hzones, map_append, map_cons,
        map_nil, cover_append, cover_cons, cover_nil, if_pos hyy, if_pos hwy] at hle
      omega

/-- **`Lookup` finds the page infos of all blocks** in all runs exactly if only the last segment
has pages that can be allocated. -/
theorem lookup_ok_iff {fuel contiguousQuota : ℕ} {mem : ByteMem} (hr : Usable hhdmBase regions)
    (hingest : (Pmm.init mem).ingestMemory hhdmBase fuel regions contiguousQuota = some s) :
    (∀ ops c, Allowed (pmmManager hhdmBase).step (pmmManager hhdmBase).Ok { core := s } ops →
      run (pmmManager hhdmBase).step { core := s } ops = some c → LookupOk hhdmBase c) ↔
    ∃ rest zones, carve fuel regions contiguousQuota = some (rest, zones) ∧
      OneSegment rest zones := by
  obtain ⟨v, hv, hsim⟩ := Pmm.ingested_sim hr hingest
  have hsettings := Pmm.ingestMemory_settings hingest
  have hstart : Laid v { core := v } := ⟨⟨rfl, rfl, rfl⟩, fun _ => rfl⟩
  have hlaid : ∀ d op d', ViewOk regions d → d.Laid v → viewManager.Ok d op →
      viewManager.step d op = some d' → Laid v d' :=
    fun d op d' hd h hop hstep => h.step hr hd hop hstep
  constructor
  · intro hlookup
    obtain ⟨rest, hcarve, hruns, hok, -, I, segmentStore, infoStore, -, -, hsegments, -⟩ := hv.parts
    refine ⟨rest, _, hcarve, hv.oneSegment hr hruns hok ?_⟩
    rintro a ⟨ops, d, hops, hrun, b, hb, ha⟩
    have hallowed := hsim.allowed hr hsettings.1 hsettings.2 hops
    obtain ⟨c, d', hc, hd', hsim', hlaid'⟩ :=
      hsim.run hr (Laid v) hlaid hstart hsettings.1 hsettings.2 hallowed
    cases hrun.symm.trans hd'
    obtain ⟨info, hinfo, hne, -⟩ := (hlookup ops c hallowed hc).1 b (hsim'.blocks ▸ hb) a ha
    rw [hsim'.holds.lookup, some.injEq] at hinfo
    have hsegments' : d.core.segments = lastSegment hhdmBase segmentStore infoStore
        (nonempty rest ++ v.zones.map Zone.span) := hlaid'.layout.segments.trans hsegments
    rcases lookup_lastSegment hsegments' a with ⟨g, hg, hga, -⟩ | ⟨-, hzero⟩
    · exact ⟨g, hg, hga⟩
    · exact absurd (hinfo.symm.trans hzero) hne
  · rintro ⟨rest, zones, hcarve, hone⟩ ops c hops hrun
    obtain ⟨rest', hcarve', -⟩ := hv.parts
    cases hcarve.symm.trans hcarve'
    obtain ⟨c', d, hc, -, hsim', hlaid'⟩ :=
      hsim.run hr (Laid v) hlaid hstart hsettings.1 hsettings.2 hops
    cases hrun.symm.trans hc
    exact hv.lookupOk hsim' hlaid' hcarve hone

lemma ingest_sixPages_noZone : ((Pmm.init fun _ => 0#8).ingestMemory 0xffff800000000000 0 sixPages
    0).isSome = true := by
  decide +kernel

/-- Without a zone the region of six pages is one segment. -/
theorem lookup_ok_iff_sixPages : Usable 0xffff800000000000 sixPages ∧
    ∀ ops c, Allowed (pmmManager 0xffff800000000000).step (pmmManager 0xffff800000000000).Ok
        { core := get _ ingest_sixPages_noZone } ops →
      run (pmmManager 0xffff800000000000).step { core := get _ ingest_sixPages_noZone } ops =
        some c → LookupOk 0xffff800000000000 c :=
  ⟨usable_sixPages, (lookup_ok_iff usable_sixPages
    (some_get ingest_sixPages_noZone).symm).mpr ⟨_, _, rfl, by decide⟩⟩

/-- With a zone of two pages, the page that `Alloc(1)` returns has no page info: the list of the
segments has the zone only. -/
theorem lookup_fails_sixPages :
    ((pmmManager 0xffff800000000000).step { core := get _ ingest_sixPages }
        (.alloc 1)).map (fun c => (c.returned, c.core.lookup 0xffff800000000000 0x3000)) =
      some ([0x3000], some 0) := by
  decide +kernel

end Northport.Memory
