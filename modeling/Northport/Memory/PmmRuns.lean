/-
# Runs of the PMM

The clients of the PMM allocate and free blocks and write inside the blocks they hold.  The same
run can be taken on the view, and every call of the PMM has there the same answer.  What the
view says about the blocks that are held then holds of the memory.
-/
import Northport.Lib.Run
import Northport.Memory.PmmIngest
import Northport.Memory.PmmSteps

namespace Northport.Memory

open Lib List Option PmmView

/-! ### Clients -/

/-- The calls that the clients use, for the PMM itself and for its view. -/
structure Manager (σ : Type) where
  alloc : σ → ℕ → Option (ℕ × σ)
  free : σ → Block → Option σ
  write : σ → ℕ → BitVec 8 → σ

def pmmManager (hhdmBase : ℕ) : Manager Pmm where
  alloc := Pmm.alloc hhdmBase
  free s b := s.free hhdmBase b.base b.pages
  write s a x := { s with mem := Function.update s.mem a x }

/-- The view holds nothing of what the clients write. -/
def viewManager : Manager PmmView where
  alloc := alloc
  free v b := some (v.free b)
  write v _ _ := v

/-- A manager and its clients: the blocks that they hold, and the addresses that `Alloc` has
returned, the last one first. -/
structure Clients (σ : Type) where
  core : σ
  blocks : List Block := []
  returned : List ℕ := []

inductive PmmOp where
  | alloc (count : ℕ)
  | free (block : Block)
  | write (addr : ℕ) (byte : BitVec 8)
deriving DecidableEq

namespace Manager

variable {σ : Type} (M : Manager σ)

def step (c : Clients σ) : PmmOp → Option (Clients σ)
  | .alloc count => (M.alloc c.core count).map fun (a, core) =>
      { core := core
        blocks := if a = 0 then c.blocks else ⟨a, count⟩ :: c.blocks
        returned := a :: c.returned }
  | .free b => (M.free c.core b).map fun core => { c with core := core, blocks := c.blocks.erase b }
  | .write a x => some { c with core := M.write c.core a x }

variable {M} {c : Clients σ} {core : σ}

lemma step_alloc {n a : ℕ} (h : M.alloc c.core n = some (a, core)) :
    M.step c (.alloc n) = some ⟨core, if a = 0 then c.blocks else ⟨a, n⟩ :: c.blocks,
      a :: c.returned⟩ := by
  rw [step, h]
  rfl

lemma step_free {b : Block} (h : M.free c.core b = some core) :
    M.step c (.free b) = some ⟨core, c.blocks.erase b, c.returned⟩ := by
  rw [step, h]
  rfl

variable (M)

/-- The clients free only blocks that they hold and write only inside of those, and the assertion
of `Alloc` does not fire. -/
def Ok (c : Clients σ) : PmmOp → Prop
  | .alloc count => (M.alloc c.core count).isSome
  | .free b => b ∈ c.blocks
  | .write a _ => ∃ b ∈ c.blocks, b.span.Contains a

instance (c : Clients σ) (op : PmmOp) : Decidable (M.Ok c op) := by
  cases op <;> rw [Ok] <;> infer_instance

end Manager

variable {hhdmBase : ℕ} {regions : List MemmapEntry} {s : Pmm} {v : PmmView} {blocks : List Block}
  {a contiguousQuota fuel : ℕ} {c : Clients Pmm} {d : Clients PmmView} {op : PmmOp}

/-! ### The view along a run -/

/-- The clients of the view: their blocks are apart from each other and from everything else. -/
def ViewOk (regions : List MemmapEntry) (c : Clients PmmView) : Prop := c.core.Valid regions c.blocks

lemma viewOk_alloc (hr : Usable hhdmBase regions) {c : Clients PmmView} (hc : ViewOk regions c)
    {n : ℕ} {v' : PmmView} (halloc : c.core.alloc n = some (a, v')) :
    ViewOk regions ⟨v', if a = 0 then c.blocks else ⟨a, n⟩ :: c.blocks, a :: c.returned⟩ := by
  rcases hc.alloc hr halloc with ⟨rfl, rfl⟩ | hvalid
  · rw [ViewOk, if_pos rfl]
    exact hc
  · have hne : a ≠ 0 := (hvalid.block_base hr mem_cons_self).1
    rw [if_neg hne]
    exact hvalid

/-- The debug options do no harm in this step: a single page that is freed and a block of a zone
that is allocated are not trashed. -/
def Harmless (s : Pmm) (v : PmmView) : PmmOp → Prop
  | .alloc n => n ≤ 1 ∨ s.trashBeforeUse = false ∨ v.findBlock n v.zones = none
  | .free b => b.pages ≠ 1 ∨ s.trashAfterUse = false
  | .write _ _ => True

lemma harmless_of_off (hafter : s.trashAfterUse = false) (hbefore : s.trashBeforeUse = false)
    (v : PmmView) (op : PmmOp) : Harmless s v op := by
  cases op with
  | alloc n => exact .inr (.inl hbefore)
  | free b => exact .inr hafter
  | write a x => exact trivial

/-- The PMM and its view, with the same clients. -/
structure Clients.Sim (hhdmBase : ℕ) (regions : List MemmapEntry) (c : Clients Pmm)
    (d : Clients PmmView) : Prop where
  holds : c.core.Holds hhdmBase d.core
  valid : ViewOk regions d
  blocks : c.blocks = d.blocks
  returned : c.returned = d.returned

/-- What the clients may do is seen on the view. -/
lemma Clients.Sim.ok (h : c.Sim hhdmBase regions d) (hop : (pmmManager hhdmBase).Ok c op) :
    viewManager.Ok d op := by
  cases op with
  | alloc n =>
    refine ne_none_iff_isSome.mp fun hnone => ?_
    have hfail : (pmmManager hhdmBase).alloc c.core n = none := h.holds.alloc_none hnone
    rw [Manager.Ok, hfail] at hop
    exact Bool.false_ne_true hop
  | free b =>
    rw [Manager.Ok, ← h.blocks]
    exact hop
  | write a x =>
    rw [Manager.Ok, ← h.blocks]
    exact hop

/-- **A step of the PMM** is the step of the view. -/
lemma Clients.Sim.step (hr : Usable hhdmBase regions) (h : c.Sim hhdmBase regions d)
    (hop : viewManager.Ok d op) (hharm : Harmless c.core d.core op) :
    ∃ c' d', (pmmManager hhdmBase).step c op = some c' ∧ viewManager.step d op = some d' ∧
      c'.Sim hhdmBase regions d' ∧ c.core.SameSettings c'.core := by
  obtain ⟨hholds, hvalid, hblocks, hreturned⟩ := h
  cases op with
  | alloc n =>
    obtain ⟨⟨a, v'⟩, halloc⟩ := isSome_iff_exists.mp hop
    obtain ⟨s', hs', hholds', hsame⟩ := hholds.alloc hr hvalid hharm halloc
    refine ⟨_, _, Manager.step_alloc hs', Manager.step_alloc halloc,
      ⟨hholds', viewOk_alloc hr hvalid halloc, ?_, ?_⟩, hsame⟩
    · simp only [hblocks]
    · simp only [hreturned]
  | free b =>
    obtain ⟨s', hs', hholds', hsame⟩ := hholds.free hr hvalid hop hharm
    refine ⟨_, _, Manager.step_free hs', rfl, ⟨hholds', hvalid.free hr hop, ?_, hreturned⟩, hsame⟩
    simp only [hblocks]
  | write a x =>
    obtain ⟨b, hb, ha⟩ := hop
    exact ⟨_, _, rfl, rfl, ⟨hholds.write hr hvalid hb ha x, hvalid, hblocks, hreturned⟩, rfl, rfl⟩

/-! ### The blocks that are held -/

lemma singles_append_zoneBlocks (blocks : List Block) :
    (singles blocks ++ zoneBlocks blocks).Perm blocks := by
  have h := filter_append_perm (fun b : Block => b.pages = 1) blocks
  simpa only [singles, zoneBlocks, ne_eq, decide_not] using h

lemma cover_blocks (blocks : List Block) (a : ℕ) : cover (blocks.map Block.span) a =
    cover ((singles blocks).map Block.span) a + cover ((zoneBlocks blocks).map Block.span) a := by
  rw [← cover_append, ← map_append]
  exact (cover_perm ((singles_append_zoneBlocks blocks).map Block.span) a).symm

/-- The blocks that are held share no address. -/
lemma ViewOk.blocks_apart (hr : Usable hhdmBase regions) (hd : ViewOk regions d) (a : ℕ) :
    cover (d.blocks.map Block.span) a ≤ 1 := by
  have hone := hd.usage_le_one hr a
  have hdisjoint := hd.block_disjoint a
  rw [cover_blocks]
  by_cases hpos : 0 < cover ((zoneBlocks d.blocks).map Block.span) a
  · -- the address is in a zone, so it is in no single page
    obtain ⟨t, ht, hta⟩ := cover_pos.mp hpos
    obtain ⟨b, hb, rfl⟩ := mem_map.mp ht
    obtain ⟨-, z, hz, k, hbase, hk⟩ := hd.block_ok b hb
    have hzone : 0 < cover (d.core.zones.map Zone.span) a :=
      cover_map_pos hz (Zone.span_of_block hbase hk hta)
    simp only [usage] at hone
    omega
  · simp only [usage] at hone
    omega

/-- A block lies in the regions, and apart from the records of the PMM. -/
lemma ViewOk.block_inside (hr : Usable hhdmBase regions) (hd : ViewOk regions d) {b : Block}
    (hb : b ∈ d.blocks) (ha : b.span.Contains a) :
    0 < cover regions a ∧ cover d.core.records a = 0 := by
  have hused := hd.block_used hb ha
  have hle := hd.usage_le a
  have hone := hd.usage_le_one hr a
  simp only [usage] at hle hone
  omega

/-- The view that `IngestMemory` sets up is valid. -/
lemma Ingested.valid (h : Ingested hhdmBase fuel regions contiguousQuota s v) :
    v.Valid regions [] where
  toStored := h.toStored
  usage_le a := by
    have hle := h.usage_le a
    simpa only [usage, singles, filter_nil, map_nil, cover_nil, add_zero]
      using hle
  run_ok := h.run_ok
  single_ok := nofun
  zone_ok := h.zone_ok
  block_ok := nofun
  block_disjoint _ := zero_le
  bits_set _ _ _ _ hc := absurd hc (lt_irrefl 0)

/-- The PMM before memory was given to it. -/
def Pmm.init (mem : ByteMem) : Pmm := { mem := mem }

lemma Pmm.ingestMemory_settings {s s' : Pmm}
    (h : s.ingestMemory hhdmBase fuel regions contiguousQuota = some s') : s.SameSettings s' :=
  (Pmm.ingestMemory_cases h).2.1

lemma Pmm.ingested_sim {mem : ByteMem} (hr : Usable hhdmBase regions)
    (h : (Pmm.init mem).ingestMemory hhdmBase fuel regions contiguousQuota = some s) :
    ∃ v, Ingested hhdmBase fuel regions contiguousQuota s v ∧
      Clients.Sim hhdmBase regions { core := s } { core := v } := by
  obtain ⟨v, hv⟩ := Pmm.ingested hr h
  exact ⟨v, hv, hv.holds, hv.valid, rfl, rfl⟩

/-- With the debug options off, a run of the PMM is a run of its view; an invariant of the view
holds along it. -/
lemma Clients.Sim.run (hr : Usable hhdmBase regions) (P : Clients PmmView → Prop)
    (hP : ∀ d op d', ViewOk regions d → P d → viewManager.Ok d op →
      viewManager.step d op = some d' → P d') (h : c.Sim hhdmBase regions d) (hd : P d)
    (hafter : c.core.trashAfterUse = false) (hbefore : c.core.trashBeforeUse = false)
    {ops : List PmmOp} (hops : Allowed (pmmManager hhdmBase).step (pmmManager hhdmBase).Ok c ops) :
    ∃ c' d', run (pmmManager hhdmBase).step c ops = some c' ∧
      run viewManager.step d ops = some d' ∧ c'.Sim hhdmBase regions d' ∧ P d' := by
  have hstep : ∀ (c : Clients Pmm) (d : Clients PmmView) (op : PmmOp),
      (c.Sim hhdmBase regions d ∧ P d ∧ c.core.trashAfterUse = false ∧
        c.core.trashBeforeUse = false) →
      (pmmManager hhdmBase).Ok c op →
      ∃ c' d', (pmmManager hhdmBase).step c op = some c' ∧ viewManager.step d op = some d' ∧
        (c'.Sim hhdmBase regions d' ∧ P d' ∧ c'.core.trashAfterUse = false ∧
          c'.core.trashBeforeUse = false) := by
    rintro c d op ⟨hsim, hd, hafter, hbefore⟩ hop
    obtain ⟨c', d', hc', hd', hsim', hsame⟩ :=
      hsim.step hr (hsim.ok hop) (harmless_of_off hafter hbefore _ _)
    exact ⟨c', d', hc', hd', hsim', hP d op d' hsim.valid hd (hsim.ok hop) hd',
      hsame.1.trans hafter, hsame.2.trans hbefore⟩
  obtain ⟨c', d', hc', hd', hsim, hinv, -⟩ := run_simulation _ hstep ⟨h, hd, hafter, hbefore⟩ hops
  exact ⟨c', d', hc', hd', hsim, hinv⟩

/-- **The blocks that are held** are pairwise disjoint, lie inside the ingested memory, and are
disjoint from the zone headers, the bitmaps, the info segments and the page infos, after every
run of the clients. -/
theorem held_blocks_apart {fuel contiguousQuota : ℕ} {mem : ByteMem} {ops : List PmmOp}
    (hr : Usable hhdmBase regions)
    (hingest : (Pmm.init mem).ingestMemory hhdmBase fuel regions contiguousQuota = some s)
    (hops : Allowed (pmmManager hhdmBase).step (pmmManager hhdmBase).Ok { core := s } ops) :
    ∃ c, run (pmmManager hhdmBase).step { core := s } ops = some c ∧
      (c.blocks.map Block.span).Pairwise Span.Disjoint ∧
      ∀ b ∈ c.blocks, (∀ a, b.span.Contains a → ∃ e ∈ regions, e.Contains a) ∧
        ∀ m ∈ c.core.metadata, b.span.Disjoint m := by
  obtain ⟨v, -, hsim⟩ := Pmm.ingested_sim hr hingest
  have hsame := Pmm.ingestMemory_settings hingest
  obtain ⟨c, d, hc, -, hsim, -⟩ := hsim.run hr (fun _ => True) (fun _ _ _ _ _ _ _ => trivial)
    trivial hsame.1 hsame.2 hops
  refine ⟨c, hc, ?_, fun b hb => ?_⟩
  · rw [hsim.blocks]
    exact pairwise_disjoint_of_cover fun a => hsim.valid.blocks_apart hr a
  · rw [hsim.blocks] at hb
    refine ⟨fun a ha => cover_pos.mp (hsim.valid.block_inside hr hb ha).1, fun m hm a ha hma => ?_⟩
    have hzero := (hsim.valid.block_inside hr hb ha).2
    have hpos := hsim.holds.metadata m hm a hma
    omega

/-- One region of six pages, two of them for a zone. -/
def sixPages : List MemmapEntry := [⟨0x1000, 0x6000⟩]

lemma usable_sixPages : Usable 0xffff800000000000 sixPages := by
  constructor <;> simp [sixPages, PageSize]

lemma ingest_sixPages : ((Pmm.init fun _ => 0#8).ingestMemory 0xffff800000000000 1 sixPages
    2).isSome = true := by
  decide +kernel

/-- A block of the zone and a page of the freelist are allocated, and the block is freed. -/
theorem held_blocks_apart_sixPages :
    ∃ c, run (pmmManager 0xffff800000000000).step { core := get _ ingest_sixPages }
        [.alloc 2, .alloc 1, .write 0x3004 7#8, .free ⟨0x5000, 2⟩] = some c ∧
      (c.blocks.map Block.span).Pairwise Span.Disjoint ∧
      ∀ b ∈ c.blocks, (∀ a, b.span.Contains a → ∃ e ∈ sixPages, e.Contains a) ∧
        ∀ m ∈ c.core.metadata, b.span.Disjoint m :=
  held_blocks_apart usable_sixPages (some_get ingest_sixPages).symm (by decide +kernel)

/-! ### First fit -/

/-- The zone has `n` clear bits from `k` on. -/
def Pmm.Fits (s : Pmm) (n : ℕ) (z : Zone) (k : ℕ) : Prop :=
  ClearRun (s.mem.getBit z.bitmap) z.count k n

/-- What was taken is given back: the zone of the block is found, and its bits are cleared. -/
lemma PmmView.free_setBits (hr : Usable hhdmBase regions) {z : Zone} {k n : ℕ} (hn : 2 ≤ n)
    (hz : z ∈ v.zones) (hclear : ClearRun (v.bit z) z.count k n)
    (hv : (v.setBits z k n true).Valid regions (⟨z.page k, n⟩ :: blocks)) :
    ((v.setBits z k n true).free ⟨z.page k, n⟩).bit = v.bit := by
  obtain ⟨y, hy, j, hzone, hbase, -, hindex⟩ :=
    hv.zoneOf_block hr mem_cons_self (show n ≠ 1 by omega)
  have hk := hclear.1
  obtain rfl : y = z := by
    refine hv.zone_unique hr hy hz ?_ (Zone.contains_page (show k < z.count by omega))
    simpa using find?_some hzone
  obtain rfl : k = j := by
    simp only [Zone.page, PageSize] at hbase
    omega
  rw [free, hzone]
  funext x i
  simp only [hindex, setBits]
  split_ifs with hin
  · rw [hin.1, hclear.2 i hin.2.1 hin.2.2]
  · rfl

/-- **`Alloc(n)` is first fit**: it finds a block exactly if a zone has `n` clear bits in a row, and
takes the lowest ones of the first such zone.  `Free` of the block restores every bitmap. -/
theorem alloc_first_fit (h : s.Holds hhdmBase v) (hr : Usable hhdmBase regions)
    (hv : v.Valid regions blocks) {n : ℕ} (hn : 2 ≤ n) (htrash : s.trashBeforeUse = false) :
    ∃ a s', s.alloc hhdmBase n = some (a, s') ∧ (a ≠ 0 ↔ ∃ z ∈ v.zones, ∃ k, s.Fits n z k) ∧
      (a ≠ 0 → ∃ l z l' k, v.zones = l ++ z :: l' ∧ (∀ y ∈ l, ∀ j, ¬ s.Fits n y j) ∧
        s.Fits n z k ∧ (∀ j < k, ¬ s.Fits n z j) ∧ a = z.page k ∧
        (∀ y ∈ v.zones, ∀ i < y.count, s'.mem.getBit y.bitmap i =
          if y = z ∧ k ≤ i ∧ i < k + n then true else s.mem.getBit y.bitmap i) ∧
        ∃ s'', s'.free hhdmBase a n = some s'' ∧
          ∀ y ∈ v.zones, ∀ i < y.count, s''.mem.getBit y.bitmap i = s.mem.getBit y.bitmap i) := by
  -- the view with the bits of the memory
  obtain ⟨w, hzones, hbit, hw, hvalid⟩ : ∃ w : PmmView, w.zones = v.zones ∧
      (∀ z, w.bit z = s.mem.getBit z.bitmap) ∧ s.Holds hhdmBase w ∧ w.Valid regions blocks :=
    ⟨{ v with bit := fun z => s.mem.getBit z.bitmap }, rfl, fun _ => rfl,
      { h with bits := fun _ _ _ _ => rfl }, { hv with
        bits_set := fun z hz i hi hc => (h.bits z hz i hi).trans (hv.bits_set z hz i hi hc) }⟩
  rw [← hzones]
  rcases w.findBlock_first (show 0 < n by omega) w.zones with
    ⟨hnone, hno⟩ | ⟨l, z, l', k, hsome, hlist, hl, hk, hlow⟩
  · have hcalls : w.alloc n = some (0, w) := by
      rw [alloc, hnone]
      exact (if_neg (by omega)).trans (if_neg (by omega))
    obtain ⟨s', hs', -⟩ := hw.alloc hr hvalid (.inr (.inl htrash)) hcalls
    refine ⟨0, s', hs', ⟨absurd rfl, ?_⟩, absurd rfl⟩
    rintro ⟨z, hz, k, hfits⟩
    exact absurd hfits (by rw [Pmm.Fits, ← hbit]; exact hno z hz k)
  · have hcalls : w.alloc n = some (z.page k, w.setBits z k n true) := by
      rw [alloc, hsome]
      exact (if_neg (by omega)).trans (if_neg (by omega))
    have hz : z ∈ w.zones := hlist ▸ mem_append_right _ mem_cons_self
    have hvalid' := hvalid.take hr hz (show 1 < n by omega) hk.1 hk.2
    obtain ⟨s', hs', hholds', -⟩ := hw.alloc hr hvalid (.inr (.inl htrash)) hcalls
    obtain ⟨s'', hs'', hholds'', -⟩ :=
      hholds'.free hr hvalid' mem_cons_self (.inl (show n ≠ 1 by omega))
    simp only [hbit] at hl hk hlow
    refine ⟨z.page k, s', hs', ⟨fun _ => ⟨z, hz, k, hk⟩, fun _ =>
      (hvalid'.block_base hr mem_cons_self).1⟩, fun _ => ⟨l, z, l', k, hlist, hl, hk, hlow, rfl,
      fun y hy i hi => ?_, s'', hs'', fun y hy i hi => ?_⟩⟩
    · rw [hholds'.bits y hy i hi, ← hbit]
      rfl
    · have hzones'' : (w.setBits z k n true |>.free ⟨z.page k, n⟩).zones = w.zones := by
        rw [free]
        split
        · rfl
        · split_ifs <;> rfl
      rw [hholds''.bits y (hzones'' ▸ hy) i hi,
        free_setBits hr hn hz ((hbit z).symm ▸ hk) hvalid', hbit]

/-- Two pages of the zone. -/
theorem alloc_first_fit_sixPages : ∃ v a s',
    (get _ ingest_sixPages).Holds 0xffff800000000000 v ∧
    (get _ ingest_sixPages).alloc 0xffff800000000000 2 = some (a, s') ∧ a = 0x5000 ∧
    ∃ l z l' k, v.zones = l ++ z :: l' ∧ (∀ y ∈ l, ∀ j, ¬ (get _ ingest_sixPages).Fits 2 y j) ∧
      (get _ ingest_sixPages).Fits 2 z k ∧ (∀ j < k, ¬ (get _ ingest_sixPages).Fits 2 z j) ∧
      a = z.page k ∧
      (∀ y ∈ v.zones, ∀ i < y.count, s'.mem.getBit y.bitmap i =
        if y = z ∧ k ≤ i ∧ i < k + 2 then true
        else (get _ ingest_sixPages).mem.getBit y.bitmap i) ∧
      ∃ s'', s'.free 0xffff800000000000 a 2 = some s'' ∧ ∀ y ∈ v.zones, ∀ i < y.count,
        s''.mem.getBit y.bitmap i = (get _ ingest_sixPages).mem.getBit y.bitmap i := by
  have hingest := (some_get ingest_sixPages).symm
  obtain ⟨v, -, hsim⟩ := Pmm.ingested_sim usable_sixPages hingest
  obtain ⟨a, s', halloc, -, hfirst⟩ := alloc_first_fit hsim.holds usable_sixPages hsim.valid
    (le_refl 2) (Pmm.ingestMemory_settings hingest).2
  have haddr : a = 0x5000 := by
    have hfst : ((get _ ingest_sixPages).alloc 0xffff800000000000 2).map Prod.fst =
        some 0x5000 := by
      decide +kernel
    rw [halloc] at hfst
    exact some.inj hfst
  exact ⟨v, a, s', hsim.holds, halloc, haddr, hfirst (by rw [haddr]; decide)⟩

/-- **A zone that does not begin at a page**: `Free` rounds the address of the block down, to one in
front of the zone, and clears no bit. -/
theorem free_misaligned_zone : ∃ s : Pmm, s.trashBeforeUse = false ∧
    RecordList (ZoneAt 0 s.mem) s.zones [⟨0x1000, 0x1028, 0x800, 2⟩] ∧
    s.mem.getBit 0x1028 0 = false ∧ (s.alloc 0 2).bind (fun r => (r.2.free 0 r.1 2).map fun s' =>
      (r.1, s'.mem.getBit 0x1028 0)) = some (0x800, true) := by
  let mem := initZone 0 (fun _ => 0#8) 0x1000 0x800 2 1 0
  refine ⟨{ mem := mem, zones := 0x1000, zoneCount := 1 }, rfl,
    ⟨by decide, 0, ⟨rfl, by decide +kernel⟩, rfl⟩, ?_, ?_⟩
  · decide +kernel
  · decide +kernel

end Northport.Memory
