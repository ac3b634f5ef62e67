/-
# What Alloc and Free do

The calls on the view: `Alloc(1)` takes the first page of the first free run, `Alloc(n)` takes
the first run of clear bits that is long enough, `Free` puts a page in front of the free runs or
clears the bits of a block.  Each of them keeps a view valid.
-/
import Northport.Memory.PmmInvariant

namespace Northport.Memory

open Lib List PmmView Zone

variable {hhdmBase : ℕ} {regions : List MemmapEntry} {v v' : PmmView} {blocks : List Block}

/-! ### The calls -/

/-- The first page of the first run is taken. -/
def popRun : List Block → List Block
  | [] => []
  | r :: runs => if 1 < r.pages then ⟨r.base + PageSize, r.pages - 1⟩ :: runs else runs

namespace PmmView

def popRun (v : PmmView) : PmmView := { v with runs := Memory.popRun v.runs }

def pushRun (v : PmmView) (base : ℕ) : PmmView := { v with runs := ⟨base, 1⟩ :: v.runs }

/-- The bits of `n` pages of the zone from page `k` on are changed. -/
def setBits (v : PmmView) (z : Zone) (k n : ℕ) (taken : Bool) : PmmView :=
  { v with bit := fun y i => if y = z ∧ k ≤ i ∧ i < k + n then taken else v.bit y i }

/-- The first zone with `n` clear bits in a row, and the first of them. -/
def findBlock (v : PmmView) (n : ℕ) : List Zone → Option (Zone × ℕ)
  | [] => none
  | z :: zs =>
    let found := searchRun (v.bit z) n z.count 0 0 0
    if found.1 = n then some (z, found.2) else findBlock v n zs

/-- `Alloc`: the address, 0 if there is no room, and the view after it.  The assertion for single
pages gives `none`. -/
def alloc (v : PmmView) (n : ℕ) : Option (ℕ × PmmView) :=
  if n = 0 then some (0, v)
  else if n = 1 then v.runs.head?.map fun r => (r.base, v.popRun)
  else
    match v.findBlock n v.zones with
    | none => some (0, v)
    | some (z, k) => some (z.page k, v.setBits z k n true)

/-- The zone that an address belongs to. -/
def zoneOf (v : PmmView) (a : ℕ) : Option Zone := v.zones.find? fun z => z.span.Contains a

/-- `Free` of a block that was handed out. -/
def free (v : PmmView) (b : Block) : PmmView :=
  match v.zoneOf b.base with
  | some z => v.setBits z ((b.base - z.base) / PageSize) b.pages false
  | none => if b.pages = 1 then v.pushRun b.base else v

end PmmView

/-! ### Blocks and spans -/

variable {b : Block} {k i n : ℕ} {z : Zone}

lemma singles_cons_one (hb : b.pages = 1) (blocks : List Block) :
    singles (b :: blocks) = b :: singles blocks ∧ zoneBlocks (b :: blocks) = zoneBlocks blocks := by
  simp [singles, zoneBlocks, hb]

lemma singles_cons_many (hb : b.pages ≠ 1) (blocks : List Block) :
    singles (b :: blocks) = singles blocks ∧ zoneBlocks (b :: blocks) = b :: zoneBlocks blocks := by
  simp [singles, zoneBlocks, hb]

lemma mem_singles {blocks : List Block} (hb : b ∈ blocks) (h : b.pages = 1) : b ∈ singles blocks :=
  mem_filter.mpr ⟨hb, by simpa using h⟩

lemma mem_zoneBlocks {blocks : List Block} (hb : b ∈ blocks) (h : b.pages ≠ 1) :
    b ∈ zoneBlocks blocks :=
  mem_filter.mpr ⟨hb, by simpa using h⟩

/-- The first page of a run and the rest of it. -/
lemma cover_run (b p : ℕ) (hp : 0 < p) (l : List Span) (a : ℕ) :
    cover ((⟨b, p⟩ : Block).span :: l) a =
      cover ((⟨b, 1⟩ : Block).span :: (⟨b + PageSize, p - 1⟩ : Block).span :: l) a := by
  have hsum : PageSize + (p - 1) * PageSize = p * PageSize := by
    rw [add_comm, ← Nat.succ_mul, Nat.succ_eq_add_one, Nat.sub_add_cancel hp]
  have hsplit := cover_split b PageSize ((p - 1) * PageSize) l a
  rw [hsum] at hsplit
  simp only [Block.span, one_mul]
  exact hsplit.symm

lemma cover_popRun {r : Block} (hr : 0 < r.pages) (runs : List Block) (a : ℕ) :
    cover ((r :: runs).map Block.span) a =
      cover ((⟨r.base, 1⟩ :: popRun (r :: runs)).map Block.span) a := by
  rw [popRun]
  split_ifs with hmany
  · exact cover_run r.base r.pages hr (runs.map Block.span) a
  · have hone : r.pages = 1 := by omega
    have hspan : (⟨r.base, 1⟩ : Block) = r := by rw [← hone]
    rw [hspan]

/-- A part of a zone lies in the zone. -/
lemma Zone.span_of_block {a : ℕ} (hb : b.base = z.page k) (hk : k + b.pages ≤ z.count)
    (ha : b.span.Contains a) : z.span.Contains a := by
  simp only [Block.span, span, Span.Contains, page, PageSize] at *
  omega

/-- The page of a zone that an address of a part of it lies in. -/
lemma Zone.page_of_block {a : ℕ} (hb : b.base = z.page k) (ha : b.span.Contains a) :
    k ≤ (a - z.base) / PageSize ∧ (a - z.base) / PageSize < k + b.pages ∧
      b.span.Contains (z.page ((a - z.base) / PageSize)) := by
  simp only [Block.span, Span.Contains, page, PageSize] at *
  omega

lemma Zone.block_contains_page (hb : b.base = z.page k) (hlo : k ≤ i) (hhi : i < k + b.pages) :
    b.span.Contains (z.page i) := by
  simp only [Block.span, Span.Contains, page, PageSize] at *
  omega

lemma Zone.contains_page (hi : i < z.count) : z.span.Contains (z.page i) := by
  simp only [span, Span.Contains, page, PageSize] at *
  omega

/-! ### The search for a block -/

lemma searchRun_congr {get get' : ℕ → Bool} (rest i running start : ℕ)
    (h : ∀ j, i ≤ j → j < i + rest → get' j = get j) :
    searchRun get' n rest i running start = searchRun get n rest i running start := by
  induction rest generalizing i running start with
  | zero => rfl
  | succ rest ih =>
    have hnext : ∀ j, i + 1 ≤ j → j < i + 1 + rest → get' j = get j :=
      fun j hlo hhi => h j (by omega) (by omega)
    simp only [searchRun, h i le_rfl (by omega), ih (i + 1) _ _ hnext]

/-- There are `n` clear bits from `k` on. -/
def ClearRun (get : ℕ → Bool) (count k n : ℕ) : Prop :=
  k + n ≤ count ∧ ∀ i, k ≤ i → i < k + n → get i = false

/-- What is found is a run of the wanted length; one is found if there is any, and then none begins in
front of it. -/
lemma searchRun_spec (get : ℕ → Bool) (rest i running start : ℕ) (hrunning : running < n)
    (hstart : 0 < running → start + running = i)
    (hclear : 0 < running → ∀ j, start ≤ j → j < i → get j = false)
    (hbefore : ∀ j, ClearRun get (i + rest) j n → i ≤ j + running) :
    ((searchRun get n rest i running start).1 = n →
        ClearRun get (i + rest) (searchRun get n rest i running start).2 n) ∧
      ∀ j, ClearRun get (i + rest) j n → (searchRun get n rest i running start).1 = n ∧
        (searchRun get n rest i running start).2 ≤ j := by
  induction rest generalizing i running start with
  | zero =>
    refine ⟨fun hfound => ?_, fun j hj => ?_⟩
    · simp only [searchRun] at hfound
      omega
    · have hle := hbefore j hj
      have hend := hj.1
      omega
  | succ rest ih =>
    rw [show i + (rest + 1) = i + 1 + rest by omega] at hbefore ⊢
    rw [searchRun]
    by_cases hget : get i = true
    · rw [if_pos hget]
      refine ih (i + 1) 0 start (by omega) (by omega) (by omega) fun k hk => ?_
      -- a run that begins in front of the set bit would reach over it
      by_contra hlt
      have hle := hbefore k hk
      exact Bool.false_ne_true ((hk.2 i (by omega) (by omega)).symm.trans hget)
    · rw [if_neg hget]
      -- the run now reaches up to and including `i`
      have hstart' : (if running = 0 then i else start) + running = i := by split_ifs <;> omega
      have hclear' : ∀ j, (if running = 0 then i else start) ≤ j → j < i + 1 → get j = false := by
        intro j hlo hhi
        by_cases hj : j = i
        · rw [hj, Bool.eq_false_iff]
          exact hget
        · split_ifs at hlo with h0
          · omega
          · exact hclear (by omega) j hlo (by omega)
      by_cases hlast : running + 1 = n
      · rw [if_pos hlast]
        refine ⟨fun _ => ⟨by dsimp only; omega, fun j hlo hhi => hclear' j hlo ?_⟩, fun j hj =>
          ⟨rfl, ?_⟩⟩
        · dsimp only at hhi
          omega
        · have hle := hbefore j hj
          omega
      · rw [if_neg hlast]
        refine ih (i + 1) (running + 1) _ (by omega) (fun _ => by omega) (fun _ => hclear')
          fun k hk => ?_
        have hle := hbefore k hk
        omega

/-- **First fit**: the first zone with enough clear bits in a row, and the lowest ones. -/
lemma PmmView.findBlock_first (v : PmmView) (hn : 0 < n) (zs : List Zone) :
    (v.findBlock n zs = none ∧ ∀ z ∈ zs, ∀ j, ¬ ClearRun (v.bit z) z.count j n) ∨
      ∃ l z l' k, v.findBlock n zs = some (z, k) ∧ zs = l ++ z :: l' ∧
        (∀ y ∈ l, ∀ j, ¬ ClearRun (v.bit y) y.count j n) ∧ ClearRun (v.bit z) z.count k n ∧
        ∀ j < k, ¬ ClearRun (v.bit z) z.count j n := by
  induction zs with
  | nil => exact .inl ⟨rfl, nofun⟩
  | cons y zs ih =>
    obtain ⟨hrun, hfirst⟩ := searchRun_spec (v.bit y) y.count 0 0 0 hn (by omega) (by omega)
      fun _ _ => zero_le
    rw [zero_add] at hrun hfirst
    rw [findBlock]
    by_cases hfound : (searchRun (v.bit y) n y.count 0 0 0).1 = n
    · refine .inr ⟨[], y, zs, _, if_pos hfound, rfl, nofun, hrun hfound, fun j hlt hj => ?_⟩
      exact absurd (hfirst j hj).2 (by omega)
    · have hy : ∀ j, ¬ ClearRun (v.bit y) y.count j n := fun j hj => hfound (hfirst j hj).1
      simp only [if_neg hfound]
      rcases ih with ⟨hnone, hzs⟩ | ⟨l, z, l', k, hsome, rfl, hl, hz⟩
      · exact .inl ⟨hnone, forall_mem_cons.mpr ⟨hy, hzs⟩⟩
      · exact .inr ⟨y :: l, z, l', k, hsome, rfl, forall_mem_cons.mpr ⟨hy, hl⟩, hz⟩

lemma PmmView.findBlock_spec (hn : 0 < n) {zs : List Zone} (h : v.findBlock n zs = some (z, k)) :
    z ∈ zs ∧ k + n ≤ z.count ∧ ∀ i, k ≤ i → i < k + n → v.bit z i = false := by
  rcases v.findBlock_first hn zs with ⟨hnone, -⟩ | ⟨l, y, l', j, hsome, rfl, -, hclear, -⟩
  · cases hnone.symm.trans h
  · cases hsome.symm.trans h
    exact ⟨mem_append_right _ mem_cons_self, hclear⟩

/-! ### Valid views -/

namespace PmmView.Valid

variable {a k : ℕ} {z : Zone} {b : Block}

section

variable (h : v.Valid regions blocks)

include h

lemma usage_le_one (hr : Usable hhdmBase regions) (a : ℕ) : v.usage (singles blocks) a ≤ 1 :=
  (h.usage_le a).trans (cover_le_one_of_pairwise hr.disjoint a)

/-- Two zones share no address. -/
lemma zone_unique (hr : Usable hhdmBase regions) {y : Zone} (hy : y ∈ v.zones)
    (hz : z ∈ v.zones) (hya : y.span.Contains a) (hza : z.span.Contains a) :
    y = z := by
  have hone := h.usage_le_one hr a
  simp only [usage] at hone
  exact eq_of_cover_map (by omega) hy hz hya hza

/-- Every address of a block is used by the freelist's blocks or by the zones. -/
lemma block_used (hb : b ∈ blocks) (ha : b.span.Contains a) :
    0 < cover ((singles blocks).map Block.span) a ∨ 0 < cover (v.zones.map span) a := by
  by_cases hone : b.pages = 1
  · exact .inl (cover_map_pos (mem_singles hb hone) ha)
  · obtain ⟨-, z, hz, k, hbase, hk⟩ := h.block_ok b (mem_zoneBlocks hb hone)
    exact .inr (cover_map_pos hz (span_of_block hbase hk ha))

/-- A block that was handed out holds nothing of the view. -/
lemma not_stored_of_block (hr : Usable hhdmBase regions) (hb : b ∈ blocks)
    (ha : b.span.Contains a) : ¬ v.stored a := by
  intro hstored
  have hused := h.block_used hb ha
  have hone := h.usage_le_one hr a
  simp only [stored, usage] at hstored hone
  omega

lemma block_pos (hb : b ∈ blocks) : 0 < b.pages := by
  by_cases hone : b.pages = 1
  · omega
  · exact (h.block_ok b (mem_zoneBlocks hb hone)).1

/-- Where a block lies: not at address 0, and inside the direct map. -/
lemma block_base (hr : Usable hhdmBase regions) (hb : b ∈ blocks) :
    b.base ≠ 0 ∧ b.base + hhdmBase < 2 ^ 64 ∧ b.base % PageSize = 0 := by
  have hpos := h.block_pos hb
  have hself : b.span.Contains b.base := by
    simp only [Block.span, Span.Contains, PageSize]
    omega
  have hused := h.block_used hb hself
  have hle := h.usage_le b.base
  simp only [usage] at hle
  obtain ⟨hne, hlt⟩ := hr.of_cover (a := b.base) (by omega)
  refine ⟨hne, hlt, ?_⟩
  by_cases hone : b.pages = 1
  · exact h.single_ok b (mem_singles hb hone)
  · obtain ⟨-, z, hz, k, hbase, hk⟩ := h.block_ok b (mem_zoneBlocks hb hone)
    have haligned := h.zone_ok z hz
    simp only [hbase, page, Nat.add_mul_mod_self_right, haligned]

lemma perm {blocks' : List Block} (hp : blocks.Perm blocks') :
    v.Valid regions blocks' := by
  have hs : (singles blocks).Perm (singles blocks') := hp.filter _
  have hz : (zoneBlocks blocks).Perm (zoneBlocks blocks') := hp.filter _
  refine
    { h with
      usage_le := fun a => ?_
      single_ok := fun b hb => h.single_ok b (hs.mem_iff.mpr hb)
      block_ok := fun b hb => h.block_ok b (hz.mem_iff.mpr hb)
      block_disjoint := fun a => ?_
      bits_set := fun z hz' i hi hc => h.bits_set z hz' i hi ?_ }
  · have hle := h.usage_le a
    rwa [usage, cover_perm (hs.map Block.span) a] at hle
  · exact cover_perm (hz.map Block.span) a ▸ h.block_disjoint a
  · rwa [cover_perm (hz.map Block.span)]

/-- The first page of the freelist is handed out. -/
lemma popRun {r : Block} {runs : List Block}
    (hruns : v.runs = r :: runs) : v.popRun.Valid regions (⟨r.base, 1⟩ :: blocks) := by
  obtain ⟨hsingle, hzoneb⟩ := singles_cons_one (b := ⟨r.base, 1⟩) rfl blocks
  have hpos := h.run r (hruns ▸ mem_cons_self)
  have haligned := h.run_ok r (hruns ▸ mem_cons_self)
  have hok : ∀ q ∈ v.popRun.runs, 0 < q.pages ∧ q.base % PageSize = 0 := by
    have hrest : ∀ q ∈ runs, 0 < q.pages ∧ q.base % PageSize = 0 := fun q hq =>
      have hmem := hruns ▸ mem_cons_of_mem r hq
      ⟨h.run q hmem, h.run_ok q hmem⟩
    rw [PmmView.popRun, hruns, Memory.popRun]
    split_ifs with hmany
    · refine forall_mem_cons.mpr ⟨⟨Nat.sub_pos_of_lt hmany, ?_⟩, hrest⟩
      rw [Nat.add_mod_right, haligned]
    · exact hrest
  refine ⟨⟨fun q hq => (hok q hq).1, h.segment⟩, fun a => ?_, fun q hq => (hok q hq).2, ?_,
    h.zone_ok, ?_, ?_, ?_⟩
  · have hle := h.usage_le a
    have hcover := cover_popRun hpos runs a
    rw [usage, hruns, hcover] at hle
    rw [PmmView.usage, hsingle, PmmView.popRun, hruns]
    simp only [map_cons, cover_cons, records] at hle ⊢
    omega
  · rw [hsingle]
    exact forall_mem_cons.mpr ⟨haligned, h.single_ok⟩
  · exact hzoneb ▸ h.block_ok
  · exact hzoneb ▸ h.block_disjoint
  · exact hzoneb ▸ h.bits_set

end

/-- A page is given back to the freelist. -/
lemma pushRun {base : ℕ} (h : v.Valid regions (⟨base, 1⟩ :: blocks)) :
    (v.pushRun base).Valid regions blocks := by
  obtain ⟨hsingle, hzoneb⟩ := singles_cons_one (b := ⟨base, 1⟩) rfl blocks
  have haligned : base % PageSize = 0 := h.single_ok ⟨base, 1⟩ (hsingle ▸ mem_cons_self)
  refine ⟨⟨forall_mem_cons.mpr ⟨Nat.one_pos, h.run⟩, h.segment⟩, fun a => ?_,
    forall_mem_cons.mpr ⟨haligned, h.run_ok⟩, fun b hb => ?_, h.zone_ok, ?_, ?_, ?_⟩
  · have hle := h.usage_le a
    rw [hsingle] at hle
    simp only [PmmView.usage, PmmView.pushRun, PmmView.records, map_cons, cover_cons] at hle ⊢
    omega
  · exact h.single_ok b (hsingle ▸ mem_cons_of_mem _ hb)
  · exact hzoneb ▸ h.block_ok
  · exact hzoneb ▸ h.block_disjoint
  · exact hzoneb ▸ h.bits_set

/-- Clear bits of a zone are set for a block. -/
lemma take (hr : Usable hhdmBase regions) (h : v.Valid regions blocks) (hz : z ∈ v.zones) {n : ℕ}
    (hn : 1 < n) (hk : k + n ≤ z.count) (hclear : ∀ i, k ≤ i → i < k + n → v.bit z i = false) :
    (v.setBits z k n true).Valid regions (⟨z.page k, n⟩ :: blocks) := by
  obtain ⟨hsingle, hzoneb⟩ := singles_cons_many (b := ⟨z.page k, n⟩) hn.ne' blocks
  refine ⟨⟨h.run, h.segment⟩, ?_, h.run_ok, ?_, h.zone_ok, ?_, fun a => ?_, ?_⟩
  · rw [hsingle]
    exact h.usage_le
  · rw [hsingle]
    exact h.single_ok
  · rw [hzoneb]
    exact forall_mem_cons.mpr ⟨⟨by simp only; omega, z, hz, k, rfl, hk⟩, h.block_ok⟩
  · -- an older block at an address of the new one would have set a bit there
    rw [hzoneb, map_cons, cover_cons]
    split_ifs with ha
    · obtain ⟨hlo, hhi, -⟩ := page_of_block (z := z) (b := ⟨z.page k, n⟩) rfl ha
      have hzero : ¬ 0 < cover ((zoneBlocks blocks).map Block.span) a := by
        intro hcover
        obtain ⟨t, ht, hba⟩ := cover_pos.mp hcover
        obtain ⟨b, hb, rfl⟩ := mem_map.mp ht
        obtain ⟨-, y, hy, l, hbase, hl⟩ := h.block_ok b hb
        obtain rfl : y = z := h.zone_unique hr hy hz (span_of_block hbase hl hba)
          (span_of_block (b := ⟨z.page k, n⟩) rfl hk ha)
        have hcov := cover_map_pos hb (page_of_block hbase hba).2.2
        have hset := h.bits_set y hz _ (hhi.trans_le hk) hcov
        rw [hclear _ hlo hhi] at hset
        exact Bool.false_ne_true hset
      omega
    · exact h.block_disjoint a
  · intro y hy i hi hcover
    rw [hzoneb, map_cons, cover_cons] at hcover
    simp only [setBits]
    split_ifs with hyz
    · rfl
    · split_ifs at hcover with hin
      · -- the page is one of the new block after all
        have hyspan := contains_page hi
        obtain rfl : y = z := h.zone_unique hr hy hz hyspan
          (span_of_block (b := ⟨z.page k, n⟩) rfl hk hin)
        exfalso
        apply hyz
        simp only [Block.span, Span.Contains, page, PageSize] at hin
        exact ⟨rfl, by omega, by omega⟩
      · exact h.bits_set y hy i hi (by omega)

/-- The bits of a block are cleared. -/
lemma release (h : v.Valid regions (b :: blocks)) (hb : b.pages ≠ 1) (hbase : b.base = z.page k) :
    (v.setBits z k b.pages false).Valid regions blocks := by
  obtain ⟨hsingle, hzoneb⟩ := singles_cons_many hb blocks
  refine ⟨⟨h.run, h.segment⟩, hsingle ▸ h.usage_le, h.run_ok, hsingle ▸ h.single_ok, h.zone_ok,
    fun c hc => h.block_ok c (hzoneb ▸ mem_cons_of_mem _ hc), fun a => ?_, ?_⟩
  · have hone := h.block_disjoint a
    rw [hzoneb, map_cons, cover_cons] at hone
    omega
  · intro y hy i hi hcover
    have hone := h.block_disjoint (y.page i)
    have hset := h.bits_set y hy i hi
    rw [hzoneb, map_cons, cover_cons] at hone hset
    simp only [setBits]
    rw [if_neg]
    · exact hset (by omega)
    · rintro ⟨rfl, hlo, hhi⟩
      rw [if_pos (block_contains_page hbase hlo hhi)] at hone
      omega

variable (hr : Usable hhdmBase regions) (h : v.Valid regions blocks)

include hr h

/-- The zone of a block. -/
lemma zoneOf_block (hb : b ∈ blocks) (hmany : b.pages ≠ 1) :
    ∃ z ∈ v.zones, ∃ k, v.zoneOf b.base = some z ∧ b.base = z.page k ∧ k + b.pages ≤ z.count ∧
      (b.base - z.base) / PageSize = k := by
  obtain ⟨hpos, z, hz, k, hbase, hk⟩ := h.block_ok b (mem_zoneBlocks hb hmany)
  have hspan : z.span.Contains b.base := by
    rw [hbase]
    exact contains_page (by omega)
  have hfind : v.zoneOf b.base = some z := by
    cases hf : v.zoneOf b.base with
    | none => exact absurd hspan (by simpa using find?_eq_none.mp hf z hz)
    | some y =>
      have hy : y.span.Contains b.base := by simpa using find?_some hf
      rw [h.zone_unique hr (mem_of_find?_eq_some hf) hz hy hspan]
  refine ⟨z, hz, k, hfind, hbase, hk, ?_⟩
  rw [hbase, page, Nat.add_sub_cancel_left, Nat.mul_div_cancel _ (by decide)]

/-- A single page that was handed out is in no zone. -/
lemma zoneOf_single (hb : b ∈ blocks) (hone : b.pages = 1) : v.zoneOf b.base = none := by
  refine find?_eq_none.mpr fun z hz hspan => ?_
  have hself : b.span.Contains b.base := by
    simp only [Block.span, Span.Contains, PageSize, hone]
    omega
  have hused := cover_map_pos (mem_singles hb hone) hself
  have hzone : 0 < cover (v.zones.map span) b.base :=
    cover_map_pos hz (by simpa using hspan)
  have hle := h.usage_le_one hr b.base
  simp only [usage] at hle
  omega

/-- **`Alloc`** keeps the view valid. -/
lemma alloc {n : ℕ} (halloc : v.alloc n = some (a, v')) :
    (a = 0 ∧ v' = v) ∨ v'.Valid regions (⟨a, n⟩ :: blocks) := by
  simp only [PmmView.alloc] at halloc
  split_ifs at halloc with h0 h1
  · cases halloc
    exact .inl ⟨rfl, rfl⟩
  · obtain ⟨r, hhead, heq⟩ := Option.map_eq_some_iff.mp halloc
    obtain ⟨runs, hruns⟩ := head?_eq_some_iff.mp hhead
    cases heq
    exact .inr (h1 ▸ h.popRun hruns)
  · split at halloc
    · cases halloc
      exact .inl ⟨rfl, rfl⟩
    · next z k hfind =>
      cases halloc
      obtain ⟨hz, hk, hclear⟩ := findBlock_spec (by omega) hfind
      exact .inr (h.take hr hz (by omega) hk hclear)

/-- **`Free`** of a block keeps the view valid. -/
lemma free (hb : b ∈ blocks) : (v.free b).Valid regions (blocks.erase b) := by
  have hcons := h.perm (perm_cons_erase hb)
  by_cases hone : b.pages = 1
  · have hpage : (⟨b.base, 1⟩ : Block) = b := by rw [← hone]
    rw [PmmView.free, h.zoneOf_single hr hb hone]
    simp only [if_pos hone]
    exact pushRun (hpage ▸ hcons)
  · obtain ⟨z, hz, k, hfind, hbase, hk, hindex⟩ := h.zoneOf_block hr hb hone
    rw [PmmView.free, hfind]
    simp only [hindex]
    exact hcons.release hone hbase

end PmmView.Valid

end Northport.Memory
