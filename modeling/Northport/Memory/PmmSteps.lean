/-
# Alloc and Free do what they do on the view

The memory of the PMM holds a valid view before a call and the view after the call afterwards.
The debug options fill a page with random words: harmless for a page that has just been handed
out, or for one whose bits were cleared.
-/
import Northport.Memory.PmmView

namespace Northport.Memory

open Lib Option List ByteMem PmmView OnlyWrites Pmm

variable {hhdmBase : ℕ} {regions : List MemmapEntry} {s s' : Pmm} {v v' : PmmView}
  {blocks : List Block}

/-! ### Writes inside a span -/

/-- The memory inside the span and the random generator are all that changed. -/
structure Pmm.Framed (sp : Span) (s s' : Pmm) : Prop where
  mem : OnlyWrites sp s.mem s'.mem
  rest : s' = { s with mem := s'.mem, rng := s'.rng }

namespace Pmm.Framed

variable {sp : Span} {s'' : Pmm}

lemma refl (sp : Span) (s : Pmm) : s.Framed sp s := ⟨OnlyWrites.refl sp s.mem, rfl⟩

lemma trans (h : s.Framed sp s') (h' : s'.Framed sp s'') : s.Framed sp s'' := by
  refine ⟨h.mem.trans h'.mem, ?_⟩
  rw [h'.rest, h.rest]

lemma holds (h : s.Framed sp s') (hs : s.Holds hhdmBase v) (hv : v.Stored)
    (hsp : ∀ a, sp.Contains a → ¬ v.stored a) : s'.Holds hhdmBase v := by
  rw [h.rest]
  exact hs.frame hv s'.rng fun a ha => h.mem a fun hin => hsp a hin ha

end Pmm.Framed

/-- The settings of the debug options. -/
def Pmm.SameSettings (s s' : Pmm) : Prop :=
  s'.trashAfterUse = s.trashAfterUse ∧ s'.trashBeforeUse = s.trashBeforeUse

lemma Pmm.Framed.sameSettings {sp : Span} (h : s.Framed sp s') : s.SameSettings s' := by
  rw [h.rest]
  exact ⟨rfl, rfl⟩

variable {n : ℕ} {mem : ByteMem} {zs : List Zone}

lemma onlyWrites_trashWords (mem : ByteMem) (rng : ℕ → ℕ) (addr : ℕ) (hn : 8 * n ≤ PageSize) :
    OnlyWrites ⟨addr, PageSize⟩ mem (trashWords mem rng addr n) := by
  induction n with
  | zero => exact refl _ mem
  | succ n ih =>
    refine (ih (by omega)).trans (write64 ?_ ?_) <;> simp only <;> omega

/-- The page behind the pointer is trashed, if the option is set. -/
lemma Pmm.trash_framed (hhdmBase : ℕ) (s : Pmm) (enabled : Bool) (addr : ℕ) :
    ∃ s', s.trash hhdmBase enabled (addr + hhdmBase) = some s' ∧ s.Framed ⟨addr, PageSize⟩ s' := by
  rw [trash]
  split_ifs with henabled hlow
  · exact absurd hlow (by omega)
  · refine ⟨_, rfl, ?_, rfl⟩
    rw [Nat.add_sub_cancel]
    exact onlyWrites_trashWords _ _ _ (by decide)
  · exact ⟨s, rfl, Framed.refl _ s⟩

lemma Pmm.trashMany_framed (hhdmBase : ℕ) (s : Pmm) (enabled : Bool) (addr n : ℕ) :
    ∃ s', s.trashMany hhdmBase enabled (addr + hhdmBase) n = some s' ∧
      s.Framed ⟨addr, PageSize⟩ s' := by
  induction n generalizing s with
  | zero => exact ⟨s, rfl, Framed.refl _ s⟩
  | succ n ih =>
    obtain ⟨s₁, htrash, hframed₁⟩ := s.trash_framed hhdmBase enabled addr
    obtain ⟨s₂, hmany, hframed₂⟩ := ih s₁
    refine ⟨s₂, ?_, hframed₁.trans hframed₂⟩
    rw [trashMany, htrash]
    exact hmany

section

variable (h : s.Holds hhdmBase v)
include h

section

variable (hr : Usable hhdmBase regions)
include hr

section

variable (hv : v.Valid regions blocks) {r : Block} {runs : List Block}
include hv

/-- **A holder writes inside its block.** -/
lemma Pmm.Holds.write
    {b : Block} (hb : b ∈ blocks) {a : ℕ} (ha : b.span.Contains a)
    (x : BitVec 8) : ({ s with mem := Function.update s.mem a x } : Pmm).Holds hhdmBase v := by
  have hframed : s.Framed b.span { s with mem := Function.update s.mem a x } :=
    ⟨update ha, rfl⟩
  exact hframed.holds h hv.toStored fun y hy => hv.not_stored_of_block hr hb hy

/-! ### Single pages -/

/-- The freelist moves on by one page. -/
lemma Pmm.Holds.advance (hruns : v.runs = r :: runs) (hmany : 1 < r.pages) :
    ({ s with
        mem := (s.mem.write64 (r.base + PageSize + 8) (r.pages - 1)).write64 (r.base + PageSize)
          ((s.mem.write64 (r.base + PageSize + 8) (r.pages - 1)).read64 r.base)
        freelist := s.freelist + PageSize } : Pmm).Holds hhdmBase v.popRun := by
  have hfree := h.freelist
  rw [hruns] at hfree
  obtain ⟨hne, next, ⟨hptr, hpages, hnext⟩, hrest⟩ := hfree
  have hread : (s.mem.write64 (r.base + PageSize + 8) (r.pages - 1)).read64 r.base = next := by
    rw [← hnext]
    exact read64_write64_of_disjoint (.inr (by simp only [PageSize]; omega))
  rw [hread]
  have honly : OnlyWrites r.span s.mem
      ((s.mem.write64 (r.base + PageSize + 8) (r.pages - 1)).write64 (r.base + PageSize) next) := by
    refine trans (write64 ?_ ?_)
      (write64 ?_ ?_) <;> simp only [Block.span, PageSize] <;> omega
  -- apart from the first run, the view is stored elsewhere
  have hother : ({ s with
        mem := (s.mem.write64 (r.base + PageSize + 8) (r.pages - 1)).write64 (r.base + PageSize) next
        freelist := next } : Pmm).Holds hhdmBase { v with runs := runs } := by
    have hbefore : ({ s with freelist := next } : Pmm).Holds hhdmBase { v with runs := runs } :=
      { h with freelist := hrest }
    refine Framed.holds (s := { s with freelist := next }) ⟨honly, rfl⟩ hbefore
      ⟨fun q hq => hv.run q (hruns ▸ mem_cons_of_mem _ hq), hv.segment⟩ fun a ha hstored => ?_
    have hone := hv.usage_le_one hr a
    simp only [usage, hruns, map_cons, cover_cons, if_pos ha] at hone
    simp only [stored, records] at hstored hone
    omega
  have hpop : v.popRun.runs = ⟨r.base + PageSize, r.pages - 1⟩ :: runs := by
    rw [PmmView.popRun, hruns, popRun, if_pos hmany]
  have hlt := s.mem.read64_lt (r.base + 8)
  refine { hother with freelist := ?_ }
  rw [hpop]
  refine ⟨by simp only; omega, next, ⟨by simp only [hptr]; omega, ?_, ?_⟩, hother.freelist⟩
  · rw [read64_write64_of_disjoint (.inl le_rfl), read64_write64 (by omega)]
  · exact read64_write64 (hnext ▸ s.mem.read64_lt r.base)

/-- **`Alloc(1)`** hands out the first page of the freelist. -/
lemma Pmm.Holds.alloc_one (hruns : v.runs = r :: runs) :
    ∃ s', s.alloc hhdmBase 1 = some (r.base, s') ∧ s'.Holds hhdmBase v.popRun ∧
      s.SameSettings s' := by
  have hfree := h.freelist
  rw [hruns] at hfree
  obtain ⟨hne, next, ⟨hptr, hpages, hnext⟩, hrest⟩ := hfree
  have hentry : s.freelist - hhdmBase = r.base := by rw [hptr, Nat.add_sub_cancel]
  have hvalid := hv.popRun hruns
  -- the page is handed out, so trashing it changes nothing of the view
  have htrash : ∀ s₁ : Pmm, s₁.Holds hhdmBase v.popRun → s.SameSettings s₁ →
      ∃ s', s₁.trash hhdmBase s.trashBeforeUse s.freelist = some s' ∧
        s'.Holds hhdmBase v.popRun ∧ s.SameSettings s' := by
    intro s₁ hs₁ hsame
    obtain ⟨s', hs', hframed⟩ :=
      s₁.trash_framed hhdmBase s.trashBeforeUse r.base
    rw [← hptr] at hs'
    refine ⟨s', hs', hframed.holds hs₁ hvalid.toStored fun a ha => ?_, ?_⟩
    · refine hvalid.not_stored_of_block hr mem_cons_self ?_
      simpa only [Block.span, one_mul] using ha
    · have hkeep := hframed.sameSettings
      exact ⟨hkeep.1.trans hsame.1, hkeep.2.trans hsame.2⟩
  rw [alloc, if_neg (by decide), if_pos rfl, if_neg hne]
  simp only [hentry, hpages]
  by_cases hmany : r.pages > 1
  · obtain ⟨s', hs', hholds, hsame⟩ := htrash _ (h.advance hr hv hruns hmany) ⟨rfl, rfl⟩
    refine ⟨s', ?_, hholds, hsame⟩
    simp only [if_pos hmany, hs', map_some]
  · have hpop : v.popRun = { v with runs := runs } := by
      rw [PmmView.popRun, hruns, popRun, if_neg hmany]
    have hholds : ({ s with freelist := s.mem.read64 r.base } : Pmm).Holds hhdmBase v.popRun := by
      rw [hpop]
      exact { h with freelist := hnext ▸ hrest }
    obtain ⟨s', hs', hholds, hsame⟩ := htrash _ hholds ⟨rfl, rfl⟩
    refine ⟨s', ?_, hholds, hsame⟩
    simp only [if_neg hmany, hs', map_some]

/-- A page is linked in front of the freelist. -/
lemma Pmm.Holds.link
    {base : ℕ} (hb : ⟨base, 1⟩ ∈ blocks) :
    ({ s with
        mem := (s.mem.write64 (base + 8) 1).write64 base s.freelist
        freelist := base + hhdmBase } : Pmm).Holds hhdmBase (v.pushRun base) := by
  have hbase : base ≠ 0 := (hv.block_base hr hb).1
  have honly : OnlyWrites (⟨base, 1⟩ : Block).span s.mem
      ((s.mem.write64 (base + 8) 1).write64 base s.freelist) := by
    refine trans (write64 ?_ ?_)
      (write64 ?_ ?_) <;> simp only [Block.span, PageSize] <;> omega
  have hother : ({ s with mem := (s.mem.write64 (base + 8) 1).write64 base s.freelist } : Pmm).Holds
      hhdmBase v :=
    Framed.holds ⟨honly, rfl⟩ h hv.toStored fun a ha => hv.not_stored_of_block hr hb ha
  have hfreelist : s.freelist < 2 ^ 64 := by
    have hfree := h.freelist
    cases hruns : v.runs with
    | nil =>
      rw [hruns] at hfree
      rw [show s.freelist = 0 from hfree]
      decide
    | cons r runs =>
      rw [hruns] at hfree
      obtain ⟨-, -, ⟨hptr, -, -⟩, -⟩ := hfree
      have hmem : r ∈ v.runs := hruns ▸ mem_cons_self
      have hpos := hv.run r hmem
      have hused : 0 < cover (v.runs.map Block.span) r.base := by
        refine cover_map_pos hmem ?_
        simp only [Block.span, Span.Contains, PageSize]
        omega
      have hle := hv.usage_le r.base
      simp only [usage] at hle
      have hmapped := hr.of_cover (a := r.base) (by omega)
      omega
  refine { hother with freelist := ⟨by simp only; omega, s.freelist, ⟨rfl, ?_, ?_⟩, hother.freelist⟩ }
  · rw [read64_write64_of_disjoint (.inl le_rfl), read64_write64 (by decide)]
  · exact read64_write64 hfreelist

/-! ### Zones -/

/-- The bitmap of one zone is written. -/
lemma Pmm.Holds.setBits
    {z : Zone} (hz : z ∈ v.zones) {mem : ByteMem} {k n : ℕ}
    {taken : Bool} (honly : OnlyWrites z.bits s.mem mem)
    (hbits : ∀ i < z.count, mem.getBit z.bitmap i =
      if k ≤ i ∧ i < k + n then taken else s.mem.getBit z.bitmap i) :
    ({ s with mem := mem } : Pmm).Holds hhdmBase (v.setBits z k n taken) := by
  have hapart : ∀ a, z.bits.Contains a → cover (v.runs.map Block.span) a = 0 ∧
      cover (v.zones.map Zone.header) a = 0 ∧ cover (v.zones.map Zone.bits) a ≤ 1 ∧
      cover v.info a = 0 := by
    intro a ha
    have hpos : 0 < cover (v.zones.map Zone.bits) a := cover_map_pos hz ha
    have hone := hv.usage_le_one hr a
    simp only [PmmView.usage, PmmView.records, cover_append] at hone
    omega
  have hsame : ∀ a, 0 < cover (v.runs.map Block.span) a ∨ 0 < cover (v.zones.map Zone.header) a ∨
      0 < cover v.info a → mem a = s.mem a := by
    refine fun a ha => honly a fun hin => ?_
    have hzero := hapart a hin
    omega
  refine ⟨?_, ?_, h.zones_le, ?_, ?_, h.segments_le, h.pageInfos, h.metadata⟩
  · exact h.freelist.congr fun r hr' p q hp => hp.congr (hv.run r hr') fun a ha =>
      hsame a (.inl (cover_map_pos hr' ha))
  · exact h.zoneList.congr fun y hy p q hp => hp.congr fun a ha =>
      hsame a (.inr (.inl (cover_map_pos hy ha)))
  · intro y hy i hi
    simp only [PmmView.setBits]
    by_cases hyz : y = z
    · subst hyz
      rw [hbits i hi, h.bits y hz i hi]
      simp only [true_and]
    · -- the bitmap of another zone is elsewhere
      have hbyte : mem (y.bitmap + i / 8) = s.mem (y.bitmap + i / 8) := by
        refine honly _ fun hin => hyz ?_
        exact eq_of_cover_map (hapart _ hin).2.2.1 hy hz (Zone.bits_contains hi) hin
      rw [if_neg fun hc => hyz hc.1, ← h.bits y hy i hi, getBit, getBit, hbyte]
  · exact h.segmentList.congr fun g hg p q hp => hp.congr fun a ha =>
      hsame a (.inr (.inr (hv.segment g hg a ha)))

end

end

end

lemma bits_length {count k : ℕ} (hk : k + n ≤ count) : (k + n + 7) / 8 ≤ roundUp count 8 / 8 := by
  have hround : count ≤ roundUp count 8 := (le_roundUp (by decide)).1
  have hmod := roundUp_mod count 8
  omega

/-- The loop over the zones finds the block that the view has. -/
lemma allocFromZones_eq {fuel ptr : ℕ} (hzs : RecordList (ZoneAt hhdmBase mem) ptr zs)
    (hfuel : zs.length ≤ fuel)
    (hbits : ∀ z ∈ zs, ∀ i < z.count, mem.getBit z.bitmap i = v.bit z i) :
    allocFromZones hhdmBase mem n fuel ptr =
      some ((v.findBlock n zs).map fun f => (f.1.page f.2, mem.setBits f.1.bitmap f.2 n)) := by
  induction zs generalizing ptr fuel with
  | nil =>
    rw [allocFromZones.eq_def]
    exact if_pos hzs
  | cons z zs ih =>
    obtain ⟨hne, next, ⟨rfl, hload⟩, hrest⟩ := hzs
    obtain ⟨fuel, rfl⟩ := Nat.exists_eq_add_of_le' (Nat.one_le_of_lt hfuel)
    have hsearch : searchRun (mem.getBit z.bitmap) n z.count 0 0 0 =
        searchRun (v.bit z) n z.count 0 0 0 :=
      searchRun_congr _ _ _ _ fun j _ hj => hbits z mem_cons_self j (by omega)
    rw [allocFromZones.eq_def]
    simp only [if_neg hne, hload, Nat.add_sub_cancel, hsearch, findBlock]
    split_ifs with hfound
    · rfl
    · exact ih hrest (Nat.le_of_succ_le_succ hfuel) fun y hy => hbits y (mem_cons_of_mem _ hy)

/-- The loop over the zones finds the zone of the address. -/
lemma freeToZones_eq (base : ℕ) {fuel ptr : ℕ} (hzs : RecordList (ZoneAt hhdmBase mem) ptr zs)
    (hfuel : zs.length ≤ fuel) :
    freeToZones hhdmBase mem base n fuel ptr =
      some ((zs.find? fun z => z.span.Contains base).map fun z =>
        mem.clearBits z.bitmap ((base - z.base) / PageSize) n) := by
  induction zs generalizing ptr fuel with
  | nil =>
    rw [freeToZones.eq_def]
    exact if_pos hzs
  | cons z zs ih =>
    obtain ⟨hne, next, ⟨rfl, hload⟩, hrest⟩ := hzs
    obtain ⟨fuel, rfl⟩ := Nat.exists_eq_add_of_le' (Nat.one_le_of_lt hfuel)
    have hcond : (base < z.base ∨ base ≥ z.base + z.count * PageSize) ↔ ¬ z.span.Contains base := by
      simp only [Zone.span, Span.Contains]
      omega
    rw [freeToZones.eq_def]
    simp only [if_neg hne, hload, Nat.add_sub_cancel, hcond]
    by_cases hin : z.span.Contains base
    · rw [if_neg (not_not.mpr hin), find?_cons_of_pos (by simpa using hin)]
      rfl
    · rw [if_pos hin, find?_cons_of_neg (by simpa using hin)]
      exact ih hrest (Nat.le_of_succ_le_succ hfuel)

/-! ### The calls -/

/-- **`Alloc`** returns what it returns on the view, unless it trashes a block of a zone. -/
theorem Pmm.Holds.alloc (h : s.Holds hhdmBase v) (hr : Usable hhdmBase regions)
    (hv : v.Valid regions blocks) {a : ℕ}
    (hn : n ≤ 1 ∨ s.trashBeforeUse = false ∨ v.findBlock n v.zones = none)
    (halloc : v.alloc n = some (a, v')) :
    ∃ s', s.alloc hhdmBase n = some (a, s') ∧ s'.Holds hhdmBase v' ∧ s.SameSettings s' := by
  simp only [PmmView.alloc] at halloc
  split_ifs at halloc with h0 h1
  · cases halloc
    refine ⟨s, ?_, h, rfl, rfl⟩
    rw [alloc, if_pos h0]
  · obtain ⟨r, hhead, heq⟩ := map_eq_some_iff.mp halloc
    obtain ⟨runs, hruns⟩ := head?_eq_some_iff.mp hhead
    cases heq
    subst h1
    exact h.alloc_one hr hv hruns
  · have hzones := allocFromZones_eq (n := n) h.zoneList h.zones_le h.bits
    rw [Pmm.alloc, if_neg h0, if_neg h1, hzones]
    split at halloc
    · next hfind =>
      cases halloc
      rw [hfind]
      exact ⟨s, rfl, h, rfl, rfl⟩
    · next z k hfind =>
      cases halloc
      obtain ⟨hz, hk, -⟩ := findBlock_spec (by omega) hfind
      have htrash : s.trashBeforeUse = false :=
        (hn.resolve_left (by omega)).resolve_right (by rw [hfind]; simp)
      rw [hfind]
      refine ⟨{ s with mem := s.mem.setBits z.bitmap k n }, ?_, ?_, rfl, rfl⟩
      · simp only [map_some, trash, htrash, Bool.false_eq_true, if_false]
      · refine h.setBits hr hv hz (OnlyWrites.setBits _ (bits_length hk)) fun i _ => ?_
        rw [getBit_setBits]
        split_ifs with hi
        · rw [decide_eq_true hi, Bool.or_true]
        · rw [decide_eq_false hi, Bool.or_false]

/-- The assertion of `Alloc(1)` fires when the view has no free run. -/
theorem Pmm.Holds.alloc_none (h : s.Holds hhdmBase v) (halloc : v.alloc n = none) :
    s.alloc hhdmBase n = none := by
  simp only [PmmView.alloc] at halloc
  split_ifs at halloc with h0 h1
  · have hnil : v.runs = [] := by simpa using halloc
    have hptr : s.freelist = 0 := h.freelist.eq_nil_iff.mp hnil
    rw [Pmm.alloc, if_neg h0, if_pos h1, if_pos hptr]
  · split at halloc <;> simp at halloc

/-- **`Free`** of a block does what it does on the view, unless it trashes a page that is on the
freelist then. -/
theorem Pmm.Holds.free (h : s.Holds hhdmBase v) (hr : Usable hhdmBase regions)
    (hv : v.Valid regions blocks) {b : Block} (hb : b ∈ blocks)
    (hn : b.pages ≠ 1 ∨ s.trashAfterUse = false) :
    ∃ s', s.free hhdmBase b.base b.pages = some s' ∧ s'.Holds hhdmBase (v.free b) ∧
      s.SameSettings s' := by
  obtain ⟨hne, -, haligned⟩ := hv.block_base hr hb
  have hpos := hv.block_pos hb
  have hzones := freeToZones_eq b.base (n := b.pages) h.zoneList h.zones_le
  rw [Pmm.free, if_neg (by omega)]
  simp only [haligned, Nat.sub_zero, hzones]
  by_cases hone : b.pages = 1
  · have htrash : s.trashAfterUse = false := hn.resolve_left (not_not_intro hone)
    have hnone := hv.zoneOf_single hr hb hone
    have hpage : (⟨b.base, 1⟩ : Block) ∈ blocks := by
      rw [← hone]
      exact hb
    have hlink := h.link hr hv hpage
    refine ⟨{ s with
        mem := (s.mem.write64 (b.base + 8) 1).write64 b.base s.freelist
        freelist := b.base + hhdmBase }, ?_, ?_, rfl, rfl⟩
    · rw [zoneOf] at hnone
      simp only [hnone, map_none, hone, ne_eq, not_true_eq_false, if_false, trash,
        htrash, Bool.false_eq_true]
    · rw [PmmView.free, hnone]
      simpa only [if_pos hone] using hlink
  · obtain ⟨z, hz, k, hfind, hbase, hk, hindex⟩ := hv.zoneOf_block hr hb hone
    -- the bits of the block are cleared first
    have hclear : ({ s with mem := s.mem.clearBits z.bitmap k b.pages } : Pmm).Holds hhdmBase
        (v.setBits z k b.pages false) := by
      refine h.setBits hr hv hz (clearBits _ (bits_length hk)) fun i _ => ?_
      rw [getBit_clearBits]
      split_ifs with hi
      · rw [decide_eq_true hi, Bool.not_true, Bool.and_false]
      · rw [decide_eq_false hi, Bool.not_false, Bool.and_true]
    obtain ⟨s', hs', hframed⟩ := ({ s with mem := s.mem.clearBits z.bitmap k b.pages } :
      Pmm).trashMany_framed hhdmBase s.trashAfterUse b.base b.pages
    refine ⟨s', ?_, ?_, hframed.sameSettings⟩
    · rw [zoneOf] at hfind
      simp only [hfind, map_some, hindex, hs']
    · rw [PmmView.free, hfind]
      simp only [hindex]
      refine hframed.holds hclear ⟨hv.run, hv.segment⟩ fun a ha => ?_
      -- the page that is trashed is the first one of the block
      refine show ¬ v.stored a from hv.not_stored_of_block hr hb ?_
      simp only [Block.span, Span.Contains, PageSize] at ha ⊢
      omega

end Northport.Memory
