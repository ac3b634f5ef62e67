/-
# The resident size of anonymous memory

`anonResidentSize` is meant to be the number of bytes in the private frames of the anonymous
ranges.  Three callbacks change it, each with its own idea of what is mapped: a fault adds its
whole window, `Detach` takes back one page if the first page of the range is mapped to anything,
and `Attach` knows nothing of what an earlier range has left behind.  The counter is exact along
a history precisely when every call finds what it expects.
-/
import Northport.Memory.AnonFault
import Northport.Memory.AnonSpace

namespace Northport.Memory

open Lib PageMap List Option

/-- The pages of a range. -/
def VmRange.pages (range : VmRange) : Finset ℕ :=
  Finset.Ico range.firstPage (range.firstPage + range.pageCount)

lemma VmRange.mem_pages {range : VmRange} {page : ℕ} : page ∈ range.pages ↔ range.HasPage page :=
  Finset.mem_Ico

variable {P τ : Type} [DecidableEq P]

namespace AnonVmDriver

variable (d : AnonVmDriver τ)

/-- The page is mapped to the zero page. -/
def ZeroMapped (map : PageMap) (page : ℕ) : Prop :=
  ∃ pte, map page = some pte ∧ pte.frame = d.zeroPage

instance (map : PageMap) (page : ℕ) : Decidable (d.ZeroMapped map page) :=
  match h : map page with
  | none => .isFalse (by rintro ⟨pte, hpte, -⟩; rw [h] at hpte; cases hpte)
  | some pte =>
    if heq : pte.frame = d.zeroPage then .isTrue ⟨pte, h, heq⟩
    else .isFalse (by rintro ⟨pte', hpte, h'⟩; rw [h] at hpte; cases hpte; exact heq h')

/-- The number of pages of a range with a private frame. -/
def privateCount (map : PageMap) (range : VmRange) : ℕ :=
  (range.pages.filter (d.Private map)).card

/-- The number of pages with a private frame in all ranges. -/
def privatePages (map : PageMap) (ranges : List VmRange) : ℕ :=
  (ranges.map (d.privateCount map)).sum

variable {d} {map map' : PageMap} {range : VmRange} {ranges : List VmRange} {page : ℕ}

lemma not_zeroMapped_of_private (h : d.Private map page) : ¬ d.ZeroMapped map page := by
  rintro ⟨pte, hpte, heq⟩
  obtain ⟨pte', hpte', hne⟩ := h
  cases hpte.symm.trans hpte'
  exact hne heq

/-- A page is mapped to a frame of its own, to the zero page, or not at all. -/
lemma private_or_zeroMapped {pte : Pte} (h : map page = some pte) :
    d.Private map page ∨ d.ZeroMapped map page := by
  by_cases heq : pte.frame = d.zeroPage
  · exact .inr ⟨pte, h, heq⟩
  · exact .inl ⟨pte, h, heq⟩

lemma privateCount_congr
    (h : ∀ page, range.HasPage page → (d.Private map' page ↔ d.Private map page)) :
    d.privateCount map' range = d.privateCount map range :=
  congrArg Finset.card (Finset.filter_congr fun page hpage => h page (VmRange.mem_pages.mp hpage))

lemma privatePages_congr
    (h : ∀ range ∈ ranges, ∀ page, range.HasPage page → map' page = map page) :
    d.privatePages map' ranges = d.privatePages map ranges := by
  refine congrArg sum (map_congr_left fun range hr => privateCount_congr fun page hpage => ?_)
  rw [Private, Private, h range hr page hpage]

lemma privatePages_cons (map : PageMap) (range : VmRange) (ranges : List VmRange) :
    d.privatePages map (range :: ranges) = d.privateCount map range + d.privatePages map ranges := by
  rw [privatePages, map_cons, sum_cons, privatePages]

lemma privatePages_perm {ranges' : List VmRange} (h : ranges.Perm ranges') (map : PageMap) :
    d.privatePages map ranges = d.privatePages map ranges' :=
  (h.map _).sum_eq

lemma privateCount_le (map : PageMap) (range : VmRange) :
    d.privateCount map range ≤ range.pageCount := by
  refine (Finset.card_filter_le _ _).trans ?_
  rw [VmRange.pages, Nat.card_Ico, Nat.add_sub_cancel_left]

/-! ### The callbacks -/

variable {s : AnonState τ} {addr : ℕ} {attachArg : ℕ}

/-- The pages of the window that are mapped to the zero page. -/
def zeroWindow (d : AnonVmDriver τ) (range : VmRange) (addr : ℕ) (map : PageMap) : Finset ℕ :=
  (Finset.Ico (addr / PageSize) (addr / PageSize + mapCount range addr)).filter (d.ZeroMapped map)

lemma window_card (range : VmRange) (addr : ℕ) : (Finset.Ico (addr / PageSize)
    (addr / PageSize + mapCount range addr)).card = mapCount range addr := by
  rw [Nat.card_Ico, Nat.add_sub_cancel_left]

lemma zeroWindow_card_eq : (d.zeroWindow range addr map).card = mapCount range addr ↔
    ∀ k < mapCount range addr, d.ZeroMapped map (addr / PageSize + k) := by
  have hall := Finset.card_filter_eq_iff (s := Finset.Ico (addr / PageSize)
    (addr / PageSize + mapCount range addr)) (p := d.ZeroMapped map)
  rw [window_card] at hall
  refine hall.trans ⟨fun h k hk => h _ (Finset.mem_Ico.mpr ⟨by omega, by omega⟩), ?_⟩
  intro h page hpage
  rw [Finset.mem_Ico] at hpage
  have hmapped := h (page - addr / PageSize) (by omega)
  rwa [Nat.add_sub_cancel' hpage.1] at hmapped

/-- **A fault gives a frame** to every page of its window, or with the zero page to those that are
mapped to it; the pages that are not mapped stay so. -/
lemma privateCount_faulted (hr : range.Paged) (hlo : range.base ≤ addr)
    (hhi : addr < range.base + range.length) (hok : d.FaultOk range addr s)
    (hzero : d.frames.InUse s.pmm d.zeroPage) :
    d.privateCount (d.faulted range addr s).map range = d.privateCount s.map range +
      if d.useZeroPage then (d.zeroWindow range addr s.map).card else mapCount range addr := by
  obtain ⟨new, hnew⟩ : ∃ new, new = (Finset.Ico (addr / PageSize) (addr / PageSize +
    mapCount range addr)).filter fun page => d.useZeroPage = true → d.ZeroMapped s.map page := ⟨_, rfl⟩
  have hcard : new.card =
      if d.useZeroPage then (d.zeroWindow range addr s.map).card else mapCount range addr := by
    rw [hnew]
    split_ifs with hz
    · simp only [hz, true_implies, zeroWindow]
    · simp only [hz, false_implies, Finset.filter_true, window_card, Bool.false_eq_true]
  have hsplit : range.pages.filter (d.Private (d.faulted range addr s).map) =
      range.pages.filter (d.Private s.map) ∪ new := by
    ext page
    simp only [Finset.mem_union, Finset.mem_filter, VmRange.mem_pages, hnew, Finset.mem_Ico]
    by_cases hin : addr / PageSize ≤ page ∧ page < addr / PageSize + mapCount range addr
    · obtain ⟨k, rfl⟩ := Nat.exists_eq_add_of_le hin.1
      have hk : k < mapCount range addr := by omega
      have hpage := window_hasPage hr hlo hhi hk
      cases hz : d.useZeroPage with
      | true =>
        have hmap := faulted_window (s := s) hz hk
        cases hm : s.map (addr / PageSize + k) with
        | none => simp [Private, ZeroMapped, hmap, hm]
        | some pte =>
          have hpriv : d.Private (d.faulted range addr s).map (addr / PageSize + k) :=
            ⟨_, by rw [hmap, hm]; rfl, nth_ne_zeroPage hzero _⟩
          have hor := private_or_zeroMapped (d := d) hm
          tauto
      | false =>
        have hnone := hok.resolve_left (by simp [hz]) k hk
        have hpriv : d.Private (d.faulted range addr s).map (addr / PageSize + k) := by
          refine ⟨⟨d.frames.nth s.pmm (addr / PageSize + k - addr / PageSize),
            convertFlags range.flags⟩, ?_, nth_ne_zeroPage hzero _⟩
          simp only [faulted, hz, Bool.false_eq_true, if_false, backed, hnone]
          exact if_pos hin
        simp [hpage, hpriv, hk]
    · have hmap : (d.faulted range addr s).map page = s.map page :=
        faulted_of_notMem fun k hk heq => hin ⟨by omega, by omega⟩
      rw [Private, hmap, ← Private]
      tauto
  rw [privateCount, hsplit, Finset.card_union_of_disjoint, hcard]
  · rfl
  · -- the pages of the window had no frame of their own
    refine Finset.disjoint_left.mpr fun page h1 h2 => ?_
    rw [hnew, Finset.mem_filter, Finset.mem_Ico] at h2
    have hpriv := (Finset.mem_filter.mp h1).2
    rcases hok with hz | hnone
    · exact not_zeroMapped_of_private hpriv (h2.2 hz)
    · obtain ⟨pte, hpte, -⟩ := hpriv
      have hpage := hnone (page - addr / PageSize) (by omega)
      rw [Nat.add_sub_cancel' h2.1.1, hpte] at hpage
      cases hpage

/-- Outside of the range `Attach` changes nothing. -/
lemma attached_of_notMem (h : ¬ range.HasPage page) :
    (d.attached range attachArg s).map page = s.map page := by
  rw [attached]
  split_ifs
  · exact if_neg h
  · rfl
  · exact if_neg h

/-- The zero page and demand paging give no page a frame. -/
lemma privateCount_attached_lazy (h : (d.doZeroPage s attachArg || d.doDemand s attachArg) = true) :
    d.privateCount (d.attached range attachArg s).map range = d.privateCount s.map range := by
  refine privateCount_congr fun page hpage => ?_
  rw [attached]
  split_ifs with hz hd
  · have hmap : backed range.firstPage (readonly range.flags) (fun _ => d.zeroPage) s.map
        range.pageCount page = some ((s.map page).getD ⟨d.zeroPage, readonly range.flags⟩) :=
      if_pos hpage
    cases hm : s.map page with
    | none =>
      rw [hm, getD_none] at hmap
      simp only [Private, hmap, hm, some.injEq, exists_eq_left', ne_eq, not_true_eq_false,
        reduceCtorEq, false_and, exists_false]
    | some pte =>
      rw [hm, getD_some] at hmap
      simp only [Private, hmap, hm]
  · exact Iff.rfl
  · simp only [Bool.or_eq_true] at h
    rcases h with h | h
    · exact absurd h hz
    · exact absurd h hd

/-- A range that is backed at once has a frame in every page that an earlier range has not left
mapped to the zero page. -/
lemma privateCount_attached_pages (range : VmRange)
    (h : (d.doZeroPage s attachArg || d.doDemand s attachArg) = false)
    (hzero : d.frames.InUse s.pmm d.zeroPage) :
    d.privateCount (d.attached range attachArg s).map range +
      (range.pages.filter (d.ZeroMapped s.map)).card = range.pageCount := by
  simp only [Bool.or_eq_false_iff] at h
  have hfilter : range.pages.filter (d.Private (d.attached range attachArg s).map) =
      range.pages.filter (fun page => ¬ d.ZeroMapped s.map page) := by
    refine Finset.filter_congr fun page hpage => ?_
    have hmap : (d.attached range attachArg s).map page = some ((s.map page).getD
        ⟨d.frames.nth s.pmm (page - range.firstPage), convertFlags range.flags⟩) := by
      rw [attached, h.1, h.2]
      exact if_pos (VmRange.mem_pages.mp hpage)
    cases hm : s.map page with
    | none =>
      rw [hm] at hmap
      refine iff_of_true ⟨_, hmap, nth_ne_zeroPage hzero _⟩ ?_
      rintro ⟨pte, hpte, -⟩
      rw [hm] at hpte
      cases hpte
    | some pte =>
      rw [hm, getD_some] at hmap
      simp only [Private, ZeroMapped, hmap, hm, some.injEq, exists_eq_left', ne_eq]
  rw [privateCount, hfilter, add_comm, Finset.card_filter_add_card_filter_not, VmRange.pages,
    Nat.card_Ico, Nat.add_sub_cancel_left]

end AnonVmDriver

namespace Vmm

open AnonVmDriver

variable {m : MetaAlloc P} {d : AnonVmDriver τ} {v v' : Vmm P (AnonState τ)}

/-! ### Histories -/

/-- The calls that concern anonymous memory, and the moments when the cores become ready for
demand paging. -/
inductive AnonOp where
  | alloc (length initArg : ℕ) (flags : VmFlags) (limits : VmAllocLimits)
  | fault (addr : ℕ) (flags : VmFaultFlags)
  | split (base offset : ℕ)
  | free (base : ℕ)
  | cores (ready : Bool)

/-- The flags of an anonymous allocation. -/
def anonFlags (flags : VmFlags) : VmFlags := flags ||| 1#64 <<< VmFlag.anon.index

lemma has_anonFlags (flags : VmFlags) : (anonFlags flags).has .anon = true := by
  simp [anonFlags, VmFlags.has, VmFlag.index]

def setCores (v : Vmm P (AnonState τ)) (ready : Bool) : Vmm P (AnonState τ) :=
  { v with env := { v.env with map := { v.env.map with coresReady := ready } } }

variable (m d)

def anonStep (v : Vmm P (AnonState τ)) : AnonOp → Option (Vmm P (AnonState τ))
  | .alloc length initArg flags limits =>
      (v.alloc m d.drivers length initArg (anonFlags flags) limits).map Prod.fst
  | .fault addr flags => (v.handleFault d.faultHandlers addr flags).map Prod.fst
  | .split base offset => (v.split m d.drivers base offset).map Prod.fst
  | .free base => (v.free m d.drivers base).map Prod.fst
  | .cores ready => some (v.setCores ready)

/-- **The counter is exact.** -/
def Resident (v : Vmm P (AnonState τ)) : Prop :=
  v.env.stats.anonResidentSize = d.privatePages v.env.map.map v.rangeList * PageSize

/-- **What each callback expects.**  `Attach` with the zero page or on demand: no page of the range
has a private frame already; `Attach` that backs the range: no page is mapped to the zero page.
A fault with the zero page: all pages of the window are mapped to the zero page.  `Detach`: one
page of the range has a private frame if the first page is mapped, to whatever frame, and none if
it is not. -/
def CountsRight (v : Vmm P (AnonState τ)) : AnonOp → Prop
  | .alloc length initArg flags limits =>
    match v.alloc m d.drivers length initArg (anonFlags flags) limits with
    | some (_, some b) =>
      let range := anonRange b length (anonFlags flags)
      if d.doZeroPage v.env.map initArg || d.doDemand v.env.map initArg then
        d.privateCount v.env.map.map range = 0
      else ∀ page ∈ range.pages, ¬ d.ZeroMapped v.env.map.map page
    | _ => True
  | .fault addr flags =>
    match v.rangeAt addr with
    | some range => accessOk flags range.flags = true → d.useZeroPage = true →
        ∀ k < mapCount range addr, d.ZeroMapped v.env.map.map (addr / PageSize + k)
    | none => True
  | .split _ _ => True
  | .free base =>
    match v.rangeAt base with
    | some range => d.privateCount v.env.map.map range =
        if (v.env.map.map range.firstPage).isSome then 1 else 0
    | none => True
  | .cores _ => True

variable {m d} {op : AnonOp} {range : VmRange}

/-- The frames of the ranges are less than the address space. -/
lemma Anon.privatePages_lt (h : v.Anon) (map : PageMap) :
    d.privatePages map v.rangeList * PageSize < wordSize := by
  have hsum : d.privatePages map v.rangeList * PageSize ≤ (v.rangeSpans.map Span.length).sum := by
    rw [rangeSpans_eq, List.map_map, privatePages, ← sum_map_mul_right]
    refine sum_le_sum fun range hr => ?_
    have hle := privateCount_le (d := d) map range
    have hl := (h.ranges range hr).1.length_eq
    calc d.privateCount map range * PageSize ≤ range.pageCount * PageSize :=
          Nat.mul_le_mul_right _ hle
      _ = range.length := hl.symm
  have hcover : ∀ a, cover v.rangeSpans a ≤ 1 := by
    intro a
    have hone := cover_le_one (tilesOver_nil.mp h.wf.tiles) a
    simp only [nil_append, cover_append] at hone
    omega
  have hle := sum_length_le hcover fun s hs => h.wf.inside s (mem_append_right _ hs)
  have hlt := h.wf.upper_lt
  omega

/-- The result of a call is known. -/
lemma forall_step {v1 : Vmm P (AnonState τ)} (hstep : v.anonStep m d op = some v1) :
    (∀ v', v.anonStep m d op = some v' → Resident d v') ↔ Resident d v1 := by
  rw [hstep]
  exact ⟨fun h => h v1 rfl, fun h v' heq => some.inj heq ▸ h⟩

/-- **`Alloc`** keeps the counter exact if the range is as `Attach` expects it. -/
lemma resident_alloc_iff (h : v.Anon) (hz : d.zeroPage % PageSize = 0)
    (hzero : d.frames.InUse v.env.map.pmm d.zeroPage) (hres : Resident d v) (length initArg : ℕ)
    (flags : VmFlags) (limits : VmAllocLimits) :
    (∀ v', v.anonStep m d (.alloc length initArg flags limits) = some v' → Resident d v') ↔
      CountsRight m d v (.alloc length initArg flags limits) := by
  obtain ⟨v1, r, hrun, -⟩ :=
    alloc_spec (m := m) d.drivers length initArg (anonFlags flags) limits h.wf
  have hstep : v.anonStep m d (.alloc length initArg flags limits) = some v1 := by
    rw [anonStep, hrun]
    rfl
  rw [forall_step hstep, CountsRight, hrun]
  obtain ⟨h1, hcase⟩ := h.alloc hz (has_anonFlags flags) hrun
  rcases hcase with ⟨rfl, hranges, henv⟩ | ⟨b, rfl, hranges, henv⟩
  · refine iff_of_true ?_ trivial
    rw [Resident, hranges, henv]
    exact hres
  · generalize hrange : anonRange b length (anonFlags flags) = range at hranges henv
    have hpaged : range.Paged := (h1.ranges range (hranges ▸ mem_cons_self)).1
    -- the other ranges are as they were
    have hother : d.privatePages v1.env.map.map v.rangeList =
        d.privatePages v.env.map.map v.rangeList := by
      refine privatePages_congr fun other hother page hpage => ?_
      rw [henv]
      refine attached_of_notMem fun hnew => ?_
      exact h1.apart (Perm.of_eq hranges) hother hnew hpage
    have hlt := h1.privatePages_lt (d := d) v1.env.map.map
    rw [Resident] at hres ⊢
    rw [hranges, privatePages_cons, hother] at hlt ⊢
    have hstats : v1.env.stats.anonResidentSize =
        if d.doZeroPage v.env.map initArg || d.doDemand v.env.map initArg then
          v.env.stats.anonResidentSize
        else add64 v.env.stats.anonResidentSize range.length := by
      rw [henv]
      exact VmmStats.countRange_resident _ _ _
    have hmap : v1.env.map.map = (d.attached range initArg v.env.map).map := by rw [henv]
    rw [hstats, hmap, hres]
    rw [hmap] at hlt
    simp only [hrange]
    cases hlazy : (d.doZeroPage v.env.map initArg || d.doDemand v.env.map initArg) with
    | true =>
      rw [privateCount_attached_lazy hlazy, if_pos rfl, if_pos rfl, PageSize]
      omega
    | false =>
      have hcount := privateCount_attached_pages range hlazy hzero
      have hnone : (∀ page ∈ range.pages, ¬ d.ZeroMapped v.env.map.map page) ↔
          (range.pages.filter (d.ZeroMapped v.env.map.map)).card = 0 := by
        rw [Finset.card_eq_zero, Finset.filter_eq_empty_iff]
      have hl := hpaged.length_eq
      have htop := hpaged.top
      rw [if_neg Bool.false_ne_true, if_neg Bool.false_ne_true, hnone, add64]
      rw [PageSize, wordSize] at *
      omega

/-- **A fault** keeps the counter exact if it finds the zero page in its whole window. -/
lemma resident_fault_iff (h : v.Anon) (hzero : d.frames.InUse v.env.map.pmm d.zeroPage)
    (hres : Resident d v) (addr : ℕ) (flags : VmFaultFlags) :
    (∀ v', v.anonStep m d (.fault addr flags) = some v' → Resident d v') ↔
      CountsRight m d v (.fault addr flags) := by
  rw [CountsRight]
  rcases h.handleFault_cases d addr flags with
    ⟨env, hrun, hmap, hstats, hrefused⟩ | ⟨range, hat, hacc, hrun⟩
  · have hstep : v.anonStep m d (.fault addr flags) = some { v with env := env } := by
      rw [anonStep, hrun]
      rfl
    rw [forall_step hstep]
    refine iff_of_true ?_ ?_
    · rw [Resident, hmap, hstats]
      exact hres
    · cases hat : v.rangeAt addr with
      | none => exact trivial
      | some range =>
        intro hacc
        rw [hrefused range hat] at hacc
        cases hacc
  · obtain ⟨hmem, hlo, hhi⟩ := h.rangeAt_mem hat
    have hpaged : range.Paged := (h.ranges range hmem).1
    by_cases hok : d.FaultOk range addr v.env.map
    swap
    · -- the assertion fires, which it does only without the zero page
      rw [if_neg hok] at hrun
      have hz : d.useZeroPage ≠ true := fun hz => hok (.inl hz)
      refine iff_of_true (fun v' hstep => ?_) ?_
      · rw [anonStep, hrun] at hstep
        cases hstep
      · rw [hat]
        exact fun _ hz' => absurd hz' hz
    rw [if_pos hok] at hrun
    obtain ⟨v1, hv1, h1, hranges, hmap, hstats⟩ : ∃ v1 : Vmm P (AnonState τ), { v with
        env := ⟨faultStats v.countFault.env.stats range addr, d.faulted range addr v.env.map⟩ } =
          v1 ∧ v1.Anon ∧ v1.rangeList = v.rangeList ∧
        v1.env.map.map = (d.faulted range addr v.env.map).map ∧ v1.env.stats.anonResidentSize =
          add64 v.env.stats.anonResidentSize (mapCount range addr * PageSize) :=
      ⟨_, rfl, h.setEnv _, rfl, rfl, rfl⟩
    rw [hv1] at hrun
    have hstep : v.anonStep m d (.fault addr flags) = some v1 := by
      rw [anonStep, hrun]
      rfl
    rw [forall_step hstep]
    have hperm := perm_cons_erase hmem
    have hother : d.privatePages v1.env.map.map (v.rangeList.erase range) =
        d.privatePages v.env.map.map (v.rangeList.erase range) := by
      refine privatePages_congr fun other hother page hpage => ?_
      rw [hmap]
      refine faulted_of_notMem fun k hk heq => ?_
      exact h.apart hperm hother (heq ▸ window_hasPage hpaged hlo hhi hk) hpage
    have hcount8 : mapCount range addr ≤ 8 := by
      rw [mapCount_eq hpaged hhi]
      exact min_le_left _ _
    have hlt := h1.privatePages_lt (d := d) v1.env.map.map
    rw [Resident] at hres ⊢
    rw [hranges, privatePages_perm hperm, privatePages_cons, hother] at hlt ⊢
    rw [privatePages_perm hperm, privatePages_cons] at hres
    rw [hstats, hat, hmap, add64]
    rw [hmap] at hlt
    simp only [hacc, true_implies]
    have hcount := privateCount_faulted hpaged hlo hhi hok hzero
    cases hz : d.useZeroPage with
    | true =>
      rw [hz, if_pos rfl] at hcount
      simp only [true_implies]
      rw [← zeroWindow_card_eq]
      rw [PageSize, wordSize] at *
      omega
    | false =>
      rw [hz, if_neg Bool.false_ne_true] at hcount
      refine iff_of_true ?_ (fun hfalse => absurd hfalse Bool.false_ne_true)
      rw [PageSize, wordSize] at *
      omega

/-- The pages of a range are those of its two parts. -/
lemma privateCount_cut {map : PageMap} {x : ℕ} (hr : range.Paged) (hx : x % PageSize = 0)
    (hle : x ≤ range.length) :
    d.privateCount map range = d.privateCount map { range with length := x } +
      d.privateCount map ⟨range.base + x, range.length - x, range.flags, 0, range.token, 0⟩ := by
  have hb := hr.base_eq
  have hl := hr.length_eq
  obtain ⟨hfirst, hcount, hxle⟩ :
      (range.base + x) / PageSize = range.firstPage + x / PageSize ∧
      (range.length - x) / PageSize = range.pageCount - x / PageSize ∧
      x / PageSize ≤ range.pageCount := by
    rw [PageSize] at *
    omega
  have hend : range.firstPage + x / PageSize + (range.pageCount - x / PageSize) =
      range.firstPage + range.pageCount := by omega
  have hpages : range.pages = ({ range with length := x } : VmRange).pages ∪
      (⟨range.base + x, range.length - x, range.flags, 0, range.token, 0⟩ : VmRange).pages := by
    simp only [VmRange.pages, VmRange.firstPage, VmRange.pageCount] at hfirst hcount hend ⊢
    rw [hfirst, hcount, hend, Finset.Ico_union_Ico_eq_Ico (Nat.le_add_right _ _)]
    exact Nat.add_le_add_left hxle _
  rw [privateCount, hpages, Finset.filter_union, Finset.card_union_of_disjoint]
  · rfl
  · refine Finset.disjoint_filter_filter (Finset.disjoint_left.mpr fun page h1 h2 => ?_)
    have h1 := (VmRange.mem_pages.mp h1).2
    have h2 := (VmRange.mem_pages.mp h2).1
    simp only [VmRange.firstPage, VmRange.pageCount] at h1 h2 hfirst
    omega

/-- **`Split`** keeps the counter exact. -/
lemma resident_split (h : v.Anon) (hres : Resident d v) {base offset : ℕ}
    (hstep : v.anonStep m d (.split base offset) = some v') : Resident d v' := by
  obtain ⟨⟨v1, r⟩, hrun, rfl⟩ := map_eq_some_iff.mp hstep
  obtain ⟨-, hmap, hstats, hcase⟩ := h.split hrun
  rw [Resident, hmap, hstats]
  refine hres.trans (congrArg (· * PageSize) ?_)
  rcases hcase with hranges | ⟨range, rest, x, hx, hle, hbefore, hafter⟩
  · rw [hranges]
  · have hpaged := (h.ranges range (hbefore.mem_iff.mpr mem_cons_self)).1
    rw [privatePages_perm hbefore, privatePages_perm hafter, privatePages_cons, privatePages_cons,
      privatePages_cons, ← add_assoc]
    rw [privateCount_cut hpaged hx hle]

/-- **`Free`** keeps the counter exact if there is one private frame, in the first page. -/
lemma resident_free_iff (h : v.Anon) (hres : Resident d v) (base : ℕ) :
    (∀ v', v.anonStep m d (.free base) = some v' → Resident d v') ↔
      CountsRight m d v (.free base) := by
  obtain ⟨v1, r, hrun, -⟩ := free_spec (m := m) d.drivers base h.wf
  have hstep : v.anonStep m d (.free base) = some v1 := by
    rw [anonStep, hrun]
    rfl
  rw [forall_step hstep, CountsRight]
  obtain ⟨h1, hcase⟩ := h.free hrun
  rcases hcase with ⟨rfl, hat⟩ | ⟨range, hat, hperm, henv⟩
  · rw [hat]
    exact iff_of_true hres trivial
  · obtain ⟨hmem, hlo, hhi⟩ := h.rangeAt_mem hat
    have hpaged : range.Paged := (h.ranges range hmem).1
    have hfirst : range.HasPage range.firstPage := by
      have hpage := hpaged.hasPage_iff.mpr ⟨hlo, hhi⟩
      exact ⟨le_rfl, by have h1 := hpage.1; have h2 := hpage.2; omega⟩
    have hlt := h.privatePages_lt (d := d) v.env.map.map
    rw [Resident] at hres ⊢
    rw [privatePages_perm hperm, privatePages_cons] at hres hlt
    simp only [hat]
    cases hm : v.env.map.map range.firstPage with
    | none =>
      have hsame : v1.env.map = v.env.map ∧
          v1.env.stats.anonResidentSize = v.env.stats.anonResidentSize := by
        rw [henv, detachPage, hatDoUnmap,
          show v.env.map.map (range.base / PageSize) = none from hm]
        exact ⟨rfl, VmmStats.countRange_resident v.env.stats range.flags (sub64 · 1)⟩
      rw [hsame.1, hsame.2, hres, isSome_none, if_neg Bool.false_ne_true]
      rw [PageSize]
      omega
    | some pte =>
      obtain ⟨hmap, hstats⟩ : v1.env.map.map = v.env.map.map.set range.firstPage none ∧
          v1.env.stats.anonResidentSize = sub64 v.env.stats.anonResidentSize (granularity 0) := by
        rw [henv, detachPage, hatDoUnmap,
          show v.env.map.map (range.base / PageSize) = some pte from hm]
        exact ⟨rfl, congrArg (sub64 · (granularity 0))
          (VmmStats.countRange_resident v.env.stats range.flags (sub64 · 1))⟩
      have hother : d.privatePages v1.env.map.map v1.rangeList =
          d.privatePages v.env.map.map v1.rangeList := by
        refine privatePages_congr fun other hother page hpage => ?_
        rw [hmap]
        refine if_neg fun heq => ?_
        exact h.apart hperm hother hfirst (heq ▸ hpage)
      have hg : granularity 0 = PageSize := rfl
      rw [hstats, hres, hg, sub64, isSome_some, if_pos rfl]
      rw [PageSize, wordSize] at *
      omega

/-- The invariant of the histories: the zero page is not handed out. -/
def AnonInv (d : AnonVmDriver τ) (v : Vmm P (AnonState τ)) : Prop :=
  v.Anon ∧ d.frames.InUse v.env.map.pmm d.zeroPage

lemma inUse_attached {s : AnonState τ} {attachArg : ℕ} (h : d.frames.InUse s.pmm d.zeroPage) :
    d.frames.InUse (d.attached range attachArg s).pmm d.zeroPage := by
  rw [attached]
  split_ifs
  · exact h
  · exact h
  · exact (d.frames.inUse_after s.pmm _ _).mpr (.inr h)

lemma inUse_detachPage {env : VmEnv (AnonState τ)} (h : d.frames.InUse env.map.pmm d.zeroPage) :
    d.frames.InUse (d.detachPage range env).map.pmm d.zeroPage := by
  rw [detachPage]
  split
  · dsimp only
    split_ifs with hne
    · exact (d.frames.inUse_free _ _ _).mpr ⟨hne.symm, h⟩
    · exact h
  · exact h

/-- One call keeps the invariant. -/
lemma anonInv_step (hz : d.zeroPage % PageSize = 0) (h : AnonInv d v)
    (hstep : v.anonStep m d op = some v') : AnonInv d v' := by
  obtain ⟨h, hzero⟩ := h
  cases op with
  | alloc length initArg flags limits =>
    obtain ⟨⟨v1, r⟩, hrun, rfl⟩ := map_eq_some_iff.mp hstep
    obtain ⟨h1, ⟨-, -, henv⟩ | ⟨b, -, -, henv⟩⟩ := h.alloc hz (has_anonFlags flags) hrun
    · exact ⟨h1, by rw [henv]; exact hzero⟩
    · exact ⟨h1, by rw [henv]; exact inUse_attached hzero⟩
  | fault addr flags =>
    rcases h.handleFault_cases d addr flags with ⟨env, hrun, hmap, -⟩ | ⟨range, -, -, hrun⟩
    · rw [anonStep, hrun] at hstep
      cases hstep
      exact ⟨h.setEnv _, by rw [hmap]; exact hzero⟩
    · rw [anonStep, hrun] at hstep
      split_ifs at hstep
      · cases hstep
        exact ⟨h.setEnv _, (d.frames.inUse_after v.env.map.pmm _ _).mpr (.inr hzero)⟩
      · cases hstep
  | split base offset =>
    obtain ⟨⟨v1, r⟩, hrun, rfl⟩ := map_eq_some_iff.mp hstep
    obtain ⟨h1, hmap, -⟩ := h.split hrun
    exact ⟨h1, by rw [hmap]; exact hzero⟩
  | free base =>
    obtain ⟨⟨v1, r⟩, hrun, rfl⟩ := map_eq_some_iff.mp hstep
    obtain ⟨h1, ⟨rfl, -⟩ | ⟨range, -, -, henv⟩⟩ := h.free hrun
    · exact ⟨h1, hzero⟩
    · refine ⟨h1, ?_⟩
      rw [henv]
      exact inUse_detachPage hzero
  | cores ready =>
    cases hstep
    exact ⟨h.setEnv _, hzero⟩

/-- **The resident size is exact in every state of a history precisely if every call finds what its
callback expects.** -/
theorem resident_always_iff (platform : Platform) (hg : platform.granularity = PageSize)
    (hz : d.zeroPage % PageSize = 0) {env : VmEnv (AnonState τ)}
    (hzero : d.frames.InUse env.map.pmm d.zeroPage) (hstats : env.stats.anonResidentSize = 0)
    {rangeMem : P → VmRange} {holeMem : P → VmHole}
    (hv : user m platform env rangeMem holeMem = some v) (ops : List AnonOp) :
    Always (anonStep m d) (Resident d) v ops ↔ Allowed (anonStep m d) (CountsRight m d) v ops := by
  obtain ⟨hanon, hnil, henv⟩ := anon_user hg hv
  refine always_iff_allowed (AnonInv d) (Resident d) ?_ (fun _ _ _ h _ => anonInv_step hz h) ?_
    ?_ ops
  · rintro v op ⟨h, hzero⟩ hres
    cases op with
    | alloc length initArg flags limits =>
      exact resident_alloc_iff h hz hzero hres length initArg flags limits
    | fault addr flags => exact resident_fault_iff h hzero hres addr flags
    | split base offset => exact iff_of_true (fun _ => resident_split h hres) trivial
    | free base => exact resident_free_iff h hres base
    | cores ready =>
      refine iff_of_true (fun v' hstep => ?_) trivial
      cases hstep
      exact hres
  · exact ⟨hanon, by rw [henv]; exact hzero⟩
  · rw [Resident, hnil, henv, hstats, privatePages, map_nil, sum_nil, zero_mul]

instance (v : Vmm P (AnonState τ)) (op : AnonOp) : Decidable (CountsRight m d v op) := by
  cases op <;> rw [CountsRight] <;> first | infer_instance | (split <;> infer_instance)

/-! ### One page -/

/-- A user's address space for the driver with all features. -/
def freshUser : Option (Vmm ℕ (AnonState (List ℕ))) :=
  user .counting .x86 (freshEnv 3) (fun _ => ⟨0, 0, 0, 0, 0, 0⟩) fun _ => ⟨0, 0, 0⟩

lemma freshUser_isSome : freshUser.isSome = true := by decide +kernel

/-- A page is allocated, written and freed: the counter is right all the time. -/
theorem resident_always_iff_written :
    Always (anonStep .counting (fresh 3).1) (Resident (fresh 3).1) (freshUser.get freshUser_isSome)
      [.alloc 0x1000 0 1#64 {}, .fault 0x1000 { write := true }, .free 0x1000] := by
  have hzero : (fresh 3).1.frames.InUse (freshEnv 3).map.pmm (fresh 3).1.zeroPage :=
    mem_cons_self
  have hz : (fresh 3).1.zeroPage % PageSize = 0 := by decide +kernel
  have hv : user .counting .x86 (freshEnv 3) (fun _ => ⟨0, 0, 0, 0, 0, 0⟩) (fun _ => ⟨0, 0, 0⟩) =
      some (freshUser.get freshUser_isSome) := (some_get freshUser_isSome).symm
  exact (resident_always_iff .x86 rfl hz hzero rfl hv _).mpr (by decide +kernel)

/-- **A page that is never written is freed**: the counter is reduced by the zero page, and
underflows. -/
theorem resident_underflows :
    (run (anonStep .counting (fresh 3).1) (freshUser.get freshUser_isSome)
      [.alloc 0x1000 0 1#64 {}, .free 0x1000]).map (fun v =>
        (v.env.stats.anonResidentSize, v.rangeList)) = some (2 ^ 64 - 0x1000, []) := by
  decide +kernel

end Vmm

end Northport.Memory
