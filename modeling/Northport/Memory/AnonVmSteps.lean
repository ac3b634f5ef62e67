/-
# What the callbacks of the anonymous driver do to the page tables

Each loop of the driver walks over consecutive pages.  The lemmas give the page tables, the
memory and the PMM after the loop in one step: the `k`-th page that the loop backs gets the
`k`-th page of the PMM.
-/
import Northport.Memory.AnonVmDriver
import Northport.Memory.PageRange

namespace Northport.Memory

open Lib PageMap List Option Nat

/-- The range is made of whole pages, and mapped in mode 0. -/
structure VmRange.Paged (range : VmRange) : Prop extends range.Whole where
  token : range.token = 0

instance (range : VmRange) : Decidable range.Paged :=
  decidable_of_iff (range.Whole ∧ range.token = 0) ⟨fun ⟨h1, h2⟩ => ⟨h1, h2⟩, fun ⟨h1, h2⟩ => ⟨h1, h2⟩⟩

variable {τ : Type}

/-! ### The pages of the PMM -/

namespace Frames

variable (F : Frames τ)

/-- The memory after `n` pages were handed out. -/
def fill (mem : ByteMem) (t : τ) : ℕ → ByteMem
  | 0 => mem
  | n + 1 => fillPage (fill mem t n) (F.nth t n) (F.content (F.after t n))

/-- The state after `n` pages were handed out. -/
def take (s : AnonState τ) (n : ℕ) : AnonState τ :=
  { s with pmm := F.after s.pmm n, mem := F.fill s.mem s.pmm n }

@[simp] lemma take_zero (s : AnonState τ) : F.take s 0 = s := rfl

@[simp] lemma take_map (s : AnonState τ) (n : ℕ) : (F.take s n).map = s.map := rfl

lemma pmmAlloc_take (s : AnonState τ) (map : PageMap) (n : ℕ) :
    F.pmmAlloc { F.take s n with map := map } =
      (F.nth s.pmm n, { F.take s (n + 1) with map := map }) := rfl

lemma nth_aligned (t : τ) (n : ℕ) : F.nth t n % PageSize = 0 := F.aligned _

lemma alignDown_nth (t : τ) (n : ℕ) : alignDown (F.nth t n) PageSize = F.nth t n :=
  Nat.div_mul_cancel (Nat.dvd_of_mod_eq_zero (F.nth_aligned t n))

variable {F} {mem : ByteMem} {t : τ}

/-- Memory outside of the pages that are handed out stays as it is. -/
lemma fill_of_notMem {n a : ℕ} (h : ∀ k < n, alignDown a PageSize ≠ F.nth t k) :
    F.fill mem t n a = mem a := by
  induction n with
  | zero => rfl
  | succ n ih =>
    have hn := h n (lt_succ_self n)
    have hal := F.nth_aligned t n
    rw [fill, fillPage, if_neg, ih fun k hk => h k (hk.trans (lt_succ_self n))]
    rintro ⟨h1, h2⟩
    rw [alignDown] at hn
    rw [PageSize] at *
    omega

/-- The `k`-th page holds what the PMM left in it. -/
lemma fill_nth {n k off : ℕ} (hk : k < n) (hoff : off < PageSize) :
    F.fill mem t n (F.nth t k + off) = F.content (F.after t k) off := by
  induction n with
  | zero => cases hk
  | succ n ih =>
    rcases Nat.lt_succ_iff_lt_or_eq.mp hk with hlt | rfl
    · rw [fill, fillPage, if_neg, ih hlt]
      -- the page handed out later is another one
      have hne : F.nth t k ≠ F.nth t n := fun h => hlt.ne (F.nth_injective t h)
      have hk' := F.nth_aligned t k
      have hn' := F.nth_aligned t n
      rintro ⟨h1, h2⟩
      rw [PageSize] at *
      omega
    · rw [fill, fillPage, if_pos ⟨Nat.le_add_right _ _, by omega⟩, Nat.add_sub_cancel_left]

end Frames

namespace AnonVmDriver

variable {d : AnonVmDriver τ} {range : VmRange} {s : AnonState τ}

/-! ### Attach -/

/-- **`Attach` with the zero page** maps it in every page that is not mapped yet. -/
lemma mapAnon_zeroPage (hr : range.Paged) (hz : d.zeroPage % PageSize = 0) (flags : HatFlags) :
    d.machine.mapAnon range 0 true flags s = { s with
      map := backed range.firstPage flags (fun _ => d.zeroPage) s.map range.pageCount } := by
  refine hr.foldl_granules (fun n => ({ s with
    map := backed range.firstPage flags (fun _ => d.zeroPage) s.map n } : AnonState τ))
    (by rw [backed_zero]) fun n hn => ?_
  have hmap := hatDoMap_backed flags (fun _ => d.zeroPage) s.map (hr.granule_page hn)
    (Nat.div_mul_cancel (Nat.dvd_of_mod_eq_zero hz))
  exact congrArg (fun r : Bool × PageMap => ({ s with map := r.2 } : AnonState τ)) hmap

/-- **`Attach` without it** takes a page of the PMM for every page, and maps it where nothing is
mapped. -/
lemma mapAnon_pages (hr : range.Paged) (flags : HatFlags) :
    d.machine.mapAnon range 0 false flags s =
      { d.frames.take s range.pageCount with
        map := backed range.firstPage flags (d.frames.nth s.pmm) s.map range.pageCount } := by
  refine hr.foldl_granules (fun n => ({ d.frames.take s n with
    map := backed range.firstPage flags (d.frames.nth s.pmm) s.map n } : AnonState τ))
    (by rw [backed_zero]; rfl) fun n hn => ?_
  have hmap := hatDoMap_backed flags (d.frames.nth s.pmm) s.map (hr.granule_page hn)
    (d.frames.alignDown_nth s.pmm n)
  exact congrArg (fun r : Bool × PageMap =>
    ({ d.frames.take s (n + 1) with map := r.2 } : AnonState τ)) hmap

/-- Whether the range is mapped to the zero page. -/
def doZeroPage (d : AnonVmDriver τ) (s : AnonState τ) (attachArg : ℕ) : Bool :=
  s.coresReady && d.faultHandler && d.useZeroPage && !attachArg.testBit 1

/-- Whether the range waits for its first faults. -/
def doDemand (d : AnonVmDriver τ) (s : AnonState τ) (attachArg : ℕ) : Bool :=
  s.coresReady && d.faultHandler && !attachArg.testBit 0

/-- The flags of a range, without the permission to write. -/
def readonly (flags : VmFlags) : HatFlags :=
  convertFlags (flags &&& ~~~(1#64 <<< VmFlag.write.index))

lemma readonly_write (flags : VmFlags) : (readonly flags).write = false := by
  simp [readonly, convertFlags, VmFlags.has, VmFlag.index]

/-- The state after `Attach`. -/
def attached (d : AnonVmDriver τ) (range : VmRange) (attachArg : ℕ) (s : AnonState τ) :
    AnonState τ :=
  if d.doZeroPage s attachArg then { s with
    map := backed range.firstPage (readonly range.flags) (fun _ => d.zeroPage) s.map
      range.pageCount }
  else if d.doDemand s attachArg then s
  else { d.frames.take s range.pageCount with
    map := backed range.firstPage (convertFlags range.flags) (d.frames.nth s.pmm) s.map
      range.pageCount }

/-- The statistics after `Attach`. -/
def attachStats (d : AnonVmDriver τ) (range : VmRange) (attachArg : ℕ) (env : VmEnv (AnonState τ)) :
    VmmStats :=
  { env.stats with
    anonWorkingSize := add64 env.stats.anonWorkingSize (sub64 range.length 0)
    anonResidentSize :=
      if d.doZeroPage env.map attachArg || d.doDemand env.map attachArg then
        env.stats.anonResidentSize
      else add64 env.stats.anonResidentSize range.length }

/-- **`Attach`.** -/
lemma anonAttach_eq (hr : range.Paged) (hz : d.zeroPage % PageSize = 0) (query : QueryResult)
    (hmode : query.hatMode = 0) (env : VmEnv (AnonState τ)) (attachArg : ℕ) :
    d.machine.anonAttach env range query attachArg =
      (⟨0, 0, true⟩, ⟨d.attachStats range attachArg env, d.attached range attachArg env.map⟩) := by
  have hzero : (d.machine.coresReady env.map && d.machine.anonFaultHandler &&
      d.machine.anonZeroPage && !attachArg.testBit 1) = d.doZeroPage env.map attachArg := rfl
  have hdemand : (d.machine.coresReady env.map && d.machine.anonFaultHandler &&
      !attachArg.testBit 0) = d.doDemand env.map attachArg := rfl
  rw [VmMachine.anonAttach, attached, attachStats]
  simp only [hzero, hdemand, hmode]
  cases d.doZeroPage env.map attachArg with
  | true =>
    simp only [Bool.not_true, Bool.and_false, Bool.false_eq_true, if_false, if_true,
      mapAnon_zeroPage hr hz, Bool.true_or]
    rfl
  | false =>
    cases d.doDemand env.map attachArg with
    | true => rfl
    | false =>
      simp only [Bool.not_false, Bool.and_true, Bool.false_eq_true, if_false,
        mapAnon_pages hr, Bool.or_self]

/-- `Attach` always succeeds. -/
lemma anonAttach_success (d : AnonVmDriver τ) (env : VmEnv (AnonState τ)) (range : VmRange)
    (query : QueryResult) (attachArg : ℕ) :
    (d.machine.anonAttach env range query attachArg).1.success = true := by
  simp only [VmMachine.anonAttach]
  split_ifs <;> rfl

/-! ### Faults -/

/-- The window of a fault: at most eight pages from the faulting one on, inside of the range. -/
lemma mapCount_eq (hr : range.Paged) {addr : ℕ}
    (hhi : addr < range.base + range.length) : mapCount range addr =
      min 8 (range.firstPage + range.pageCount - addr / PageSize) := by
  have hb := hr.base_eq
  have hl := hr.length_eq
  have htop := hr.top
  have hg : granularity 0 = 0x1000 := rfl
  have hmul : mul64 faultMaxMapAhead 0x1000 = 0x8000 := rfl
  rw [mapCount, hr.token, hr.top_eq, hg, sub64_eq htop (by omega)]
  have hsize : wordSize = 2 ^ 64 := rfl
  rw [alignUp_eq (by decide) (by omega)]
  rw [PageSize] at *
  omega

/-- The `i`-th page of the window. -/
lemma window_page (hr : range.Paged) (addr i : ℕ)
    (hi : addr / PageSize + i < range.firstPage + range.pageCount) :
    add64 (alignDown addr (granularity 0)) (mul64 i (granularity 0)) / PageSize =
      addr / PageSize + i := by
  have hb := hr.base_eq
  have hl := hr.length_eq
  have htop := hr.top
  have hg : granularity 0 = 0x1000 := rfl
  rw [hg, alignDown, mul64]
  rw [PageSize] at *
  rw [mod_eq_of_lt (by omega), add64_eq (by omega)]
  omega

variable {addr : ℕ} {n : ℕ}

/-- **A fault with the zero page** replaces every entry of the window. -/
lemma faultPages_zeroPage (hz : d.useZeroPage = true) (hr : range.Paged) (flags : HatFlags)
    (hn : addr / PageSize + n ≤ range.firstPage + range.pageCount) :
    (List.range n).foldlM (fun s i => d.faultPage 0 flags s
        (add64 (alignDown addr (granularity 0)) (mul64 i (granularity 0)))) s =
      some { d.frames.take s n with
        map := synced (addr / PageSize) (fun k _ => ⟨d.frames.nth s.pmm k, flags⟩) s.map n } := by
  induction n with
  | zero => rw [synced_zero]; rfl
  | succ n ih =>
    rw [range_succ, foldlM_append, ih (by omega)]
    have hmap := hatSyncMap_synced (f := fun k _ => ⟨d.frames.nth s.pmm k, flags⟩)
      (some (d.frames.nth s.pmm n)) (some flags) s.map
      (window_page hr addr n (by omega)) (fun pte => by
        rw [map_some, d.frames.alignDown_nth]
        rfl)
    simp only [bind_eq_bind, bind_some, foldlM_cons, foldlM_nil, faultPage,
      d.frames.pmmAlloc_take, hz]
    exact congrArg (fun map => some ({ d.frames.take s (n + 1) with map := map } : AnonState τ)) hmap

section

variable (hz : d.useZeroPage = false) (hr : range.Paged) (flags : HatFlags)
  (hn : addr / PageSize + n ≤ range.firstPage + range.pageCount)

include hz hr flags hn

/-- **A fault without the zero page** maps every page of the window if none of them is mapped. -/
lemma faultPages_pages (hnone : ∀ k < n, s.map (addr / PageSize + k) = none) :
    (List.range n).foldlM (fun s i => d.faultPage 0 flags s
        (add64 (alignDown addr (granularity 0)) (mul64 i (granularity 0)))) s =
      some { d.frames.take s n with
        map := backed (addr / PageSize) flags (d.frames.nth s.pmm) s.map n } := by
  induction n with
  | zero => rw [backed_zero]; rfl
  | succ n ih =>
    rw [range_succ, foldlM_append, ih (by omega) fun k hk => hnone k (by omega)]
    have hmap := hatDoMap_backed flags (d.frames.nth s.pmm) s.map
      (window_page hr addr n (by omega)) (d.frames.alignDown_nth s.pmm n)
    rw [hnone n (lt_succ_self n)] at hmap
    simp only [bind_eq_bind, bind_some, foldlM_cons, foldlM_nil, faultPage,
      d.frames.pmmAlloc_take, hz, hmap]
    rfl

/-- The assertion fires when a page of the window is mapped. -/
lemma faultPages_none (hmapped : ∃ k < n, s.map (addr / PageSize + k) ≠ none) :
    (List.range n).foldlM (fun s i => d.faultPage 0 flags s
        (add64 (alignDown addr (granularity 0)) (mul64 i (granularity 0)))) s = none := by
  induction n with
  | zero =>
    obtain ⟨k, hk, -⟩ := hmapped
    exact absurd hk (Nat.not_lt_zero k)
  | succ n ih =>
    rw [range_succ, foldlM_append]
    by_cases hbefore : ∃ k < n, s.map (addr / PageSize + k) ≠ none
    · rw [ih (by omega) hbefore]
      rfl
    · -- the last page is the one that is mapped
      push Not at hbefore
      obtain ⟨k, hk, hmapped⟩ := hmapped
      obtain rfl : k = n := by
        rcases Nat.lt_succ_iff_lt_or_eq.mp hk with hk | hk
        · exact absurd (hbefore k hk) hmapped
        · exact hk
      have hmap := hatDoMap_backed flags (d.frames.nth s.pmm) s.map
        (window_page hr addr k (by omega)) (d.frames.alignDown_nth s.pmm k)
      rw [isNone_eq_false_iff.mpr (isSome_iff_ne_none.mpr hmapped)] at hmap
      rw [faultPages_pages hz hr flags (by omega) hbefore]
      simp only [bind_eq_bind, bind_some, foldlM_cons, foldlM_nil,
        faultPage, d.frames.pmmAlloc_take, hz, hmap]
      rfl

end

/-- The state after a fault. -/
def faulted (d : AnonVmDriver τ) (range : VmRange) (addr : ℕ) (s : AnonState τ) : AnonState τ :=
  let n := mapCount range addr
  let flags := convertFlags range.flags
  let frame := d.frames.nth s.pmm
  { d.frames.take s n with
    map := if d.useZeroPage then synced (addr / PageSize) (fun k _ => ⟨frame k, flags⟩) s.map n
      else backed (addr / PageSize) flags frame s.map n }

/-- The fault does not trip the assertion: there is the zero page, or no page of the window is
mapped. -/
def FaultOk (d : AnonVmDriver τ) (range : VmRange) (addr : ℕ) (s : AnonState τ) : Prop :=
  d.useZeroPage = true ∨ ∀ k < mapCount range addr, s.map (addr / PageSize + k) = none

instance (d : AnonVmDriver τ) (range : VmRange) (addr : ℕ) (s : AnonState τ) :
    Decidable (d.FaultOk range addr s) := inferInstanceAs (Decidable (_ ∨ _))

/-- The statistics after a fault. -/
def faultStats (stats : VmmStats) (range : VmRange) (addr : ℕ) : VmmStats :=
  { stats with
    anonResidentSize := add64 stats.anonResidentSize (mapCount range addr * PageSize) }

/-- The window ends with the range. -/
lemma window_le (hr : range.Paged) (hhi : addr < range.base + range.length) :
    addr / PageSize + mapCount range addr ≤ range.firstPage + range.pageCount := by
  have hb := hr.base_eq
  have hl := hr.length_eq
  rw [mapCount_eq hr hhi]
  rw [PageSize] at *
  omega

variable (env : VmEnv (AnonState τ))

/-- **`HandleFault`.** -/
lemma handleFault_eq (hr : range.Paged) (hhi : addr < range.base + range.length) :
    d.handleFault env range addr = if d.FaultOk range addr env.map then
        some (true, ⟨faultStats env.stats range addr, d.faulted range addr env.map⟩) else none := by
  have hle := window_le hr hhi
  have hg : granularity 0 = PageSize := rfl
  have hmul : mul64 (mapCount range addr) (granularity 0) = mapCount range addr * PageSize := by
    have hsize : wordSize = 2 ^ 64 := rfl
    have h8 : mapCount range addr ≤ 8 := by
      rw [mapCount_eq hr hhi]
      exact min_le_left _ _
    rw [mul64, hg, mod_eq_of_lt]
    rw [PageSize]
    omega
  rw [handleFault, hr.token, hmul]
  cases hz : d.useZeroPage with
  | true =>
    have hok : d.FaultOk range addr env.map := Or.inl hz
    rw [faultPages_zeroPage hz hr _ hle, if_pos hok, faulted, hz]
    rfl
  | false =>
    by_cases hnone : ∀ k < mapCount range addr, env.map.map (addr / PageSize + k) = none
    · have hok : d.FaultOk range addr env.map := Or.inr hnone
      rw [faultPages_pages hz hr _ hle hnone, if_pos hok, faulted, hz]
      rfl
    · have hok : ¬ d.FaultOk range addr env.map := by
        rintro (h | h)
        · rw [hz] at h
          exact Bool.false_ne_true h
        · exact hnone h
      push Not at hnone
      rw [faultPages_none hz hr _ hle hnone, if_neg hok]
      rfl

/-! ### The other callbacks -/

/-- The flags that `ModifyRange` gives to the mappings. -/
def modifiedFlags (range : VmRange) (args : ModifyRangeArgs) : HatFlags :=
  ((convertFlags range.flags).without (convertFlags args.clearFlags)).union
    (convertFlags args.setFlags)

/-- **`ModifyRange`** replaces the flags of all mappings of the range. -/
lemma modifyRange_eq (hr : range.Paged) (args : ModifyRangeArgs) :
    modifyRange env range args =
      if args.setFlags.has .guarded || args.clearFlags.has .guarded then (false, env)
      else (true, ⟨env.stats, { env.map with
        map := synced range.firstPage (fun _ pte => ⟨pte.frame, modifiedFlags range args⟩)
          env.map.map range.pageCount }⟩) := by
  have hloop := hr.foldl_granules
    (f := fun map i => (hatSyncMap map (add64 range.base i) none
      (some (modifiedFlags range args))).2)
    (synced range.firstPage (fun _ pte => ⟨pte.frame, modifiedFlags range args⟩) env.map.map)
    (synced_zero _ _ _) fun n hn => hatSyncMap_synced none _ env.map.map (hr.granule_page hn)
      fun _ => rfl
  rw [modifyRange, ← modifiedFlags, hr.token]
  simp only [hloop]

/-- The second turn of the loop of `Detach` finds nothing to unmap. -/
lemma detachPage_detachPage (range : VmRange) :
    d.detachPage range (d.detachPage range env) = d.detachPage range env := by
  have hnone : ∀ env : VmEnv (AnonState τ), env.map.map (range.base / PageSize) = none →
      d.detachPage range env = env := by
    intro env h
    rw [detachPage, hatDoUnmap, h]
  cases hm : env.map.map (range.base / PageSize) with
  | none => rw [hnone env hm, hnone env hm]
  | some pte =>
    refine hnone _ ?_
    rw [detachPage, hatDoUnmap, hm]
    exact if_pos rfl

/-- **`Detach`** unmaps the first page of the range, and no other. -/
lemma detach_eq (hr : range.Whole) (hpos : 0 < range.pageCount) :
    d.detach env range = (true, d.detachPage range
      ⟨{ env.stats with
        anonWorkingSize := sub64 env.stats.anonWorkingSize (sub64 range.length range.offset) },
        env.map⟩) := by
  have hloop : ∀ (l : List ℕ) (env : VmEnv (AnonState τ)), l ≠ [] →
      l.foldl (fun env _ => d.detachPage range env) env = d.detachPage range env := by
    intro l env hl
    induction l generalizing env with
    | nil => exact absurd rfl hl
    | cons i l ih =>
      rw [foldl_cons]
      rcases eq_or_ne l [] with rfl | hl
      · rfl
      · rw [ih _ hl, detachPage_detachPage]
  rw [detach, hr.granules_eq, hloop]
  simp only [ne_eq, map_eq_nil_iff, range_eq_nil]
  omega

end AnonVmDriver

end Northport.Memory
