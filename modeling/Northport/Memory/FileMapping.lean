/-
# File mappings

`Attach` and `HandleFault` compute the frame of a page in two ways.  `Attach` takes the position
in the unit from the range instead of from the file, which is the same only if the offset lies in
the first page of its unit.  `HandleFault` looks for the next unit only at offsets that begin one,
which it never meets if the offset is not the start of a page.
-/
import Northport.Lib.Run
import Northport.Memory.VfsVmDriver

namespace Northport.Memory

open Lib PageMap List Nat

namespace VfsVmDriver

variable (d : VfsVmDriver) (id : VfsId) (offset : ℕ) (range : VmRange)

/-- The offset in the file of the `k`-th page of the range. -/
def pageOffset (k : ℕ) : ℕ := add64 (alignDown offset PageSize) (k * PageSize)

/-- The address space after a fault, if its address lies in the range. -/
def faultStep (env : VmEnv FileState) (addr : ℕ) : Option (VmEnv FileState) :=
  if range.base ≤ addr ∧ addr < range.top then (d.handleFault env range addr).map Prod.snd
  else some env

/-- **The fault shows the file**: no assertion fires, the range shows the file, and the page is
mapped if the file cache has it. -/
def FaultShows (env : VmEnv FileState) (addr : ℕ) : Prop :=
  ∃ env', d.faultStep range env addr = some env' ∧ d.ShowsFile id offset range env'.map.map ∧
    (range.base ≤ addr ∧ addr < range.top →
      (d.byteAt id (pageOffset offset (addr / PageSize - range.firstPage))).isSome →
        (env'.map.map (addr / PageSize)).isSome)

/-- **What `HandleFault` relies on**: the offset is the start of a page, or the window of the fault
stays inside of one unit, or there is no next page to map. -/
def FaultFits (env : VmEnv FileState) (addr : ℕ) : Prop :=
  range.base ≤ addr ∧ addr < range.top →
    let k := addr / PageSize - range.firstPage
    offset % PageSize = 0 ∨
      pageOffset offset k % fileCacheInfo.unitSize + PageSize ≠ fileCacheInfo.unitSize ∨
      d.byteAt id (pageOffset offset k) = none ∨ ¬ range.HasPage (addr / PageSize + 1) ∨
      (env.map.map (addr / PageSize + 1)).isSome

instance (env : VmEnv FileState) (addr : ℕ) : Decidable (d.FaultFits id offset range env addr) :=
  inferInstanceAs (Decidable (_ → _))

variable {d id offset range} {x physBase k attachArg addr : ℕ} {map : PageMap}
  {env env' : VmEnv FileState} {query : QueryResult} {result : AttachResult}

/-! ### Offsets -/

lemma unitSize_eq : fileCacheInfo.unitSize = 0x4000 := by rw [fileCacheInfo_eq]

lemma getFileCacheUnit_congr {y : ℕ} (h : x / 0x4000 = y / 0x4000) :
    d.getFileCacheUnit id x = d.getFileCacheUnit id y := by
  rw [getFileCacheUnit, getFileCacheUnit, unitSize_eq, alignDown, alignDown, h]

/-- Where the file cache has its units. -/
lemma exists_unit (h : d.getFileCacheUnit id x = some physBase) : ∃ length,
    d.cacheLength id = some length ∧ alignDown x fileCacheInfo.unitSize < length ∧
      d.physBase id (alignDown x fileCacheInfo.unitSize) = physBase := by
  rw [getFileCacheUnit] at h
  cases hlength : d.cacheLength id with
  | none =>
    rw [hlength] at h
    cases h
  | some length =>
    simp only [hlength] at h
    split_ifs at h with hlt
    exact ⟨length, rfl, hlt, Option.some.inj h⟩

/-- The bytes of a page lie in one unit, one after the other. -/
lemma byteAt_add {off : ℕ} (hx : x % PageSize = 0) (hoff : off < PageSize) :
    d.byteAt id (x + off) = (d.byteAt id x).map (· + off) := by
  rw [PageSize] at *
  have hunit : d.getFileCacheUnit id (x + off) = d.getFileCacheUnit id x :=
    getFileCacheUnit_congr (by omega)
  rw [byteAt, byteAt, hunit, unitSize_eq, Option.map_map]
  refine congrArg (Option.map · _) (funext fun y => ?_)
  simp only [Function.comp_apply]
  omega

lemma pageOffset_mod (offset k : ℕ) : pageOffset offset k % PageSize = 0 := by
  rw [pageOffset, add64, alignDown, PageSize, wordSize]
  omega

/-- The unit that `Attach` takes is the one of the page. -/
lemma unit_pageOffset (d : VfsVmDriver) (id : VfsId) (offset k : ℕ) :
    d.getFileCacheUnit id (pageOffset offset k) =
      d.getFileCacheUnit id (add64 offset (k * PageSize)) := by
  refine getFileCacheUnit_congr ?_
  rw [pageOffset, add64, add64, alignDown, PageSize, wordSize]
  omega

lemma exists_page (hr : range.Whole) (h : range.base ≤ addr ∧ addr < range.base + range.length) :
    ∃ k < range.pageCount, addr / PageSize = range.firstPage + k := by
  obtain ⟨hle, hlt⟩ := hr.hasPage_iff.mpr h
  exact ⟨addr / PageSize - range.firstPage, by omega, by omega⟩

/-- **The range shows the file page by page.** -/
lemma showsFile_iff (hr : range.Whole) :
    d.ShowsFile id offset range map ↔ ∀ k < range.pageCount, ∀ pte,
      map (range.firstPage + k) = some pte → d.byteAt id (pageOffset offset k) = some pte.frame := by
  have hb := hr.base_eq
  have hl := hr.length_eq
  constructor
  · intro h k hk pte hpte
    have haddr : (range.base + k * PageSize) / PageSize = range.firstPage + k := by
      rw [hb, ← add_mul, Nat.mul_div_cancel _ (by decide)]
    have hoff : (range.base + k * PageSize) % PageSize = 0 := by
      rw [hb, ← add_mul, Nat.mul_mod_left]
    have hend : range.base + k * PageSize < range.base + range.length := by
      rw [hl]
      exact Nat.add_lt_add_left (Nat.mul_lt_mul_of_pos_right hk (by decide)) _
    have hshow := h (range.base + k * PageSize) (Nat.le_add_right _ _) hend
    rw [hatGetMap, haddr, hpte, Nat.add_sub_cancel_left, hoff] at hshow
    rcases hshow with hnone | hsome
    · cases hnone
    · exact hsome.symm
  · intro h a hlo hhi
    obtain ⟨k, hkc, hk⟩ := exists_page hr ⟨hlo, hhi⟩
    rw [hatGetMap, hk]
    cases hpte : map (range.firstPage + k) with
    | none => exact .inl rfl
    | some pte =>
      right
      have hx := pageOffset_mod offset k
      have hoff : a % PageSize < PageSize := Nat.mod_lt _ (by decide)
      have hsplit : add64 (alignDown offset PageSize) (a - range.base) =
          pageOffset offset k + a % PageSize := by
        rw [pageOffset, add64, add64, alignDown, wordSize]
        rw [PageSize] at *
        omega
      rw [hsplit, byteAt_add hx hoff, h k hkc pte hpte]
      rfl

/-! ### Attach -/

/-- The frame that `Attach` gives to the `k`-th page. -/
def attachFrame (d : VfsVmDriver) (id : VfsId) (offset k : ℕ) : ℕ :=
  (d.getFileCacheUnit id (add64 offset (k * PageSize))).getD 0 + k * PageSize % fileCacheInfo.unitSize

/-- A unit is made of whole pages, and an address in it does not overflow. -/
lemma unit_frame {y : ℕ} (h : d.getFileCacheUnit id x = some physBase) :
    alignDown (add64 physBase (y % fileCacheInfo.unitSize)) PageSize =
      physBase + alignDown (y % fileCacheInfo.unitSize) PageSize := by
  obtain ⟨-, -, -, rfl⟩ := exists_unit h
  generalize alignDown x fileCacheInfo.unitSize = z
  have hmod := d.physBase_mod id z
  have hlt := d.physBase_lt id z
  rw [unitSize_eq] at hlt ⊢
  rw [add64_eq (by omega), alignDown, alignDown]
  rw [PageSize] at *
  omega

/-- **The loop of `Attach`** maps pages up to the first one whose unit is missing. -/
lemma mapFile_spec (hr : range.Whole) (map : PageMap) {m : ℕ} (hend : k + m ≤ range.pageCount)
    (hmap : env.map.map =
      backed range.firstPage (convertFlags range.flags) (d.attachFrame id offset) map k) :
    ∃ n ≤ k + m, (d.machine.mapFile range id offset 0 env
        ((range' k m).map (· * PageSize))).map = { env.map with
          map := backed range.firstPage (convertFlags range.flags) (d.attachFrame id offset) map n } ∧
      (∀ i, k ≤ i → i < n → (d.getFileCacheUnit id (add64 offset (i * PageSize))).isSome) ∧
      (n = k + m ∨ d.getFileCacheUnit id (add64 offset (n * PageSize)) = none) := by
  induction m generalizing k env with
  | zero => exact ⟨k, le_rfl, by rw [← hmap]; rfl, fun i h1 h2 => by omega, .inl rfl⟩
  | succ m ih =>
    rw [range'_succ, map_cons, VmMachine.mapFile]
    cases hunit : d.getFileCacheUnit id (add64 offset (k * PageSize)) with
    | none =>
      rw [show d.machine.getFileCacheUnit env.map id (add64 offset (k * PageSize)) = (none, env.map)
        from congrArg (·, env.map) hunit]
      exact ⟨k, by omega, by rw [← hmap], fun i h1 h2 => by omega, .inr hunit⟩
    | some physBase =>
      rw [show d.machine.getFileCacheUnit env.map id (add64 offset (k * PageSize)) =
        (some physBase, env.map) from congrArg (·, env.map) hunit]
      have hframe : alignDown (add64 physBase (k * PageSize % fileCacheInfo.unitSize)) PageSize =
          d.attachFrame id offset k := by
        rw [unit_frame hunit, attachFrame, hunit, Option.getD_some, unitSize_eq, alignDown, PageSize]
        omega
      have hdo := hatDoMap_backed (convertFlags range.flags) (d.attachFrame id offset) map
        (hr.granule_page (show k < range.pageCount by omega)) hframe
      rw [← hmap] at hdo
      obtain ⟨env1, henv1, hmap1⟩ : ∃ env1 : VmEnv FileState, env1 = ⟨{ env.stats with
          fileResidentSize := add64 env.stats.fileResidentSize (granularity 0) }, { env.map with
          map := (env.map.map.hatDoMap (add64 range.base (k * PageSize))
            (add64 physBase (k * PageSize % fileCacheInfo.unitSize))
            (convertFlags range.flags)).2 }⟩ ∧ env1.map.map = backed range.firstPage
          (convertFlags range.flags) (d.attachFrame id offset) map (k + 1) :=
        ⟨_, rfl, congrArg Prod.snd hdo⟩
      obtain ⟨n, hn, hrun, havail, hstop⟩ := ih (k := k + 1) (by omega) hmap1
      rw [henv1] at hrun
      refine ⟨n, by omega, hrun, fun i h1 h2 => ?_, by rwa [add_assoc, add_comm 1 m] at hstop⟩
      rcases eq_or_lt_of_le h1 with rfl | h1
      · rw [hunit]
        rfl
      · exact havail i h1 h2

/-- The `k`-th page that `Attach` maps has the right frame exactly if the page of the offset is the
first one of its unit. -/
lemma attachFrame_iff (h : (d.getFileCacheUnit id (add64 offset (k * PageSize))).isSome) :
    d.byteAt id (pageOffset offset k) = some (d.attachFrame id offset k) ↔
      offset % fileCacheInfo.unitSize < PageSize := by
  obtain ⟨physBase, hunit⟩ := Option.isSome_iff_exists.mp h
  rw [byteAt, unit_pageOffset, hunit, attachFrame, hunit, unitSize_eq, Option.map_some, Option.getD_some,
    Option.some.injEq, pageOffset, add64, alignDown, PageSize, wordSize]
  omega

/-- What `Attach` leaves to the faults. -/
def deferred (d : VfsVmDriver) (attachArg : ℕ) : Bool :=
  d.faultHandler && !(d.fileArg attachArg).noDeferBacking

lemma vfsQuery_mode {env1 : VmEnv FileState} {length : ℕ} {flags : VmFlags}
    (h : d.machine.vfsQuery env length flags attachArg = (query, env1)) :
    env1 = env ∧ query.hatMode = 0 := by
  rw [VmMachine.vfsQuery] at h
  split at h
  · cases h
    exact ⟨rfl, rfl⟩
  · split_ifs at h
    · cases h
      exact ⟨rfl, rfl⟩
    · cases h
      exact ⟨rfl, congrArg FileCacheInfo.hatMode fileCacheInfo_eq⟩

/-- The range belongs to a link for this part of the file. -/
def Linked (d : VfsVmDriver) (id : VfsId) (offset : ℕ) (s : FileState) (token : ℕ) : Prop :=
  ∃ link, s.getLink token = some link ∧ link.node = id ∧ link.fileOffset = offset ∧
    d.getVfsNode id ≠ none

/-- The range is mapped as far as the file cache has all units. -/
def Filled (d : VfsVmDriver) (id : VfsId) (offset : ℕ) (range : VmRange) (map : PageMap) : Prop :=
  ∀ k < range.pageCount, (∀ i ≤ k, (d.byteAt id (pageOffset offset i)).isSome) →
    (map (range.firstPage + k)).isSome

/-- **What `Attach` relies on**: it leaves the range to the faults, or there is nothing to map, or
the page of the offset is the first one of its unit. -/
def AttachFits (d : VfsVmDriver) (id : VfsId) (offset : ℕ) (range : VmRange) (attachArg : ℕ) : Prop :=
  d.deferred attachArg = true ∨ range.pageCount = 0 ∨ d.byteAt id (pageOffset offset 0) = none ∨
    offset % fileCacheInfo.unitSize < PageSize

instance (attachArg : ℕ) : Decidable (d.AttachFits id offset range attachArg) :=
  inferInstanceAs (Decidable (_ ∨ _))

lemma attach_unit (d : VfsVmDriver) (id : VfsId) (offset k : ℕ) :
    (d.byteAt id (pageOffset offset k)).isSome =
      (d.getFileCacheUnit id (add64 offset (k * PageSize))).isSome := by
  rw [byteAt, Option.isSome_map, unit_pageOffset]

section

variable (hr : range.Whole) (hmode : query.hatMode = 0)
  (hfile : d.machine.findFile env.map (d.fileArg attachArg) = some id)
  (hoffset : (d.fileArg attachArg).offset = offset)
  (hattach : d.machine.vfsAttach env range query attachArg = (result, env'))
  (hsuccess : result.success = true)

include hr hmode hfile hoffset hattach hsuccess

/-- **`Attach`** of a file. -/
lemma vfsAttach_spec : d.Linked id offset env'.map result.token ∧
    (d.deferred attachArg = true → env'.map.map = env.map.map) ∧
    (d.deferred attachArg = false → ∃ n ≤ range.pageCount,
      env'.map.map = backed range.firstPage (convertFlags range.flags) (d.attachFrame id offset)
        env.map.map n ∧
      (∀ k < n, (d.getFileCacheUnit id (add64 offset (k * PageSize))).isSome) ∧
      (n = range.pageCount ∨ d.getFileCacheUnit id (add64 offset (n * PageSize)) = none)) := by
  have hnode : d.machine.getVfsNode env.map id = d.getVfsNode id := rfl
  have hdeferred : (d.machine.vfsFaultHandler && !(d.machine.fileArg attachArg).noDeferBacking) =
      d.deferred attachArg := rfl
  have harg : d.machine.fileArg attachArg = d.fileArg attachArg := rfl
  rw [VmMachine.vfsAttach, harg, hfile] at hattach
  by_cases hnot : d.getVfsNode id = some .file
  swap
  · simp only [hnode, ne_eq, hnot, not_false_eq_true, if_true] at hattach
    cases hattach
    cases hsuccess
  obtain ⟨link, hlink⟩ : ∃ link : VfsVmLink, link = ⟨id, offset, !range.flags.has .write, false⟩ :=
    ⟨_, rfl⟩
  obtain ⟨s1, hs1⟩ : ∃ s1 : FileState, s1 = { env.map with links := env.map.links ++ [link] } :=
    ⟨_, rfl⟩
  have hnew : d.machine.newLink env.map link = (env.map.links.length + 1, s1) := by rw [hs1]; rfl
  have hget : s1.getLink (env.map.links.length + 1) = some link := by
    rw [hs1, FileState.getLink, Nat.add_sub_cancel]
    exact getElem?_concat_length
  have hlinked : ∀ map, d.Linked id offset { s1 with map := map } (env.map.links.length + 1) :=
    fun map => ⟨link, hget, by rw [hlink], by rw [hlink], by rw [hnot]; exact Option.some_ne_none _⟩
  simp only [hnode, ne_eq, hnot, not_true_eq_false, if_false, hoffset, ← hlink, hnew, hmode] at hattach
  rw [harg] at hdeferred
  rw [hdeferred] at hattach
  cases hdef : d.deferred attachArg with
  | true =>
    rw [hdef] at hattach
    cases hattach
    refine ⟨hlinked s1.map, fun _ => ?_, fun h => absurd h.symm Bool.false_ne_true⟩
    rw [hs1]
  | false =>
    rw [hdef] at hattach
    obtain ⟨rfl, henv'⟩ := Prod.mk.inj hattach
    have hg : d.machine.granularity 0 = granularity 0 := rfl
    rw [hg, hr.granules_eq, range_eq_range'] at henv'
    obtain ⟨env1, henv1, hmap1⟩ : ∃ env1 : VmEnv FileState, env1.map = s1 ∧
        d.machine.mapFile range id offset 0 env1
          ((range' 0 range.pageCount).map (· * PageSize)) = env' := ⟨_, rfl, henv'⟩
    have hstart : env1.map.map = backed range.firstPage (convertFlags range.flags)
        (d.attachFrame id offset) env.map.map 0 := by
      rw [henv1, hs1, backed_zero]
    obtain ⟨n, hn, hrun, havail, hstop⟩ := mapFile_spec (d := d) (m := range.pageCount) (k := 0) hr
      env.map.map (by omega) hstart
    rw [hmap1, henv1] at hrun
    rw [zero_add] at hn hstop
    refine ⟨?_, fun h => absurd h Bool.false_ne_true, fun _ => ?_⟩
    · rw [hrun]
      exact hlinked _
    · exact ⟨n, hn, by rw [hrun], fun k hk => havail k (zero_le k) hk, hstop⟩

/-- **`Attach` shows the file exactly if the offset fits.** -/
lemma attach_shows_iff (hfree : ∀ page, range.HasPage page → env.map.map page = none) :
    (d.deferred attachArg = false → d.Filled id offset range env'.map.map) ∧
      (d.ShowsFile id offset range env'.map.map ↔ d.AttachFits id offset range attachArg) := by
  obtain ⟨-, hlater, hnow⟩ := vfsAttach_spec hr hmode hfile hoffset hattach hsuccess
  rw [showsFile_iff hr, AttachFits]
  have hnone : ∀ k < range.pageCount, env.map.map (range.firstPage + k) = none := fun k hk =>
    hfree _ ⟨by omega, by omega⟩
  cases hdef : d.deferred attachArg with
  | true =>
    refine ⟨fun h => absurd h.symm Bool.false_ne_true, iff_of_true (fun k hk pte hpte => ?_) (.inl rfl)⟩
    rw [hlater hdef, hnone k hk] at hpte
    cases hpte
  | false =>
    obtain ⟨n, hn, hmap, havail, hstop⟩ := hnow hdef
    -- the first `n` pages are mapped, the others are not
    have hentry : ∀ k < range.pageCount, env'.map.map (range.firstPage + k) =
        if k < n then some ⟨d.attachFrame id offset k, convertFlags range.flags⟩ else none := by
      intro k hk
      have hiff : (range.firstPage ≤ range.firstPage + k ∧
          range.firstPage + k < range.firstPage + n) ↔ k < n := by omega
      simp only [hmap, backed, hnone k hk, hiff, Option.getD_none, Nat.add_sub_cancel_left]
    constructor
    · intro _ k hk hunits
      rw [hentry k hk]
      split_ifs with hkn
      · rfl
      · rcases hstop with rfl | hstop
        · exact absurd hk hkn
        · have hsome := hunits n (by omega)
          rw [attach_unit, hstop] at hsome
          cases hsome
    · have hright : (∀ k < range.pageCount, ∀ pte, env'.map.map (range.firstPage + k) = some pte →
          d.byteAt id (pageOffset offset k) = some pte.frame) ↔
          ∀ k < n, offset % fileCacheInfo.unitSize < PageSize := by
        constructor
        · intro h k hk
          exact (attachFrame_iff (havail k hk)).mp
            (h k (by omega) _ ((hentry k (by omega)).trans (if_pos hk)))
        · intro h k hk pte hpte
          rw [hentry k hk] at hpte
          split_ifs at hpte with hkn
          cases hpte
          exact (attachFrame_iff (havail k hkn)).mpr (h k hkn)
      have hzero : n = 0 ↔ range.pageCount = 0 ∨ d.byteAt id (pageOffset offset 0) = none := by
        rw [← Option.isNone_iff_eq_none, ← Option.not_isSome, attach_unit]
        constructor
        · rintro rfl
          rcases hstop with h | h
          · exact .inl h.symm
          · exact .inr (by rw [h]; rfl)
        · rintro (h | h)
          · omega
          · by_contra hpos
            rw [havail 0 (Nat.pos_of_ne_zero hpos)] at h
            cases h
      rw [hright]
      simp only [Bool.false_eq_true, false_or]
      rw [← or_assoc, ← hzero]
      constructor
      · intro h
        rcases Nat.eq_zero_or_pos n with hn0 | hpos
        · exact .inl hn0
        · exact .inr (h 0 hpos)
      · rintro (rfl | h) k hk
        · exact absurd hk (Nat.not_lt_zero k)
        · exact h

end

/-! ### Faults -/

/-- The frame of a page that `HandleFault` maps, in the unit that it has found. -/
def faultFrame (offset k physBase : ℕ) : ℕ :=
  physBase + pageOffset offset k % fileCacheInfo.unitSize

lemma byteAt_eq_some (h : d.getFileCacheUnit id (pageOffset offset k) = some physBase) :
    d.byteAt id (pageOffset offset k) = some (faultFrame offset k physBase) := by
  rw [byteAt, h]
  rfl

/-- The offset that `HandleFault` computes for a page lies in this page of the file. -/
lemma fault_offset (offset k : ℕ) : add64 (k * PageSize) offset / PageSize =
    pageOffset offset k / PageSize ∧
      (add64 (k * PageSize) offset % fileCacheInfo.unitSize = 0 ↔
        offset % PageSize = 0 ∧ pageOffset offset k % fileCacheInfo.unitSize = 0) := by
  rw [unitSize_eq, pageOffset, add64, add64, alignDown, PageSize, wordSize]
  omega

/-- One page of a fault is mapped. -/
lemma faultPage_backed {first n mappingOffset i : ℕ} {frames : ℕ → ℕ} (hr : range.Whole)
    (hk : k < range.pageCount) (hadd : mappingOffset + i = k * PageSize)
    (hfirst : range.firstPage + k = first + n) (hunit : d.getFileCacheUnit id x = some physBase)
    (hframe : frames n = faultFrame offset k physBase)
    (hmap : env.map.map = backed first (convertFlags range.flags) frames map n) :
    (faultPage range mappingOffset i physBase (add64 (k * PageSize) offset) env).map =
      { env.map with map := backed first (convertFlags range.flags) frames map (n + 1) } := by
  have hb := hr.base_eq
  have hl := hr.length_eq
  have htop := hr.top
  have hvaddr : add64 (add64 range.base mappingOffset) i / PageSize = first + n := by
    rw [PageSize, wordSize] at *
    rw [add64, add64, wordSize]
    omega
  have hpaddr : alignDown (add64 physBase (add64 (k * PageSize) offset % fileCacheInfo.unitSize))
      PageSize = frames n := by
    have hpage := (fault_offset offset k).1
    have hmod := pageOffset_mod offset k
    rw [unit_frame hunit, hframe, faultFrame, unitSize_eq, alignDown]
    rw [PageSize] at *
    omega
  have hdo := hatDoMap_backed (convertFlags range.flags) frames map hvaddr hpaddr
  rw [← hmap] at hdo
  rw [faultPage, hdo]

/-- The window of a fault in the `k`-th page of the range. -/
lemma fault_window (hr : range.Whole) (hk : k < range.pageCount)
    (haddr : addr / PageSize = range.firstPage + k) :
    sub64 (alignDown addr (granularity 0)) range.base = k * PageSize ∧
      VmMachine.granules (min faultMaxMapAhead (sub64 range.top (alignDown addr (granularity 0))))
        (granularity 0) = if k + 1 = range.pageCount then [0] else [0, PageSize] := by
  have hb := hr.base_eq
  have hl := hr.length_eq
  have htop := hr.top
  have hg : granularity 0 = PageSize := rfl
  have hdown : alignDown addr (granularity 0) = range.base + k * PageSize := by
    rw [alignDown, hg, haddr, hb, add_mul]
  have hlt : range.base + k * PageSize < wordSize := by
    rw [PageSize] at *
    omega
  rw [hdown, sub64_eq hlt (le_add_right _ _), hr.top_eq, sub64_eq htop (by
    rw [PageSize] at *
    omega), hg]
  refine ⟨by omega, ?_⟩
  obtain ⟨c, hc⟩ : ∃ c, c = (min faultMaxMapAhead (range.base + range.length -
    (range.base + k * PageSize)) + PageSize - 1) / PageSize := ⟨_, rfl⟩
  rw [VmMachine.granules, ← hc]
  have hmax : faultMaxMapAhead = 2 * PageSize := rfl
  split_ifs with hlast
  · obtain rfl : c = 1 := by
      rw [hc, hmax, hl]
      rw [PageSize]
      omega
    rfl
  · have hle2 : (k + 2) * PageSize ≤ range.pageCount * PageSize := mul_le_mul_right _ (by omega)
    obtain rfl : c = 2 := by
      rw [PageSize] at *
      omega
    rfl

/-- **The pages that a fault maps**: none if the file cache does not have the first one, and at most
two; the second one has the wrong frame if it begins a unit that is not looked for. -/
structure FaultPages (d : VfsVmDriver) (id : VfsId) (offset : ℕ) (range : VmRange) (k n : ℕ)
    (frames : ℕ → ℕ) : Prop where
  le : n ≤ 2
  inside : k + n ≤ range.pageCount
  zero : n = 0 ↔ d.byteAt id (pageOffset offset k) = none
  first : 0 < n → d.byteAt id (pageOffset offset k) = some (frames 0)
  one : n = 1 → k + 1 = range.pageCount ∨ offset % PageSize = 0
  second : n = 2 → (d.byteAt id (pageOffset offset (k + 1)) = some (frames 1) ↔
    offset % PageSize = 0 ∨
      pageOffset offset k % fileCacheInfo.unitSize + PageSize ≠ fileCacheInfo.unitSize)

/-- The page after the last one of a unit begins a unit. -/
lemma pageOffset_succ
    (h : pageOffset offset k % fileCacheInfo.unitSize + PageSize = fileCacheInfo.unitSize) :
    pageOffset offset (k + 1) % fileCacheInfo.unitSize = 0 := by
  rw [unitSize_eq, pageOffset, add64, PageSize, wordSize] at *
  omega

/-- The next page is in the unit that is at hand, unless it begins another one. -/
lemma next_unit (h : d.getFileCacheUnit id (pageOffset offset k) = some physBase) :
    d.getFileCacheUnit id (pageOffset offset (k + 1)) = some physBase ↔
      pageOffset offset k % fileCacheInfo.unitSize + PageSize ≠ fileCacheInfo.unitSize := by
  generalize hx : pageOffset offset k = x at h ⊢
  generalize hy : pageOffset offset (k + 1) = y
  have hstep : x % 0x1000 = 0 ∧ (x % 0x4000 = 0x3000 ∧ y % 0x4000 = 0 ∧ x / 0x4000 ≠ y / 0x4000 ∨
      x % 0x4000 ≠ 0x3000 ∧ x / 0x4000 = y / 0x4000) := by
    rw [← hx, ← hy, pageOffset, pageOffset, add64, add64, alignDown, PageSize, wordSize]
    omega
  rw [unitSize_eq, PageSize]
  rcases hstep with ⟨hmod, ⟨hlast, hfirst, hne⟩ | ⟨hlast, heq⟩⟩
  · refine iff_of_false (fun hsame => ?_) (by omega)
    -- the two units would have the same memory
    obtain ⟨length, hlength, h1, hx⟩ := exists_unit h
    obtain ⟨_, hlength', h2, hy⟩ := exists_unit hsame
    cases hlength.symm.trans hlength'
    have heq := d.physBase_inj id length hlength _ h1 _ h2 (mul_mod_left _ _) (mul_mod_left _ _)
      (hx.trans hy.symm)
    rw [unitSize_eq, alignDown, alignDown] at heq
    omega
  · refine iff_of_true ?_ (by omega)
    rw [← getFileCacheUnit_congr heq, h]

/-- **`HandleFault`.** -/
lemma handleFault_spec (hr : range.Whole) (hlink : d.Linked id offset env.map range.token)
    (hk : k < range.pageCount) (haddr : addr / PageSize = range.firstPage + k) :
    ∃ good env' n frames, d.handleFault env range addr = some (good, env') ∧
      env'.map = ⟨backed (range.firstPage + k) (convertFlags range.flags) frames env.map.map n,
        env.map.links⟩ ∧ d.FaultPages id offset range k n frames := by
  obtain ⟨link, hget, hid, hoffset, hnode⟩ := hlink
  obtain ⟨hoff, hgran⟩ := fault_window hr hk haddr
  have hmode : fileCacheInfo.hatMode = 0 := by rw [fileCacheInfo_eq]
  have hunit (k : ℕ) : d.getFileCacheUnit id (add64 (k * PageSize) offset) =
      d.getFileCacheUnit id (pageOffset offset k) := by
    rw [unit_pageOffset, add64, add64, add_comm]
  rw [handleFault, hget, Option.map_some, hmode, hid, hoffset]
  simp only [hoff, hunit, hgran, hnode, false_or]
  cases hu : d.getFileCacheUnit id (pageOffset offset k) with
  | none =>
    -- the fault is refused
    have hbyte : d.byteAt id (pageOffset offset k) = none := by
      rw [byteAt, hu]
      rfl
    exact ⟨false, env, 0, fun _ => 0, congrArg some (ite_self _), by rw [backed_zero], by omega, by omega,
      iff_of_true rfl hbyte, fun h => by omega, fun h => by omega, fun h => by omega⟩
  | some p0 =>
  obtain ⟨length, hlength, -⟩ := exists_unit hu
  rw [if_neg (by rw [hlength]; exact Option.some_ne_none _)]
  obtain ⟨frames, hframe, hsecond⟩ : ∃ frames : ℕ → ℕ → ℕ,
      (∀ p1, frames p1 0 = faultFrame offset k p0) ∧
        ∀ p1, frames p1 1 = faultFrame offset (k + 1) p1 :=
    ⟨fun p1 i => if i = 0 then faultFrame offset k p0 else faultFrame offset (k + 1) p1,
      fun _ => if_pos rfl, fun _ => if_neg one_ne_zero⟩
  have hfirst : ∀ p1, d.byteAt id (pageOffset offset k) = some (frames p1 0) := by
    intro p1
    rw [byteAt_eq_some hu, hframe]
  have hzero : ∀ n, n + 1 = 0 ↔ d.byteAt id (pageOffset offset k) = none := by
    intro n
    rw [hfirst 0]
    exact iff_of_false n.succ_ne_zero (Option.some_ne_none _)
  obtain ⟨env1, henv1⟩ : ∃ env1, env1 = faultPage range (k * PageSize) 0 p0
    (add64 (k * PageSize) offset) env := ⟨_, rfl⟩
  have hmap1 : ∀ p1, env1.map = ⟨backed (range.firstPage + k) (convertFlags range.flags)
      (frames p1) env.map.map 1, env.map.links⟩ := by
    intro p1
    rw [henv1]
    exact faultPage_backed (n := 0) hr hk (add_zero _) (add_zero _).symm hu
      (hframe p1) (backed_zero _ _ _ _).symm
  have hlt : (k + 1) * PageSize < wordSize := by
    have hle : (k + 1) * PageSize ≤ range.pageCount * PageSize := mul_le_mul_right _ hk
    have htop := hr.top
    rw [hr.length_eq] at htop
    omega
  have hk0 : add64 (k * PageSize) 0 = k * PageSize := by
    have hle : k * PageSize ≤ (k + 1) * PageSize := mul_le_mul_right _ (le_succ k)
    rw [add64, add_zero, mod_eq_of_lt (by omega)]
  have hk1 : add64 (k * PageSize) PageSize = (k + 1) * PageSize := by
    rw [add_mul] at hlt ⊢
    exact add64_eq hlt
  have hloop : ∀ is, d.faultLoop range link (k * PageSize) p0 env (0 :: is) =
      d.faultLoop range link (k * PageSize) p0 env1 is := by
    intro is
    rw [faultLoop, hid, hoffset, hk0, hunit, hu, ite_self, henv1]
  dsimp only
  by_cases hlast : k + 1 = range.pageCount
  · rw [if_pos hlast, hloop]
    exact ⟨true, env1, 1, frames 0, rfl, hmap1 0, by omega, by omega, hzero 0, fun _ => hfirst 0,
      fun _ => .inl hlast, fun h => by omega⟩
  · rw [if_neg hlast, hloop, faultLoop, hid, hoffset, hk1, hunit]
    have hbegin := (fault_offset offset (k + 1)).2
    have htwo : ∀ p1 x, d.getFileCacheUnit id x = some p1 →
        (faultPage range (k * PageSize) PageSize p1 (add64 ((k + 1) * PageSize) offset)
          env1).map = ⟨backed (range.firstPage + k) (convertFlags range.flags) (frames p1)
            env.map.map 2, env.map.links⟩ := by
      intro p1 x hx
      refine (faultPage_backed (n := 1) (k := k + 1) hr (by omega)
        (by rw [add_mul, one_mul]) (add_assoc _ _ _).symm hx (hsecond p1)
        (congrArg FileState.map (hmap1 p1))).trans ?_
      rw [hmap1 p1]
    by_cases hb : add64 ((k + 1) * PageSize) offset % fileCacheInfo.unitSize = 0
    · -- the next page begins a unit, and the loop has met its start
      rw [if_pos hb]
      obtain ⟨haligned, -⟩ := hbegin.mp hb
      cases hu1 : d.getFileCacheUnit id (pageOffset offset (k + 1)) with
      | none =>
        exact ⟨false, env1, 1, frames 0, rfl, hmap1 0, by omega, by omega, hzero 0,
          fun _ => hfirst 0, fun _ => .inr haligned, fun h => by omega⟩
      | some p1 =>
        refine ⟨true, _, 2, frames p1, rfl, htwo p1 _ hu1, le_rfl, by omega, hzero 1,
          fun _ => hfirst p1, fun h => by omega, fun _ => iff_of_true ?_ (.inl haligned)⟩
        rw [byteAt_eq_some hu1, hsecond]
    · rw [if_neg hb]
      refine ⟨true, _, 2, frames p0, rfl, htwo p0 _ hu, le_rfl, by omega, hzero 1,
        fun _ => hfirst p0, fun h => by omega, fun _ => ?_⟩
      have hsame : d.byteAt id (pageOffset offset (k + 1)) = some (frames p0 1) ↔
          d.getFileCacheUnit id (pageOffset offset (k + 1)) = some p0 := by
        rw [hsecond, byteAt, Option.map_eq_some_iff]
        constructor
        · rintro ⟨p1, hp1, heq⟩
          rw [hp1, add_right_cancel heq]
        · exact fun h => ⟨p0, h, rfl⟩
      rw [hsame, next_unit hu]
      refine ⟨.inr, ?_⟩
      rintro (haligned | hne)
      · exact fun hlast => hb (hbegin.mpr ⟨haligned, pageOffset_succ hlast⟩)
      · exact hne

/-- The fault, if it lies in the range. -/
lemma faultStep_eq (hr : range.Whole) :
    d.faultStep range env addr = if range.base ≤ addr ∧ addr < range.base + range.length then
      (d.handleFault env range addr).map Prod.snd else some env := by
  rw [faultStep, hr.top_eq]

/-- **One fault** shows the file exactly if it fits. -/
lemma faultShows_iff (hr : range.Whole) (hlink : d.Linked id offset env.map range.token)
    (hshow : d.ShowsFile id offset range env.map.map) (addr : ℕ) :
    d.FaultShows id offset range env addr ↔ d.FaultFits id offset range env addr := by
  rw [FaultShows, FaultFits, faultStep_eq hr, hr.top_eq]
  by_cases hin : range.base ≤ addr ∧ addr < range.base + range.length
  swap
  · simp only [hin, if_false, false_implies, and_true, iff_true]
    exact ⟨env, rfl, hshow⟩
  obtain ⟨k, hk, haddr⟩ := exists_page hr hin
  obtain ⟨good, env', n, frames, hrun, hmap, hpages⟩ := handleFault_spec hr hlink hk haddr
  rw [showsFile_iff hr] at hshow
  simp only [hin, and_self, if_true, true_implies, hrun, Option.map_some, Option.some.injEq,
    exists_eq_left', haddr, Nat.add_sub_cancel_left, hmap, showsFile_iff hr]
  -- the page itself is mapped whenever the file cache has it
  have hmapped : (d.byteAt id (pageOffset offset k)).isSome = true →
      (backed (range.firstPage + k) (convertFlags range.flags) frames env.map.map n
        (range.firstPage + k)).isSome = true := by
    intro hsome
    have hpos : n ≠ 0 := fun h0 => by
      rw [hpages.zero.mp h0] at hsome
      cases hsome
    rw [backed, if_pos ⟨le_rfl, by omega⟩]
    rfl
  rw [and_iff_left hmapped]
  constructor
  · intro h
    by_contra hnot
    push Not at hnot
    obtain ⟨hoff, hlast, hbyte, hnext, hfree⟩ := hnot
    have hcount : k + 1 < range.pageCount := by
      have := hnext.2
      omega
    have hn : n = 2 := by
      have h0 : n ≠ 0 := fun h0 => hbyte (hpages.zero.mp h0)
      have h1 : n ≠ 1 := fun h1 => by
        rcases hpages.one h1 with h | h
        · omega
        · exact hoff h
      have := hpages.le
      omega
    have hentry : backed (range.firstPage + k) (convertFlags range.flags) frames env.map.map n
        (range.firstPage + (k + 1)) = some ⟨frames 1, convertFlags range.flags⟩ := by
      have hnone : env.map.map (range.firstPage + (k + 1)) = none :=
        Option.not_isSome_iff_eq_none.mp hfree
      rw [backed, if_pos ⟨by omega, by omega⟩, hnone]
      exact congrArg (fun i => some (Pte.mk (frames i) (convertFlags range.flags))) (by omega)
    rcases (hpages.second hn).mp (h (k + 1) hcount _ hentry) with h | h
    · exact hoff h
    · exact h hlast
  · intro hfits i hi pte hpte
    rcases backed_cases hpte with hold | ⟨hnone, j, hj, hpage, rfl⟩
    · exact hshow i hi pte hold
    · obtain rfl : i = k + j := by omega
      have hle := hpages.le
      rcases Nat.eq_zero_or_pos j with rfl | hpos
      · exact hpages.first hj
      · obtain rfl : j = 1 := by omega
        refine (hpages.second (by omega)).mpr ?_
        rcases hfits with h | h | h | h | h
        · exact .inl h
        · exact .inr h
        · have := hpages.zero.mpr h
          omega
        · exact absurd ⟨by omega, by omega⟩ h
        · rw [show range.firstPage + k + 1 = range.firstPage + (k + 1) from rfl, hnone] at h
          cases h

/-- A fault does not touch the link. -/
lemma linked_faultStep (hr : range.Whole) (hlink : d.Linked id offset env.map range.token)
    (hstep : d.faultStep range env addr = some env') : d.Linked id offset env'.map range.token := by
  rw [faultStep_eq hr] at hstep
  split_ifs at hstep with hin
  · obtain ⟨k, hk, haddr⟩ := exists_page hr hin
    obtain ⟨good, env1, n, frames, hrun, hmap, -⟩ := handleFault_spec hr hlink hk haddr
    rw [hrun] at hstep
    cases hstep
    obtain ⟨link, hget, hrest⟩ := hlink
    exact ⟨link, by rw [hmap]; exact hget, hrest⟩
  · cases hstep
    exact hlink

/-! ### Runs -/

/-- **A mapping shows its file exactly if `Attach` and every fault fit.**  The range is attached where
nothing is mapped, for any file and any offset; then there is any sequence of faults. -/
theorem file_mapping_iff (hr : range.Whole) {env env1 env2 : VmEnv FileState} {length attachArg : ℕ}
    {flags : VmFlags} {query : QueryResult} {result : AttachResult}
    (hfree : ∀ page, range.HasPage page → env.map.map page = none)
    (hquery : d.machine.vfsQuery env length flags attachArg = (query, env1))
    (hfile : d.machine.findFile env1.map (d.fileArg attachArg) = some id)
    (hoffset : (d.fileArg attachArg).offset = offset)
    (hattach : d.machine.vfsAttach env1 range query attachArg = (result, env2))
    (hsuccess : result.success = true) (addrs : List ℕ) :
    (d.ShowsFile id offset range env2.map.map ∧
      (d.deferred attachArg = false → d.Filled id offset range env2.map.map) ∧
      Allowed (d.faultStep { range with token := result.token, offset := result.offset })
        (d.FaultShows id offset { range with token := result.token, offset := result.offset })
        env2 addrs) ↔
    (d.AttachFits id offset range attachArg ∧
      Allowed (d.faultStep { range with token := result.token, offset := result.offset })
        (d.FaultFits id offset { range with token := result.token, offset := result.offset })
        env2 addrs) := by
  obtain ⟨rfl, hmode⟩ := vfsQuery_mode hquery
  obtain ⟨hlink, -⟩ := vfsAttach_spec hr hmode hfile hoffset hattach hsuccess
  obtain ⟨hfilled, hiff⟩ := attach_shows_iff hr hmode hfile hoffset hattach hsuccess hfree
  obtain ⟨range', hrange', hr', hshows, htoken⟩ : ∃ range' : VmRange,
      range' = { range with token := result.token, offset := result.offset } ∧ range'.Whole ∧
      (∀ map, d.ShowsFile id offset range map ↔ d.ShowsFile id offset range' map) ∧
      range'.token = result.token := ⟨_, rfl, { hr with }, fun _ => Iff.rfl, rfl⟩
  rw [← hrange', hiff]
  -- the invariant of the faults: the link is there, and the range shows the file
  have hfaults : d.AttachFits id offset range attachArg →
      (Allowed (d.faultStep range') (d.FaultShows id offset range') env2 addrs ↔
        Allowed (d.faultStep range') (d.FaultFits id offset range') env2 addrs) := by
    intro hfits
    refine allowed_iff (fun env => d.Linked id offset env.map range'.token ∧
      d.ShowsFile id offset range' env.map.map) ?_ ?_ ?_ addrs
    · rintro env addr ⟨hlink, hshow⟩
      exact faultShows_iff hr' hlink hshow addr
    · rintro env addr env' ⟨hlink, -⟩ ⟨env'', hstep, hshow, -⟩ hstep'
      cases hstep.symm.trans hstep'
      exact ⟨linked_faultStep hr' hlink hstep, hshow⟩
    · rw [htoken]
      exact ⟨hlink, (hshows _).mp (hiff.mpr hfits)⟩
  constructor
  · rintro ⟨hfits, -, hall⟩
    exact ⟨hfits, (hfaults hfits).mp hall⟩
  · rintro ⟨hfits, hall⟩
    exact ⟨hfits, hfilled, (hfaults hfits).mpr hall⟩

/-! ### A file of two units -/

lemma twoUnits_mod (_ : VfsId) (offset : ℕ) :
    (0x100000 + offset / 0x4000 % 2 * 0x8000) % PageSize = 0 := by
  rw [PageSize]
  omega

lemma twoUnits_lt (_ : VfsId) (offset : ℕ) :
    0x100000 + offset / 0x4000 % 2 * 0x8000 + fileCacheInfo.unitSize ≤ wordSize := by
  rw [unitSize_eq, wordSize]
  omega

/-- One file, whose two units lie at `0x100000` and `0x108000`.  The argument of a mapping has its
offset in the file, and in the last bit whether it is mapped at once. -/
def twoUnits : VfsVmDriver where
  faultHandler := true
  fileArg arg := { id := ⟨1, 1⟩, offset := arg / 2, noDeferBacking := arg.testBit 0 }
  vfsLookup _ := none
  getVfsNode id := if id = ⟨1, 1⟩ then some .file else none
  cacheLength id := if id = ⟨1, 1⟩ then some 0x8000 else none
  physBase _ offset := 0x100000 + offset / 0x4000 % 2 * 0x8000
  physBase_mod := twoUnits_mod
  physBase_lt := twoUnits_lt
  physBase_inj id length hlength a ha b hb ha' hb' heq := by
    split_ifs at hlength
    cases hlength
    rw [unitSize_eq] at ha' hb'
    omega

/-- A range of two pages of the file. -/
def twoPages : VmRange := ⟨0x10000, 0x2000, 0x2000000#64, 0, 0, 0⟩

def noMappings : VmEnv FileState := ⟨⟨0, 0, 0, 0, 0, 0, 0, 0, 0⟩, ⟨.empty, []⟩⟩

/-- The range is attached with this argument. -/
def attachTwo (attachArg : ℕ) : AttachResult × VmEnv FileState :=
  twoUnits.machine.vfsAttach noMappings twoPages
    (twoUnits.machine.vfsQuery noMappings 0x2000 twoPages.flags attachArg).1 attachArg

/-- The range with what `Attach` has returned. -/
def attachedTwo (attachArg : ℕ) : VmRange :=
  { twoPages with token := (attachTwo attachArg).1.token, offset := (attachTwo attachArg).1.offset }

/-- The last page of the first unit and the first page of the second one, mapped by faults. -/
theorem file_mapping_iff_twoPages :
    twoUnits.ShowsFile ⟨1, 1⟩ 0x3000 twoPages (attachTwo 0x6000).2.map.map ∧
      (twoUnits.deferred 0x6000 = false →
        twoUnits.Filled ⟨1, 1⟩ 0x3000 twoPages (attachTwo 0x6000).2.map.map) ∧
      Allowed (twoUnits.faultStep (attachedTwo 0x6000))
        (twoUnits.FaultShows ⟨1, 1⟩ 0x3000 (attachedTwo 0x6000)) (attachTwo 0x6000).2
        [0x11000, 0x10000] :=
  (file_mapping_iff (by decide +kernel) (fun _ _ => rfl) rfl (by decide +kernel) (by decide +kernel)
    rfl (by decide +kernel) _).mpr (by decide +kernel)

/-- **Two pages at other offsets.**  Mapped at once from the offset `0x1000` on, the first page
shows the bytes at 0.  Mapped by a fault from `0x3001` on, the second page shows the first unit
again instead of the second one. -/
theorem file_mapping_wrong :
    (attachTwo 0x2001).2.map.map.hatGetMap 0x10000 = some 0x100000 ∧
    twoUnits.byteAt ⟨1, 1⟩ 0x1000 = some 0x101000 ∧
    (twoUnits.faultStep (attachedTwo 0x6002) (attachTwo 0x6002).2 0x10000).map
      (fun env => (env.map.map.hatGetMap 0x10001, env.map.map.hatGetMap 0x11000)) =
      some (some 0x103001, some 0x100000) ∧
    twoUnits.byteAt ⟨1, 1⟩ 0x3001 = some 0x103001 ∧
    twoUnits.byteAt ⟨1, 1⟩ 0x4000 = some 0x108000 := by
  decide +kernel

end VfsVmDriver

end Northport.Memory
