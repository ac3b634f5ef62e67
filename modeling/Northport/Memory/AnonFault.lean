/-
# Faults in an anonymous range

A fault maps up to eight pages, from the faulting one on, and does not look at what is mapped
there.  Without the zero page a page that is mapped trips the assertion; with it, the page loses
its frame and with that what was written to it.  So the order of the faults matters: the faults
of a run leave all private frames alone exactly if no window of a fault has a page with a
private frame.
-/
import Northport.Lib.Run
import Northport.Memory.AnonVmSteps

namespace Northport.Memory

open Lib PageMap

variable {τ : Type}

/-- The byte that a program reads at an address, if the page is mapped. -/
def AnonState.read (s : AnonState τ) (vaddr : ℕ) : Option (BitVec 8) :=
  (s.map.hatGetMap vaddr).map s.mem

/-- A program writes a byte, if its mapping lets it. -/
def AnonState.store (s : AnonState τ) (vaddr : ℕ) (byte : BitVec 8) : AnonState τ :=
  match s.map (vaddr / PageSize) with
  | some pte =>
    if pte.flags.write then
      { s with mem := Function.update s.mem (pte.frame + vaddr % PageSize) byte }
    else s
  | none => s

@[simp] lemma AnonState.store_map (s : AnonState τ) (vaddr : ℕ) (byte : BitVec 8) :
    (s.store vaddr byte).map = s.map := by
  rw [store]
  split
  · split_ifs <;> rfl
  · rfl

@[simp] lemma AnonState.store_pmm (s : AnonState τ) (vaddr : ℕ) (byte : BitVec 8) :
    (s.store vaddr byte).pmm = s.pmm := by
  rw [store]
  split
  · split_ifs <;> rfl
  · rfl

/-- What happens in a range: faults, and stores of the program. -/
inductive FaultOp where
  | fault (addr : ℕ)
  | store (vaddr : ℕ) (byte : BitVec 8)
deriving DecidableEq

namespace AnonVmDriver

variable (d : AnonVmDriver τ) (range : VmRange)

/-- The page has a frame of its own. -/
def Private (map : PageMap) (page : ℕ) : Prop := ∃ pte, map page = some pte ∧ pte.frame ≠ d.zeroPage

instance (map : PageMap) (page : ℕ) : Decidable (d.Private map page) :=
  match h : map page with
  | none => .isFalse (by rintro ⟨pte, hpte, -⟩; rw [h] at hpte; cases hpte)
  | some pte =>
    if hne : pte.frame ≠ d.zeroPage then .isTrue ⟨pte, h, hne⟩
    else .isFalse (by rintro ⟨pte', hpte, h'⟩; rw [h] at hpte; cases hpte; exact hne h')

/-- One event.  A fault outside of the range is not one of its driver. -/
def faultStep (env : VmEnv (AnonState τ)) : FaultOp → Option (VmEnv (AnonState τ))
  | .fault addr =>
    if range.base ≤ addr ∧ addr < range.top then (d.handleFault env range addr).map Prod.snd
    else some env
  | .store vaddr byte => some { env with map := env.map.store vaddr byte }

/-- **The event does no harm**: no assertion fires, every page of the range with a private frame
keeps the frame, and after a fault it reads as before. -/
def KeepsFrames (env : VmEnv (AnonState τ)) (op : FaultOp) : Prop :=
  ∃ env', d.faultStep range env op = some env' ∧ ∀ page, range.HasPage page →
    d.Private env.map.map page →
      (env'.map.map page).map Pte.frame = (env.map.map page).map Pte.frame ∧
      ∀ addr, op = .fault addr → ∀ vaddr, vaddr / PageSize = page →
        env'.map.read vaddr = env.map.read vaddr

/-- No page in the window of the fault has a private frame. -/
def WindowClear (env : VmEnv (AnonState τ)) : FaultOp → Prop
  | .fault addr => range.base ≤ addr ∧ addr < range.top →
      ∀ k < mapCount range addr, ¬ d.Private env.map.map (addr / PageSize + k)
  | .store _ _ => True

instance (env : VmEnv (AnonState τ)) (op : FaultOp) : Decidable (d.WindowClear range env op) := by
  cases op <;> rw [WindowClear] <;> infer_instance

variable {d range} {s : AnonState τ} {env env' : VmEnv (AnonState τ)} {addr page : ℕ} {pte : Pte}

/-- What holds between the events: the frames are pages that the PMM has handed out, and without
the feature nothing is mapped to the zero page. -/
structure RangeInv (d : AnonVmDriver τ) (range : VmRange) (s : AnonState τ) : Prop where
  zero : d.frames.InUse s.pmm d.zeroPage
  frames : ∀ page pte, range.HasPage page → s.map page = some pte → pte.frame ≠ d.zeroPage →
    d.frames.InUse s.pmm pte.frame ∧ pte.frame % PageSize = 0
  noZero : d.useZeroPage = false → ∀ page pte, range.HasPage page → s.map page = some pte →
    pte.frame ≠ d.zeroPage

/-- A page that the PMM hands out is not the zero page. -/
lemma nth_ne_zeroPage (h : d.frames.InUse s.pmm d.zeroPage) (n : ℕ) :
    d.frames.nth s.pmm n ≠ d.zeroPage :=
  fun heq => d.frames.nth_fresh s.pmm n (heq ▸ h)

/-- The entries of a state with pages from the PMM: old ones, or new ones with a new page. -/
lemma RangeInv.take (h : RangeInv d range s) {n : ℕ} (map : PageMap)
    (hmap : ∀ page pte, map page = some pte →
      s.map page = some pte ∨ ∃ k < n, pte.frame = d.frames.nth s.pmm k) :
    RangeInv d range { d.frames.take s n with map := map } where
  zero := (d.frames.inUse_after s.pmm n _).mpr (.inr h.zero)
  frames := by
    intro page pte hpage hpte hne
    rcases hmap page pte hpte with hold | ⟨k, hk, hframe⟩
    · obtain ⟨huse, hal⟩ := h.frames page pte hpage hold hne
      exact ⟨(d.frames.inUse_after s.pmm n _).mpr (.inr huse), hal⟩
    · exact ⟨(d.frames.inUse_after s.pmm n _).mpr (.inl ⟨k, hk, hframe⟩),
        hframe ▸ d.frames.nth_aligned s.pmm k⟩
  noZero := by
    intro hz page pte hpage hpte
    rcases hmap page pte hpte with hold | ⟨k, -, hframe⟩
    · exact h.noZero hz page pte hpage hold
    · exact hframe ▸ nth_ne_zeroPage h.zero k

/-- A fault leaves old entries, or makes ones with a new page. -/
lemma faulted_cases (h : (d.faulted range addr s).map page = some pte) :
    s.map page = some pte ∨
      ∃ k < mapCount range addr, page = addr / PageSize + k ∧
        pte = ⟨d.frames.nth s.pmm k, convertFlags range.flags⟩ := by
  simp only [faulted] at h
  split_ifs at h
  · rcases synced_cases h with h | ⟨k, hk, hpage, old, -, hpte⟩
    · exact .inl h
    · exact .inr ⟨k, hk, hpage, hpte⟩
  · rcases backed_cases h with h | ⟨-, k, hk, hpage, hpte⟩
    · exact .inl h
    · exact .inr ⟨k, hk, hpage, hpte⟩

lemma RangeInv.faulted (h : RangeInv d range s) (addr : ℕ) :
    RangeInv d range (d.faulted range addr s) := by
  refine h.take (d.faulted range addr s).map fun page pte hpte => ?_
  rcases faulted_cases hpte with hold | ⟨k, hk, -, hpte⟩
  · exact .inl hold
  · exact .inr ⟨k, hk, by rw [hpte]⟩

lemma RangeInv.store (h : RangeInv d range s) (vaddr : ℕ) (byte : BitVec 8) :
    RangeInv d range (s.store vaddr byte) := by
  rw [AnonState.store]
  split
  · split_ifs
    · exact ⟨h.zero, h.frames, h.noZero⟩
    · exact h
  · exact h

/-- `Attach` gives a range whose pages were not mapped. -/
lemma RangeInv.attached (hzero : d.frames.InUse s.pmm d.zeroPage)
    (hfree : ∀ page, range.HasPage page → s.map page = none) (attachArg : ℕ) :
    RangeInv d range (d.attached range attachArg s) := by
  have hs : RangeInv d range s := by
    refine ⟨hzero, fun page pte hpage hpte => ?_, fun _ page pte hpage hpte => ?_⟩
    · rw [hfree page hpage] at hpte
      cases hpte
    · rw [hfree page hpage] at hpte
      cases hpte
  rw [AnonVmDriver.attached]
  split_ifs with hz
  · refine ⟨hzero, fun page pte hpage hpte hne => ?_, fun hfalse => ?_⟩
    · dsimp only at hpte
      rcases backed_cases hpte with hold | ⟨-, k, -, -, rfl⟩
      · exact hs.frames page pte hpage hold hne
      · exact absurd rfl hne
    · rw [doZeroPage, hfalse] at hz
      simp at hz
  · exact hs
  · refine hs.take _ fun page pte hpte => ?_
    rcases backed_cases hpte with hold | ⟨-, k, hk, -, rfl⟩
    · exact .inl hold
    · exact .inr ⟨k, hk, rfl⟩

/-! ### One event -/

/-- Outside of the window nothing changes. -/
lemma faulted_of_notMem (h : ∀ k < mapCount range addr, page ≠ addr / PageSize + k) :
    (d.faulted range addr s).map page = s.map page := by
  have hout : ¬ (addr / PageSize ≤ page ∧ page < addr / PageSize + mapCount range addr) := by
    rintro ⟨h1, h2⟩
    exact h (page - addr / PageSize) (by omega) (by omega)
  simp only [faulted]
  split_ifs
  · exact if_neg hout
  · exact if_neg hout

/-- With the zero page, the mapped pages of the window get frames of their own. -/
lemma faulted_window {k : ℕ} (hz : d.useZeroPage = true) (hk : k < mapCount range addr) :
    (d.faulted range addr s).map (addr / PageSize + k) = (s.map (addr / PageSize + k)).map fun _ =>
      ⟨d.frames.nth s.pmm k, convertFlags range.flags⟩ := by
  simp only [faulted, hz, if_true, synced, Nat.add_sub_cancel_left]
  exact if_pos ⟨by omega, by omega⟩

/-- The pages of the window lie in the range. -/
lemma window_hasPage (hr : range.Paged) {k : ℕ} (hlo : range.base ≤ addr)
    (hhi : addr < range.base + range.length) (hk : k < mapCount range addr) :
    range.HasPage (addr / PageSize + k) := by
  have hle := window_le hr hhi
  have hfirst := (hr.hasPage_iff.mpr ⟨hlo, hhi⟩).1
  exact ⟨by omega, by omega⟩

/-- What a private page reads is not touched by the pages that the PMM hands out. -/
lemma read_take (h : RangeInv d range s) {vaddr n : ℕ} {map : PageMap} (hpage : range.HasPage page)
    (hpte : s.map page = some pte) (hne : pte.frame ≠ d.zeroPage) (hvaddr : vaddr / PageSize = page)
    (hmap : map page = s.map page) :
    AnonState.read { d.frames.take s n with map := map } vaddr = s.read vaddr := by
  obtain ⟨huse, hal⟩ := h.frames page pte hpage hpte hne
  have hmem : d.frames.fill s.mem s.pmm n (pte.frame + vaddr % PageSize) =
      s.mem (pte.frame + vaddr % PageSize) := by
    refine Frames.fill_of_notMem fun k _ heq => d.frames.nth_fresh s.pmm k ?_
    have hdown : alignDown (pte.frame + vaddr % PageSize) PageSize = pte.frame := by
      rw [alignDown]
      rw [PageSize] at *
      omega
    rw [← heq, hdown]
    exact huse
  simp only [AnonState.read, hatGetMap, hvaddr, hmap, hpte, Option.map_some]
  exact congrArg some hmem

/-- **One event**: it does no harm exactly if its window is clear. -/
lemma keepsFrames_iff (hr : range.Paged) (h : RangeInv d range env.map) (op : FaultOp) :
    d.KeepsFrames range env op ↔ d.WindowClear range env op := by
  cases op with
  | store vaddr byte =>
    refine ⟨fun _ => trivial, fun _ => ⟨_, rfl, fun page _ _ => ⟨?_, fun addr hop => ?_⟩⟩⟩
    · rw [AnonState.store_map]
    · cases hop
  | fault addr =>
    rw [KeepsFrames, WindowClear, faultStep, hr.top_eq]
    split_ifs with hin
    · obtain ⟨hlo, hhi⟩ := hin
      rw [handleFault_eq _ hr hhi]
      constructor
      · rintro ⟨env', hrun, hkeeps⟩ - k hk hpriv
        have hpage := window_hasPage hr hlo hhi hk
        obtain ⟨pte, hpte, hne⟩ := hpriv
        have hframe := (hkeeps _ hpage ⟨pte, hpte, hne⟩).1
        split_ifs at hrun with hok
        · cases hrun
          rcases hok with hz | hnone
          · -- the page has got the `k`-th page of the PMM instead of its own
            rw [faulted_window hz hk, hpte] at hframe
            have heq : d.frames.nth env.map.pmm k = pte.frame := Option.some.inj hframe
            exact d.frames.nth_fresh _ k (heq ▸ (h.frames _ pte hpage hpte hne).1)
          · rw [hnone k hk] at hpte
            cases hpte
        · cases hrun
      · intro hclear
        have hclear := hclear ⟨hlo, hhi⟩
        have hok : d.FaultOk range addr env.map := by
          cases hz : d.useZeroPage with
          | true => exact .inl hz
          | false =>
            refine .inr fun k hk => ?_
            by_contra hsome
            obtain ⟨pte, hpte⟩ := Option.ne_none_iff_exists'.mp hsome
            exact hclear k hk ⟨pte, hpte, h.noZero hz _ pte (window_hasPage hr hlo hhi hk) hpte⟩
        rw [if_pos hok]
        refine ⟨_, rfl, fun page hpage hpriv => ?_⟩
        have hsame : (d.faulted range addr env.map).map page = env.map.map page :=
          faulted_of_notMem fun k hk heq => hclear k hk (heq ▸ hpriv)
        obtain ⟨pte, hpte, hne⟩ := hpriv
        refine ⟨congrArg (Option.map Pte.frame) hsame, fun _ _ vaddr hvaddr => ?_⟩
        exact read_take h hpage hpte hne hvaddr hsame
    · refine ⟨fun _ hin' => absurd hin' hin, fun _ => ⟨env, rfl, fun page _ _ => ?_⟩⟩
      exact ⟨rfl, fun _ _ _ _ => rfl⟩

/-- One event keeps what holds between the events. -/
lemma rangeInv_step (hr : range.Paged) {op : FaultOp} (h : RangeInv d range env.map)
    (hrun : d.faultStep range env op = some env') : RangeInv d range env'.map := by
  cases op with
  | store vaddr byte =>
    cases hrun
    exact h.store vaddr byte
  | fault addr =>
    rw [faultStep, hr.top_eq] at hrun
    split_ifs at hrun with hin
    · rw [handleFault_eq _ hr hin.2] at hrun
      split_ifs at hrun
      · cases hrun
        exact h.faulted addr
      · cases hrun
    · cases hrun
      exact h

/-! ### Runs -/

/-- **Faults leave private frames alone exactly if their windows are clear.**  A range is attached
where nothing is mapped; then there is any sequence of faults in the range and of stores. -/
theorem faults_keep_iff (hr : range.Paged) (hz : d.zeroPage % PageSize = 0)
    (hzero : d.frames.InUse env.map.pmm d.zeroPage)
    (hfree : ∀ page, range.HasPage page → env.map.map page = none) (length attachArg : ℕ)
    (flags : VmFlags)
    (hattach : (d.machine.anonAttach env range (d.machine.anonQuery env length flags attachArg).1
      attachArg).2 = env') (ops : List FaultOp) :
    Allowed (d.faultStep range) (d.KeepsFrames range) env' ops ↔
      Allowed (d.faultStep range) (d.WindowClear range) env' ops := by
  have hmode : (d.machine.anonQuery env length flags attachArg).1.hatMode = 0 := rfl
  rw [anonAttach_eq hr hz _ hmode] at hattach
  refine allowed_iff (fun env => RangeInv d range env.map) ?_ ?_ ?_ ops
  · exact fun env op h => keepsFrames_iff hr h op
  · exact fun env op env' h _ hrun => rangeInv_step hr h hrun
  · rw [← hattach]
    exact RangeInv.attached hzero hfree attachArg

/-! ### Two pages -/

/-- Two writable pages. -/
def twoPages : VmRange := ⟨0x10000, 0x2000, 0x1000001#64, 0, 0, 0⟩

/-- The driver with these features, before the first allocation. -/
def fresh (enableFeatures : ℕ) : AnonVmDriver (List ℕ) × AnonState (List ℕ) :=
  init Frames.counting enableFeatures ⟨.empty, fun _ => 0#8, [0], true⟩

/-- The environment of an address space that is not used yet. -/
def freshEnv (enableFeatures : ℕ) : VmEnv (AnonState (List ℕ)) :=
  ⟨⟨0, 0, 0, 0, 0, 0, 0, 0, 0⟩, (fresh enableFeatures).2⟩

/-- The two pages are attached to it. -/
def freshTwo (enableFeatures : ℕ) : VmEnv (AnonState (List ℕ)) :=
  ((fresh enableFeatures).1.machine.anonAttach (freshEnv enableFeatures) twoPages
    ((fresh enableFeatures).1.machine.anonQuery (freshEnv enableFeatures) 0x2000 twoPages.flags
      0).1 0).2

/-- One fault at the first page backs both; a store to the second page stays. -/
theorem faults_keep_iff_twoPages :
    Allowed ((fresh 3).1.faultStep twoPages) ((fresh 3).1.KeepsFrames twoPages) (freshTwo 3)
      [.fault 0x10000, .store 0x11000 7#8] := by
  have hzero : (fresh 3).1.frames.InUse (freshEnv 3).map.pmm (fresh 3).1.zeroPage :=
    List.mem_cons_self
  exact (faults_keep_iff (by decide +kernel) (by decide +kernel) hzero (fun _ _ => rfl) 0x2000 0
    twoPages.flags rfl _).mpr (by decide +kernel)

/-- **The second page is written first.**  With the zero page, the fault of the first page gives
the second one a new frame, and what was written is lost; without it, the assertion fires. -/
theorem faults_lose_page :
    (run ((fresh 3).1.faultStep twoPages) (freshTwo 3)
      [.fault 0x11000, .store 0x11000 7#8]).map (fun env =>
        ((env.map.map 0x11).map Pte.frame, env.map.read 0x11000)) =
      some (some 0x2000, some 7#8) ∧
    (run ((fresh 3).1.faultStep twoPages) (freshTwo 3)
      [.fault 0x11000, .store 0x11000 7#8, .fault 0x10000]).map (fun env =>
        ((env.map.map 0x11).map Pte.frame, env.map.read 0x11000)) =
      some (some 0x4000, some 0xFF#8) ∧
    (run ((fresh 1).1.faultStep twoPages) (freshTwo 1)
      [.fault 0x11000, .store 0x11000 7#8]).isSome = true ∧
    (run ((fresh 1).1.faultStep twoPages) (freshTwo 1)
      [.fault 0x11000, .store 0x11000 7#8, .fault 0x10000]).isSome = false := by
  refine ⟨?_, ?_, ?_, ?_⟩ <;> decide +kernel

end AnonVmDriver

end Northport.Memory
