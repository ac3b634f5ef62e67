/-
# Does the mapping contain what was asked for?

`Query` sizes a range from the length alone; `Attach` shifts the address that `Alloc` returns
by the misalignment of its argument.  So the window that the caller asked for can end behind
its range.  An allocation that fails changes nothing, since `Query` has no effects and `Attach`
refuses before it has any.
-/
import Northport.Memory.KernelVmm
import Northport.Memory.VmDriverAttach

namespace Northport.Memory

open Lib Northport.RBTree List VmMachine

namespace VmMachine

variable {σ : Type} (M : VmMachine σ)

/-- The HAT mode of the mappings with these flags. -/
def hatMode (flags : VmFlags) : ℕ :=
  if flags.has .anon then 0 else if flags.has .file then M.fileCacheHatMode else 0

/-- The size of the range that `Alloc` creates. -/
def rangeSize (length : ℕ) (flags : VmFlags) : ℕ :=
  (M.queryMode (M.hatMode flags) length flags).length

/-- How far the argument lies behind the start of its granule: the offset in the file, or the
physical address. -/
def misalignment (initArg : ℕ) (flags : VmFlags) : ℕ :=
  if flags.has .anon then 0
  else if flags.has .file then (M.fileArg initArg).offset % M.granularity M.fileCacheHatMode
  else initArg % M.granularity 0

variable {M} {rest : VmDrivers σ} {driver : VmDriver σ} {env env' : VmEnv σ} {length initArg : ℕ}
  {flags : VmFlags} {query : QueryResult} {range : VmRange} {result : AttachResult}

section

variable (hdriver : (M.drivers rest).getDriver flags = some driver)
include hdriver

/-- `Query` changes nothing, and the three drivers size a range in the same way. -/
lemma drivers_query (hquery : driver.query env length flags initArg = (query, env')) :
    env' = env ∧ (query.success = true → query = M.queryMode (M.hatMode flags) length flags) := by
  unfold VmDrivers.getDriver at hdriver
  unfold hatMode
  split_ifs at hdriver ⊢ with h1 h2 h3 <;> cases hdriver
  · cases hquery
    exact ⟨rfl, fun _ => rfl⟩
  · simp only [drivers, vfsQuery] at hquery
    split at hquery
    · cases hquery
      exact ⟨rfl, nofun⟩
    · split_ifs at hquery <;> cases hquery
      · exact ⟨rfl, nofun⟩
      · exact ⟨rfl, fun _ => rfl⟩
  · cases hquery
    exact ⟨rfl, fun _ => rfl⟩

/-- The offset of an attached range is the misalignment of its argument.  An `Attach` that is refused
has changed nothing: the file is looked up first. -/
lemma drivers_attach (hattach : driver.attach env range query initArg = (result, env')) :
    (result.success = true → ∀ length, query = M.queryMode (M.hatMode flags) length flags →
      result.offset = M.misalignment initArg flags) ∧ (result.success = false → env' = env) := by
  unfold VmDrivers.getDriver at hdriver
  unfold misalignment hatMode
  split_ifs at hdriver ⊢ with h1 h2 h3 <;> cases hdriver
  · simp only [drivers, anonAttach] at hattach
    split_ifs at hattach <;> cases hattach <;> exact ⟨fun _ _ _ => rfl, nofun⟩
  · simp only [drivers, vfsAttach] at hattach
    split at hattach
    · cases hattach
      exact ⟨nofun, fun _ => rfl⟩
    · split_ifs at hattach <;> cases hattach
      · exact ⟨nofun, fun _ => rfl⟩
      · exact ⟨fun _ _ h => by cases h; rfl, nofun⟩
      · exact ⟨fun _ _ h => by cases h; rfl, nofun⟩
  · cases hattach
    exact ⟨fun _ _ h => by cases h; rfl, nofun⟩

end

variable (M) in
lemma misalignment_lt (initArg : ℕ) (flags : VmFlags) :
    M.misalignment initArg flags < wordSize := by
  unfold misalignment
  split_ifs
  · exact wordSize_pos
  · exact (Nat.mod_lt _ (M.granularity_pos _)).trans (M.granularity_lt _)
  · exact (Nat.mod_lt _ (M.granularity_pos _)).trans (M.granularity_lt _)

end VmMachine

namespace Vmm

variable {P σ : Type} [DecidableEq P] {m : MetaAlloc P} {v v0 v' : Vmm P σ} {length initArg : ℕ}
  {flags : VmFlags} {limits : VmAllocLimits} {ops : List (VmmOp σ)}

/-- A VMM as one of its two constructors leaves it. -/
inductive Built (m : MetaAlloc P) (v : Vmm P σ) : Prop
  | user (platform : Platform) (env : VmEnv σ) (rangeMem : P → VmRange) (holeMem : P → VmHole)
      (h : user m platform env rangeMem holeMem = some v) : Built m v
  | kernel (layout : KernelLayout) (hreg : layout.Regular) (k : KernelRanges P) (env : VmEnv σ)
      (rangeMem : P → VmRange) (holeMem : P → VmHole)
      (h : kernel m layout k env rangeMem holeMem = some v) : Built m v

lemma Built.wf (h : Built m v) : ∃ image, Wf image v [] := by
  cases h with
  | user platform env rangeMem holeMem h =>
    obtain ⟨v', h', hwf, -⟩ := user_spec (m := m) platform env rangeMem holeMem
    cases h'.symm.trans h
    exact ⟨[], hwf⟩
  | kernel layout hreg k env rangeMem holeMem h =>
    obtain ⟨v', h', hwf⟩ := kernel_wf m hreg k env rangeMem holeMem
    cases h'.symm.trans h
    exact ⟨_, hwf⟩

/-- Whether a window of a range is inside of it depends on its offset only. -/
lemma window_iff {b n offset : ℕ} (hb : b + n < wordSize) (hoffset : offset < wordSize) :
    (b ≤ add64 b offset ∧ add64 b offset + length ≤ b + n) ↔ offset + length ≤ n := by
  by_cases hwrap : b + offset < wordSize
  · rw [add64_eq hwrap]
    omega
  · have hadd : add64 b offset = b + offset - wordSize := by
      rw [add64, Nat.mod_eq_sub_mod (by omega), Nat.mod_eq_of_lt (by omega)]
    omega

/-- What an allocation does after any history of a user's or the kernel's VMM. -/
lemma Built.alloc {drivers : VmDrivers σ} {r : Option ℕ} (hbuilt : Built m v0)
    (hrun : run (step m) v0 ops = some v)
    (halloc : v.alloc m drivers length initArg flags limits = some (v', r)) :
    (∃ image, Wf image v' []) ∧ AllocOutcome drivers v length initArg flags limits v' r := by
  obtain ⟨image, hwf0⟩ := hbuilt.wf
  obtain ⟨v1, hrun1, hwf, -⟩ := run_spec (m := m) ops hwf0
  cases hrun1.symm.trans hrun
  obtain ⟨v2, r2, halloc2, hwf', -, -, hout⟩ :=
    alloc_spec (m := m) drivers length initArg flags limits hwf
  cases halloc2.symm.trans halloc
  exact ⟨⟨image, hwf'⟩, hout⟩

/-- After any history of a user's or the kernel's VMM: the size of the range that an allocation
creates, and where in it the address lies that is returned. -/
lemma alloc_place {M : VmMachine σ} {rest : VmDrivers σ} {r : ℕ} (hbuilt : Built m v0)
    (hrun : run (step m) v0 ops = some v)
    (halloc : v.alloc m (M.drivers rest) length initArg flags limits = some (v', some r)) :
    ∃ b, v'.rangeSpans = ⟨b, M.rangeSize length flags⟩ :: v.rangeSpans ∧
      r = add64 b (M.misalignment initArg flags) ∧ b + M.rangeSize length flags < wordSize := by
  obtain ⟨⟨image, hwf'⟩, hout⟩ := hbuilt.alloc hrun halloc
  cases hout with
  | attached driver query result b env env' _ hdriver hquery accepted hattach success _ ranges _ =>
    obtain rfl := (drivers_query hdriver hquery).2 accepted
    have ranges : v'.rangeSpans = ⟨b, M.rangeSize length flags⟩ :: v.rangeSpans := by
      rw [rangeSpans_eq, ranges, map_cons, ← rangeSpans_eq]
      rfl
    have hoffset := (drivers_attach hdriver hattach).1 success _ rfl
    have hspan : (⟨b, M.rangeSize length flags⟩ : Span) ∈ v'.rangeSpans := by
      rw [ranges]
      exact mem_cons_self
    have hin := hwf'.inside _ (mem_append_right _ hspan)
    rw [hoffset]
    exact ⟨b, ranges, rfl, lt_of_le_of_lt hin.2 hwf'.upper_lt⟩

/-- **When the window that was asked for is mapped.**  After any history of a user's or the
kernel's VMM, the range that an allocation creates contains the whole window from the address
it returns exactly when the misalignment of the argument and the length together do not
exceed the size that `Query` computed from the length. -/
theorem alloc_window_iff (M : VmMachine σ) (rest : VmDrivers σ) {ops : List (VmmOp σ)}
    {length initArg r : ℕ} {flags : VmFlags} {limits : VmAllocLimits} (hbuilt : Built m v0)
    (hrun : run (step m) v0 ops = some v)
    (halloc : v.alloc m (M.drivers rest) length initArg flags limits = some (v', some r)) :
    ∃ b, v'.rangeSpans = ⟨b, M.rangeSize length flags⟩ :: v.rangeSpans ∧
      ((b ≤ r ∧ r + length ≤ b + M.rangeSize length flags) ↔
        M.misalignment initArg flags + length ≤ M.rangeSize length flags) := by
  obtain ⟨b, hspans, rfl, hb⟩ := alloc_place hbuilt hrun halloc
  exact ⟨b, hspans, window_iff hb (M.misalignment_lt _ _)⟩

/-- A machine with pages of one size, one file that is not cached, and no effects. -/
def flatMachine : VmMachine Unit where
  granularity _ := 0x1000
  granularity_pos _ := by decide
  granularity_lt _ := by decide
  hatDoMap map _ _ _ _ := map
  pmmAlloc map := (0, map)
  coresReady _ := true
  anonFaultHandler := true
  anonZeroPage := false
  zeroPage := 0
  vfsFaultHandler := true
  fileArg offset := { id := ⟨1, 1⟩, offset := offset }
  vfsLookup _ _ := none
  vfsGetAttribs _ _ := some .file
  getVfsNode _ _ := some .file
  fileCacheHatMode := 0
  fileCacheUnitSize := 0x1000
  getFileCacheUnit map _ _ := (none, map)
  newLink map _ := (0, map)

/-- The kernel's VMM, before any call. -/
def bootKernel : Option (Vmm ℕ Unit) :=
  kernel .counting x86Layout ⟨1, 2, 3, by decide⟩ ⟨⟨0, 0, 0, 0, 0, 0, 0, 0, 0⟩, ()⟩
    (fun _ => ⟨0, 0, 0, 0, 0, 0⟩) fun _ => ⟨0, 0, 0⟩

/-- A page of device registers at an aligned address, mapped behind an earlier mapping. -/
theorem alloc_window_iff_mmio : ∃ v0 v v', bootKernel = some v0 ∧
    run (step .counting) v0 [.alloc (flatMachine.drivers pageDrivers) 0x1000 0xFEC00000
      (1#64 <<< 25) {}] = some v ∧
    v.alloc .counting (flatMachine.drivers pageDrivers) 0x1000 0xFEE00000 (1#64 <<< 25) {}
      = some (v', some 0xFFFF800100001000) ∧
    ∃ b, v'.rangeSpans = ⟨b, flatMachine.rangeSize 0x1000 (1#64 <<< 25)⟩ :: v.rangeSpans ∧
      ((b ≤ 0xFFFF800100001000 ∧
          0xFFFF800100001000 + 0x1000 ≤ b + flatMachine.rangeSize 0x1000 (1#64 <<< 25)) ↔
        flatMachine.misalignment 0xFEE00000 (1#64 <<< 25) + 0x1000
          ≤ flatMachine.rangeSize 0x1000 (1#64 <<< 25)) := by
  obtain ⟨v0, v, v', h0, hrun, halloc⟩ : ∃ v0 v v', bootKernel = some v0 ∧
      run (step .counting) v0 [.alloc (flatMachine.drivers pageDrivers) 0x1000 0xFEC00000
        (1#64 <<< 25) {}] = some v ∧
      v.alloc .counting (flatMachine.drivers pageDrivers) 0x1000 0xFEE00000 (1#64 <<< 25) {}
        = some (v', some 0xFFFF800100001000) := ⟨_, _, _, rfl, rfl, rfl⟩
  exact ⟨v0, v, v', h0, hrun, halloc, alloc_window_iff flatMachine pageDrivers
    (.kernel x86Layout ⟨by decide, by decide⟩ _ _ _ _ h0) hrun halloc⟩

/-- A page of device registers that starts four bytes behind the start of a page: the range
is one page long, and the last four bytes of the window lie behind it. -/
theorem alloc_window_exceeds_range : ∃ v0 v', bootKernel = some v0 ∧
    v0.alloc .counting (flatMachine.drivers pageDrivers) 0x1000 0xFEC00004 (1#64 <<< 25) {}
      = some (v', some 0xFFFF800100000004) ∧
    v'.rangeSpans = ⟨0xFFFF800100000000, 0x1000⟩ :: v0.rangeSpans ∧
    ¬ 0xFFFF800100000004 + 0x1000 ≤ 0xFFFF800100000000 + 0x1000 :=
  ⟨_, _, rfl, rfl, rfl, by decide⟩

/-! ### Allocations that fail -/

/-- **An allocation that returns no address leaves everything as it was**, after any history and
wherever it fails: the free addresses, the ranges, and the page tables and statistics in the
environment.  What was cut off a hole before `Attach` was refused is a hole of its own again. -/
theorem alloc_none_unchanged (M : VmMachine σ) (rest : VmDrivers σ) {ops : List (VmmOp σ)}
    {length initArg : ℕ} {flags : VmFlags} {limits : VmAllocLimits} (hbuilt : Built m v0)
    (hrun : run (step m) v0 ops = some v)
    (halloc : v.alloc m (M.drivers rest) length initArg flags limits = some (v', none)) :
    (∀ a, (∃ s ∈ v'.holeSpans, s.Contains a) ↔ ∃ s ∈ v.holeSpans, s.Contains a) ∧
      v'.rangeList = v.rangeList ∧ v'.env = v.env := by
  cases (hbuilt.alloc hrun halloc).2 with
  | refused holes ranges env why =>
    refine ⟨fun a => by rw [holes], ranges, ?_⟩
    rcases env with henv | ⟨driver, hdriver, henv⟩
    · exact henv
    · exact henv.trans (drivers_query hdriver rfl).1
  | returned driver query result b env env' rest _ hdriver hquery _ hattach failed cut holes ranges
      henv =>
    refine ⟨fun a => ?_, ranges, ?_⟩
    · rw [← cover_pos, ← cover_pos, holes, cut.cover_eq]
    · rw [henv, (drivers_attach hdriver hattach).2 failed]
      exact (drivers_query hdriver hquery).1

/-- The file has attributes, but its node is gone when it is attached. -/
theorem alloc_none_unchanged_file : ∃ v0 v', bootKernel = some v0 ∧
    v0.alloc .counting (drivers { flatMachine with getVfsNode := fun _ _ => none }
      pageDrivers) 0x1000 0 (1#64 <<< 26) {} = some (v', none) ∧ v'.rangeList = v0.rangeList := by
  obtain ⟨v0, v', h0, halloc⟩ : ∃ v0 v', bootKernel = some v0 ∧
    v0.alloc .counting (drivers { flatMachine with getVfsNode := fun _ _ => none }
      pageDrivers) 0x1000 0 (1#64 <<< 26) {} = some (v', none) := ⟨_, _, rfl, rfl⟩
  exact ⟨v0, v', h0, halloc, (alloc_none_unchanged _ pageDrivers
    (.kernel x86Layout ⟨by decide, by decide⟩ _ _ _ _ h0)
    (show run (step .counting) v0 [] = some v0 from rfl) halloc).2.1⟩

end Vmm

end Northport.Memory
