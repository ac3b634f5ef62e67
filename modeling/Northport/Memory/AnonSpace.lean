/-
# Address spaces of anonymous memory

What the calls of a VMM do when all its ranges are anonymous: the calls of `Vmm` together with
the callbacks of `AnonVmDriver`, one lemma for each call.
-/
import Northport.Memory.AnonVmSteps
import Northport.Memory.UserVmm
import Northport.Memory.VmmFault

namespace Northport.Memory

open Lib PageMap List Option

@[simp] lemma VmmStats.countRange_resident (stats : VmmStats) (flags : VmFlags) (f : ℕ → ℕ) :
    (stats.countRange flags f).anonResidentSize = stats.anonResidentSize := by
  rw [countRange]
  split_ifs <;> rfl

variable {P τ : Type} [DecidableEq P] {m : MetaAlloc P} {d : AnonVmDriver τ}

namespace AnonVmDriver

/-- The length of the range for a request. -/
def rangeSize (length : ℕ) (flags : VmFlags) : ℕ :=
  let size := alignUp length PageSize
  if flags.has .guarded then add64 size (mul64 2 PageSize) else size

lemma rangeSize_mod (length : ℕ) (flags : VmFlags) : rangeSize length flags % PageSize = 0 := by
  have hsize : wordSize = 2 ^ 64 := rfl
  simp only [rangeSize, alignUp, add64, mul64, hsize, PageSize]
  split_ifs <;> omega

/-- The range that `Alloc` makes at `b`. -/
def anonRange (b length : ℕ) (flags : VmFlags) : VmRange :=
  ⟨b, rangeSize length flags, flags, 0, 0, 0⟩

lemma getDriver_anon {flags : VmFlags} (h : flags.has .anon = true) :
    d.drivers.getDriver flags = some d.vmDriver := if_pos h

end AnonVmDriver

namespace Vmm

open AnonVmDriver

variable {v v' : Vmm P (AnonState τ)} {addr base : ℕ} {range : VmRange} {flags : VmFlags}
  {r : Option ℕ}

/-- The range that `FindRange` finds. -/
def rangeAt (v : Vmm P (AnonState τ)) (addr : ℕ) : Option VmRange :=
  ((v.findRange addr).getD none).map v.ranges.tree.item

omit [DecidableEq P] in
lemma rangeAt_eq {p : P} (hfind : v.findRange addr = some (some p))
    (hrange : v.ranges.tree.item p = range) : v.rangeAt addr = some range := by
  rw [rangeAt, hfind, ← hrange]
  rfl

/-- **An address space of anonymous memory.** -/
structure Anon (v : Vmm P (AnonState τ)) : Prop where
  wf : Wf [] v []
  holes : ∀ s ∈ v.holeSpans, s.base % PageSize = 0
  ranges : ∀ range ∈ v.rangeList, range.Paged ∧ range.flags.has .anon = true ∧ range.mdlCount = 0

lemma Anon.rangeAt_mem (h : v.Anon) (hat : v.rangeAt addr = some range) :
    range ∈ v.rangeList ∧ range.base ≤ addr ∧ addr < range.base + range.length := by
  obtain ⟨r, hfind, hspec⟩ := findRange_spec h.wf.ranges addr
  rw [rangeAt, hfind] at hat
  obtain ⟨p, rfl, rfl⟩ := map_eq_some_iff.mp hat
  obtain ⟨hp, hlo, hhi⟩ := hspec p rfl
  rw [h.wf.top_eq hp rfl] at hhi
  exact ⟨mem_map_of_mem hp, hlo, hhi⟩

/-- Two ranges have no page in common. -/
lemma Anon.apart (h : v.Anon) {rest : List VmRange} (hperm : v.rangeList.Perm (range :: rest))
    {other : VmRange} (hother : other ∈ rest) {page : ℕ} (hpage : range.HasPage page) :
    ¬ other.HasPage page := by
  intro hpage'
  have hone := cover_le_one (tilesOver_nil.mp h.wf.tiles) (page * PageSize)
  have hcover := cover_perm (hperm.map VmRange.span) (page * PageSize)
  rw [← rangeSpans_eq, map_cons, cover_cons] at hcover
  have hdiv : page * PageSize / PageSize = page := Nat.mul_div_cancel _ (by decide)
  have hin : range.span.Contains (page * PageSize) :=
    (h.ranges range (hperm.mem_iff.mpr mem_cons_self)).1.hasPage_iff.mp (by rw [hdiv]; exact hpage)
  have hin' : other.span.Contains (page * PageSize) :=
    (h.ranges other (hperm.mem_iff.mpr (mem_cons_of_mem _ hother))).1.hasPage_iff.mp
      (by rw [hdiv]; exact hpage')
  have hpos : 0 < cover (rest.map VmRange.span) (page * PageSize) := cover_map_pos hother hin'
  rw [if_pos hin] at hcover
  simp only [nil_append, cover_append] at hone
  omega

lemma insertHole_env {b n x : ℕ} (h : v.insertHole m b n x = some v') : v'.env = v.env := by
  simp only [insertHole, bind_eq_bind, bind_eq_some_iff] at h
  obtain ⟨holes, -, h⟩ := h
  cases h
  rfl

/-- A user's address space, before any call. -/
lemma anon_user {platform : Platform} (hg : platform.granularity = PageSize)
    {env : VmEnv (AnonState τ)} {rangeMem : P → VmRange} {holeMem : P → VmHole}
    (hv : user m platform env rangeMem holeMem = some v) :
    v.Anon ∧ v.rangeList = [] ∧ v.env = env := by
  have hroom := platform.room
  have hlt : sub64 (not64 platform.hhdmBase) platform.granularity < wordSize := sub64_lt _ _
  have hnot : not64 platform.hhdmBase < wordSize := by
    rw [not64_eq platform.hhdmBase_lt]
    omega
  have hle : platform.granularity ≤ sub64 (not64 platform.hhdmBase) platform.granularity := by
    rw [sub64_eq hnot (by omega)]
    omega
  obtain ⟨v0, h0, hwf, -, -, -, hholes, hranges⟩ := commonInit_spec (m := m) env rangeMem holeMem
    platform.granularity_pos hle hlt
  cases hv.symm.trans h0
  have hnil : v.rangeList = [] := by
    rw [rangeSpans_eq] at hranges
    exact map_eq_nil_iff.mp hranges
  refine ⟨⟨hwf, ?_, by simp [hnil]⟩, hnil, insertHole_env h0⟩
  rw [hholes, forall_mem_singleton]
  simp only [hg, Nat.mod_self]

/-! ### The calls -/

/-- The holes that are left when a range of whole pages is cut off one of them. -/
lemma Cut.base_mod {before after : List Span} {b n : ℕ} (h : Cut before after b n)
    (hbefore : ∀ s ∈ before, s.base % PageSize = 0) (hn : n % PageSize = 0) :
    b % PageSize = 0 ∧ ∀ s ∈ after, s.base % PageSize = 0 := by
  obtain ⟨k, rest, -, hperm, hafter⟩ := h
  have hb : b % PageSize = 0 := hbefore ⟨b, k⟩ (hperm.mem_iff.mpr mem_cons_self)
  refine ⟨hb, fun s hs => ?_⟩
  rcases mem_append.mp (hafter.mem_iff.mp hs) with hs | hs
  · split_ifs at hs with hlt
    · obtain rfl := mem_singleton.mp hs
      rw [PageSize] at *
      simp only
      omega
    · cases hs
  · exact hbefore s (hperm.mem_iff.mpr (mem_cons_of_mem _ hs))

/-- **`Alloc`** of anonymous memory. -/
lemma Anon.alloc (h : v.Anon) (hz : d.zeroPage % PageSize = 0) {length initArg : ℕ}
    {limits : VmAllocLimits} (hanon : flags.has .anon = true)
    (hrun : v.alloc m d.drivers length initArg flags limits = some (v', r)) :
    v'.Anon ∧ ((r = none ∧ v'.rangeList = v.rangeList ∧ v'.env = v.env) ∨
      ∃ b, r = some b ∧ v'.rangeList = anonRange b length flags :: v.rangeList ∧
        v'.env = ⟨(d.attachStats (anonRange b length flags) initArg v.env).countRange flags
          (add64 · 1), d.attached (anonRange b length flags) initArg v.env.map⟩) := by
  obtain ⟨v1, r1, hrun1, hwf, -, -, hout⟩ :=
    alloc_spec (m := m) d.drivers length initArg flags limits h.wf
  cases hrun.symm.trans hrun1
  cases hout with
  | refused holes ranges env _ =>
    have henv : v'.env = v.env := by
      rcases env with henv | ⟨driver, hdriver, henv⟩
      · exact henv
      · rw [getDriver_anon hanon] at hdriver
        cases hdriver
        exact henv
    refine ⟨⟨hwf, ?_, ?_⟩, .inl ⟨rfl, ranges, henv⟩⟩
    · rw [holes]
      exact h.holes
    · rw [ranges]
      exact h.ranges
  | attached driver query result b env env' _ hdriver hquery _ hattach _ holes ranges henv =>
    rw [getDriver_anon hanon] at hdriver
    cases hdriver
    cases hquery
    have hmod := rangeSize_mod length flags
    obtain ⟨hb, hholes⟩ := holes.base_mod h.holes hmod
    have hmem : (⟨b, rangeSize length flags⟩ : Span) ∈ v'.rangeSpans := by
      rw [rangeSpans_eq, ranges]
      exact mem_cons_self
    have hin := hwf.inside _ (mem_append_right _ hmem)
    have hpaged : (anonRange b length flags).Paged :=
      ⟨⟨hb, hmod, lt_of_le_of_lt hin.2 hwf.upper_lt⟩, rfl⟩
    have hattach' := anonAttach_eq (d := d) hpaged hz (d.machine.queryMode 0 length flags) rfl v.env
      initArg
    obtain ⟨rfl, rfl⟩ := Prod.mk.inj (hattach.symm.trans hattach')
    have hrlist : v'.rangeList = anonRange b length flags :: v.rangeList := ranges
    refine ⟨⟨hwf, hholes, ?_⟩, .inr ⟨b, ?_, hrlist, henv⟩⟩
    · rw [hrlist]
      exact forall_mem_cons.mpr ⟨⟨hpaged, hanon, rfl⟩, h.ranges⟩
    · have hlt := hpaged.top
      have hb0 : add64 b 0 = b := add64_eq (lt_of_le_of_lt (Nat.le_add_right _ _) hlt)
      exact congrArg some hb0
  | returned driver query result b env env' rest _ hdriver hquery _ hattach failed cut _ _ _ =>
    rw [getDriver_anon hanon] at hdriver
    cases hdriver
    have hsuccess := anonAttach_success d env ⟨b, query.length, flags, 0, 0, 0⟩ query initArg
    rw [show d.machine.anonAttach env _ query initArg = (result, env') from hattach, failed]
      at hsuccess
    exact absurd hsuccess Bool.false_ne_true

/-- **`Free`** of anonymous memory. -/
lemma Anon.free (h : v.Anon) {r : Bool} (hrun : v.free m d.drivers base = some (v', r)) :
    v'.Anon ∧ ((v' = v ∧ v.rangeAt base = none) ∨
      ∃ range, v.rangeAt base = some range ∧ v.rangeList.Perm (range :: v'.rangeList) ∧
        v'.env = d.detachPage range ⟨{ v.env.stats.countRange range.flags (sub64 · 1) with
          anonWorkingSize := sub64 (v.env.stats.countRange range.flags (sub64 · 1)).anonWorkingSize
            (sub64 range.length range.offset) }, v.env.map⟩) := by
  obtain ⟨v1, r1, hrun1, hwf, -, hout⟩ := free_spec (m := m) d.drivers base h.wf
  cases hrun.symm.trans hrun1
  cases hout with
  | refused same why =>
    subst same
    refine ⟨h, .inl ⟨rfl, ?_⟩⟩
    obtain ⟨q, hfind, hspec⟩ := findRange_spec h.wf.ranges base
    cases q with
    | none => rw [rangeAt, hfind]; rfl
    | some p =>
      have hmem : v'.ranges.tree.item p ∈ v'.rangeList := mem_map_of_mem (hspec p rfl).1
      exact absurd (h.ranges _ hmem).2.2 (why p hfind)
  | detached p range driver success env hfind hrange found hdriver hdetach before henv holes _ =>
    obtain ⟨hpaged, hanon, -⟩ := h.ranges range (before.mem_iff.mpr mem_cons_self)
    rw [getDriver_anon hanon] at hdriver
    cases hdriver
    have hpos : 0 < range.pageCount := by
      have hpage := hpaged.hasPage_iff.mpr found
      have h1 := hpage.1
      have h2 := hpage.2
      omega
    obtain ⟨rfl, rfl⟩ := Prod.mk.inj (hdetach.symm.trans (detach_eq _ hpaged.toWhole hpos))
    refine ⟨⟨hwf, ?_, ?_⟩, .inr ⟨range, rangeAt_eq hfind hrange, before, henv⟩⟩
    · rw [holes]
      exact forall_mem_cons.mpr ⟨hpaged.base, h.holes⟩
    · exact fun other hother => h.ranges other (before.mem_iff.mpr (mem_cons_of_mem _ hother))

omit [DecidableEq P] in
lemma has_anon_newFlags {old : VmFlags} (flags : VmFlags) (h : old.has .anon = true) :
    (newFlags old flags).has .anon = true := by
  have hmask : vmFlagTypeMask.getLsbD 24 = true := by decide
  simp only [VmFlags.has, VmFlag.index] at h
  simp only [newFlags, VmFlags.has, VmFlag.index, BitVec.getLsbD_or, BitVec.getLsbD_and, h, hmask,
    Bool.and_self, Bool.true_or]

/-- **`SetFlags`** of anonymous memory. -/
lemma Anon.setFlags (h : v.Anon) {r : Bool}
    (hrun : v.setFlags d.drivers base flags = some (v', r)) :
    v'.Anon ∧ ((r = false ∧ v'.rangeList.Perm v.rangeList ∧ v'.env = v.env) ∨
      ∃ range rest, r = true ∧ v.rangeAt base = some range ∧ v.rangeList.Perm (range :: rest) ∧
        v'.rangeList.Perm ({ range with flags := newFlags range.flags flags } :: rest) ∧
        v'.env = ⟨v.env.stats, { v.env.map with
          map := synced range.firstPage (fun _ pte =>
            ⟨pte.frame, modifiedFlags range (flagArgs range.flags flags)⟩) v.env.map.map
            range.pageCount }⟩) := by
  obtain ⟨v1, r1, hrun1, hwf, -, hholes, -, hout⟩ := setFlags_spec d.drivers base flags h.wf
  cases hrun.symm.trans hrun1
  have holes : ∀ s ∈ v'.holeSpans, s.base % PageSize = 0 := by
    rw [hholes]
    exact h.holes
  cases hout with
  | refused same _ =>
    subst same
    exact ⟨h, .inl ⟨rfl, Perm.refl _, rfl⟩⟩
  | modified p range driver success env rest hfind hrange _ hdriver hmodify before after henv =>
    obtain ⟨hpaged, hanon, hmdl⟩ := h.ranges range (before.mem_iff.mpr mem_cons_self)
    rw [getDriver_anon hanon] at hdriver
    cases hdriver
    have hmod := hmodify.symm.trans (modifyRange_eq v.env hpaged (flagArgs range.flags flags))
    split_ifs at hmod with hguard
    · cases hmod
      have hperm : v'.rangeList.Perm v.rangeList := after.trans before.symm
      exact ⟨⟨hwf, holes, fun other hother => h.ranges other (hperm.mem_iff.mp hother)⟩,
        .inl ⟨rfl, hperm, henv⟩⟩
    · cases hmod
      refine ⟨⟨hwf, holes, fun other hother => ?_⟩,
        .inr ⟨range, rest, rfl, rangeAt_eq hfind hrange, before, after, henv⟩⟩
      rcases mem_cons.mp (after.mem_iff.mp hother) with rfl | hother
      · exact ⟨{ hpaged with }, has_anon_newFlags flags hanon, hmdl⟩
      · exact h.ranges other (before.mem_iff.mpr (mem_cons_of_mem _ hother))

omit [DecidableEq P] in
lemma split_env (env : VmEnv (AnonState τ)) (range : VmRange) (offset : ℕ) :
    (AnonVmDriver.split env range offset).2 = env := by
  rw [AnonVmDriver.split]
  split_ifs <;> rfl

/-- **`Split`** of anonymous memory. -/
lemma Anon.split (h : v.Anon) {offset : ℕ} (hrun : v.split m d.drivers base offset = some (v', r)) :
    v'.Anon ∧ v'.env.map = v.env.map ∧
      v'.env.stats.anonResidentSize = v.env.stats.anonResidentSize ∧
      (v'.rangeList = v.rangeList ∨ ∃ range rest x, x % PageSize = 0 ∧ x ≤ range.length ∧
        v.rangeList.Perm (range :: rest) ∧
        v'.rangeList.Perm ({ range with length := x } ::
          ⟨range.base + x, range.length - x, range.flags, 0, range.token, 0⟩ :: rest)) := by
  obtain ⟨v1, r1, hrun1, hwf, -, hholes, -, hout⟩ := split_spec (m := m) d.drivers base offset h.wf
  cases hrun.symm.trans hrun1
  have holes : ∀ s ∈ v'.holeSpans, s.base % PageSize = 0 := by
    rw [hholes]
    exact h.holes
  cases hout with
  | same ranges env =>
    have henv : v'.env = v.env := by
      rcases env with henv | ⟨range, driver, x, hmem, hdriver, henv⟩
      · exact henv
      · rw [getDriver_anon (h.ranges range hmem).2.1] at hdriver
        cases hdriver
        exact henv.trans (split_env v.env range x)
    refine ⟨⟨hwf, holes, ?_⟩, by rw [henv], by rw [henv], .inl ranges⟩
    rw [ranges]
    exact h.ranges
  | cut range driver x result env rest hdriver hsplit success before after henv =>
    obtain ⟨hpaged, hanon, hmdl⟩ := h.ranges range (before.mem_iff.mpr mem_cons_self)
    rw [getDriver_anon hanon] at hdriver
    cases hdriver
    have hsplit' : AnonVmDriver.split v.env range x = (result, env) := hsplit
    have henv' : env = v.env := by
      have hsame := split_env v.env range x
      rw [hsplit'] at hsame
      exact hsame
    rw [AnonVmDriver.split] at hsplit'
    split_ifs at hsplit' with hle
    · cases hsplit'
      cases success
    · cases hsplit'
      generalize hy : alignUp x (granularity range.token) = y at after hle
      have hymod : y % PageSize = 0 := by
        have hsize : wordSize = 2 ^ 64 := rfl
        have hg : granularity 0 = 0x1000 := rfl
        rw [← hy, hpaged.token, hg, alignUp, mul64, hsize, PageSize]
        omega
      have hyle : y ≤ range.length := by omega
      have htop := hpaged.top
      have hbase := hpaged.base
      have hlength := hpaged.length
      have hlow : ({ range with length := y } : VmRange).Paged :=
        ⟨⟨hbase, hymod, by simp only; omega⟩, hpaged.token⟩
      have hhigh : (⟨range.base + y, range.length - y, range.flags, 0, range.token, 0⟩ :
          VmRange).Paged := by
        refine ⟨⟨?_, ?_, by simp only; omega⟩, hpaged.token⟩
        · rw [PageSize] at *
          simp only
          omega
        · rw [PageSize] at *
          simp only
          omega
      refine ⟨⟨hwf, holes, fun other hother => ?_⟩, by rw [henv, henv'], ?_,
        .inr ⟨range, rest, y, hymod, hyle, before, after⟩⟩
      · rcases mem_cons.mp (after.mem_iff.mp hother) with rfl | hother
        · exact ⟨hlow, hanon, hmdl⟩
        · rcases mem_cons.mp hother with rfl | hother
          · exact ⟨hhigh, hanon, rfl⟩
          · exact h.ranges other (before.mem_iff.mpr (mem_cons_of_mem _ hother))
      · rw [henv, henv']
        exact VmmStats.countRange_resident _ _ _

/-- Only the environment has changed. -/
lemma Anon.setEnv (h : v.Anon) (env : VmEnv (AnonState τ)) : Anon { v with env := env } :=
  ⟨h.wf.congr _ h.wf.holeMeta h.wf.rangeMeta, h.holes, h.ranges⟩

/-- **`HandleFault`** of anonymous memory: the fault is refused, or it is up to the driver. -/
lemma Anon.handleFault_cases (h : v.Anon) (d : AnonVmDriver τ) (addr : ℕ) (flags : VmFaultFlags) :
    (∃ env, v.handleFault d.faultHandlers addr flags = some ({ v with env := env }, false) ∧
        env.map = v.env.map ∧ env.stats.anonResidentSize = v.env.stats.anonResidentSize ∧
        ∀ range, v.rangeAt addr = some range → accessOk flags range.flags = false) ∨
      ∃ range, v.rangeAt addr = some range ∧ accessOk flags range.flags = true ∧
        v.handleFault d.faultHandlers addr flags =
          if d.FaultOk range addr v.env.map then
            some ({ v with env := ⟨faultStats v.countFault.env.stats range addr,
              d.faulted range addr v.env.map⟩ }, true) else none := by
  obtain ⟨q, hfind, hspec⟩ := findRange_spec h.wf.ranges addr
  have hfind' : v.countFault.findRange addr = some q := hfind
  by_cases hbounds : addr < v.globalLowerBound ∨ addr ≥ v.globalUpperBound
  · refine .inl ⟨v.env, ?_, rfl, rfl, fun range hat => ?_⟩
    · rw [handleFault, if_pos hbounds]
      rfl
    · rw [rangeAt, findRange, if_pos hbounds] at hat
      cases hat
  · cases q with
    | none =>
      refine .inl ⟨v.countFault.env, ?_, rfl, rfl, fun range hat => ?_⟩
      · simp only [handleFault, if_neg hbounds, hfind', bind_eq_bind, bind_some,
          Option.pure_def]
        rfl
      · rw [rangeAt, hfind] at hat
        cases hat
    | some p =>
      obtain ⟨range, hrange⟩ : ∃ range, v.ranges.tree.item p = range := ⟨_, rfl⟩
      have hrange' : v.countFault.ranges.tree.item p = range := hrange
      have hat := rangeAt_eq hfind hrange
      obtain ⟨hmem, -, hhi⟩ := h.rangeAt_mem hat
      obtain ⟨hpaged, hanon, -⟩ := h.ranges range hmem
      have hhandler : d.faultHandlers range.flags = some d.handleFault := if_pos hanon
      cases hacc : accessOk flags range.flags with
      | false =>
        refine .inl ⟨v.countFault.env, ?_, rfl, rfl, fun range' hat' => ?_⟩
        · simp only [handleFault, if_neg hbounds, hfind', hrange', hacc, bind_eq_bind,
            bind_some, Option.pure_def]
          rfl
        · cases hat.symm.trans hat'
          exact hacc
      | true =>
        refine .inr ⟨range, hat, hacc, ?_⟩
        have hmap : v.countFault.env.map = v.env.map := rfl
        simp only [handleFault, if_neg hbounds, hfind', hrange', hacc, bind_eq_bind,
          bind_some, Option.pure_def, hhandler, Bool.not_true, Bool.false_eq_true, if_false,
          handleFault_eq _ hpaged hhi, hmap]
        split_ifs <;> rfl

end Vmm

end Northport.Memory
