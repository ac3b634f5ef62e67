/-
# The debug options of the PMM

With `trashBeforeUse` and `trashAfterUse` the PMM fills pages with random words.  A single page is
trashed after it was linked to the freelist, so its link and its run length are lost; a block of a
zone is trashed through its physical address, which is no pointer.  All other steps are the
same as without the options.
-/
import Northport.Memory.PmmRuns

namespace Northport.Memory

open Lib Option Pmm ByteMem Clients Manager

variable {hhdmBase : ℕ} {regions : List MemmapEntry} {s s' : Pmm} {v : PmmView} {b : Block} {n : ℕ}
  {c : Clients Pmm} {d : Clients PmmView} {σ : Type} {op : PmmOp}

/-! ### Settings -/

def Pmm.configure (s : Pmm) (trashAfterUse trashBeforeUse : Bool) : Pmm :=
  { s with trashAfterUse := trashAfterUse, trashBeforeUse := trashBeforeUse }

/-- The same PMM without the options. -/
def Pmm.quiet (s : Pmm) : Pmm := s.configure false false

/-- The step trashes neither a single page that is freed nor a block of a zone that is
allocated. -/
def Pmm.Harmless (hhdmBase : ℕ) (s : Pmm) : PmmOp → Prop
  | .alloc n => n ≤ 1 ∨ s.trashBeforeUse = false ∨
      allocFromZones hhdmBase s.mem n s.zoneCount s.zones = some none
  | .free b => b.pages ≠ 1 ∨ s.trashAfterUse = false
  | .write _ _ => True

lemma Pmm.Holds.configure (h : s.Holds hhdmBase v) (after before : Bool) :
    (s.configure after before).Holds hhdmBase v :=
  { h with }

lemma Pmm.Holds.harmless_iff (h : s.Holds hhdmBase v) (op : PmmOp) :
    s.Harmless hhdmBase op ↔ Memory.Harmless s v op := by
  cases op with
  | alloc n =>
    have hzones := allocFromZones_eq (n := n) h.zoneList h.zones_le h.bits
    simp only [Harmless, Memory.Harmless, hzones, Option.some.injEq, map_eq_none_iff]
  | free b => exact Iff.rfl
  | write a x => exact Iff.rfl

/-! ### What is trashed -/

/-- The block that is handed out or given back by the step. -/
def PmmOp.block (a : ℕ) : PmmOp → Block
  | .alloc n => ⟨a, n⟩
  | .free b => b
  | .write _ _ => ⟨0, 0⟩

/-- Trashing a page of a block changes the memory of the block only. -/
lemma Pmm.Framed.block {addr : ℕ} (h : s.Framed ⟨addr, PageSize⟩ s') (haddr : b.base = addr)
    (hb : 0 < b.pages) : OnlyWrites b.span s.mem s'.mem := by
  refine h.mem.mono fun x hx => ?_
  simp only [Block.span, Span.Contains, PageSize] at hx ⊢
  omega

/-- The freelist without its first page. -/
def Pmm.unlinkPage (hhdmBase : ℕ) (s : Pmm) : Pmm :=
  let freeEntry := s.freelist - hhdmBase
  let runLength := s.mem.read64 (freeEntry + 8)
  if runLength > 1 then
    let nextHead := freeEntry + PageSize
    let mem := s.mem.write64 (nextHead + 8) (runLength - 1)
    let mem := mem.write64 nextHead (mem.read64 freeEntry)
    { s with mem := mem, freelist := s.freelist + PageSize }
  else { s with freelist := s.mem.read64 freeEntry }

lemma Pmm.alloc_one_eq (s : Pmm) : s.alloc hhdmBase 1 =
    if s.freelist = 0 then none
    else ((s.unlinkPage hhdmBase).trash hhdmBase s.trashBeforeUse s.freelist).map fun s' =>
      (s.freelist - hhdmBase, s') := rfl

lemma Pmm.unlinkPage_quiet (s : Pmm) :
    s.quiet.unlinkPage hhdmBase = (s.unlinkPage hhdmBase).quiet := by
  rw [unlinkPage, unlinkPage]
  rw [apply_ite quiet]
  rfl

lemma Pmm.trash_false (s : Pmm) (access : ℕ) : s.trash hhdmBase false access = some s := rfl

lemma Pmm.trashMany_false (s : Pmm) (access n : ℕ) :
    s.trashMany hhdmBase false access n = some s := by
  induction n with
  | zero => rfl
  | succ n ih => rw [trashMany, trash_false, bind_some, ih]

/-- What `Alloc` does without the options, where these do no harm. -/
lemma Pmm.alloc_quiet {a : ℕ} (hharm : s.Harmless hhdmBase (.alloc n))
    (hfreelist : s.freelist ≠ 0 → hhdmBase ≤ s.freelist) (h : s.alloc hhdmBase n = some (a, s')) :
    ∃ s₀, s.quiet.alloc hhdmBase n = some (a, s₀) ∧
      OnlyWrites (⟨a, n⟩ : Block).span s₀.mem s'.mem := by
  by_cases h0 : n = 0
  · rw [alloc, if_pos h0] at h ⊢
    cases h
    exact ⟨s.quiet, rfl, OnlyWrites.refl _ _⟩
  by_cases h1 : n = 1
  · subst h1
    rw [alloc_one_eq] at h ⊢
    split_ifs at h with hnull
    obtain ⟨s₁, htrash, heq⟩ := map_eq_some_iff.mp h
    cases heq
    obtain ⟨s₂, htrash', hframed⟩ := (s.unlinkPage hhdmBase).trash_framed hhdmBase s.trashBeforeUse
      (s.freelist - hhdmBase)
    rw [Nat.sub_add_cancel (hfreelist hnull), htrash] at htrash'
    cases htrash'
    have hnull' : ¬ s.quiet.freelist = 0 := hnull
    have hoff : s.quiet.trashBeforeUse = false := rfl
    refine ⟨(s.unlinkPage hhdmBase).quiet, ?_, ?_⟩
    · rw [if_neg hnull', hoff, trash_false, unlinkPage_quiet, map_some]
      rfl
    · exact Framed.block (s := s.unlinkPage hhdmBase) hframed rfl Nat.one_pos
  · have hzones : allocFromZones hhdmBase s.quiet.mem n s.quiet.zoneCount s.quiet.zones =
        allocFromZones hhdmBase s.mem n s.zoneCount s.zones := rfl
    rw [alloc, if_neg h0, if_neg h1] at h ⊢
    rw [hzones]
    split at h
    · cases h
    · cases h
      exact ⟨s.quiet, rfl, OnlyWrites.refl _ _⟩
    · next base mem hsome =>
      have hoff : s.trashBeforeUse = false :=
        (hharm.resolve_left (by omega)).resolve_right (by rw [hsome]; simp)
      rw [hoff] at h
      cases h
      exact ⟨_, rfl, OnlyWrites.refl _ _⟩

/-- What `Free` does without the options, where these do no harm. -/
lemma Pmm.free_quiet (hharm : s.Harmless hhdmBase (.free b)) (haligned : b.base % PageSize = 0)
    (h : s.free hhdmBase b.base b.pages = some s') :
    ∃ s₀, s.quiet.free hhdmBase b.base b.pages = some s₀ ∧
      OnlyWrites b.span s₀.mem s'.mem := by
  by_cases h0 : b.base = 0 ∨ b.pages = 0
  · rw [free, if_pos h0] at h ⊢
    cases h
    exact ⟨s.quiet, rfl, OnlyWrites.refl _ _⟩
  rw [free, if_neg h0] at h ⊢
  simp only [haligned, Nat.sub_zero] at h ⊢
  have hzones : freeToZones hhdmBase s.quiet.mem b.base b.pages s.quiet.zoneCount s.quiet.zones =
    freeToZones hhdmBase s.mem b.base b.pages s.zoneCount s.zones := rfl
  rw [hzones]
  split at h
  · cases h
  · next mem hsome =>
    obtain ⟨s₁, hmany, hframed⟩ := ({ s with mem := mem } : Pmm).trashMany_framed hhdmBase
      s.trashAfterUse b.base b.pages
    rw [h] at hmany
    cases hmany
    refine ⟨{ s.quiet with mem := mem }, trashMany_false _ _ _, ?_⟩
    exact Framed.block (s := { s with mem := mem }) hframed rfl (by omega)
  · by_cases hone : b.pages = 1
    · have hoff : s.trashAfterUse = false := hharm.resolve_left (not_not_intro hone)
      rw [if_neg (not_not_intro hone), hoff] at h
      cases h
      rw [if_neg (not_not_intro hone)]
      exact ⟨_, rfl, OnlyWrites.refl _ _⟩
    · rw [if_pos hone] at h ⊢
      cases h
      exact ⟨s.quiet, rfl, OnlyWrites.refl _ _⟩

/-! ### A step with the options and without them -/

/-- The step does with the options what it does without them: it returns the same address,
writes elsewhere only in the block that is handed out or given back, and the lists of the PMM are
the same afterwards, whatever the random numbers are. -/
def Undisturbed (hhdmBase : ℕ) (c : Clients Pmm) (op : PmmOp) : Prop :=
  ∀ rng, ∃ c' c₀, (pmmManager hhdmBase).step { c with core := { c.core with rng := rng } } op =
      some c' ∧
    (pmmManager hhdmBase).step { c with core := quiet { c.core with rng := rng } } op =
      some c₀ ∧
    c'.returned = c₀.returned ∧
    OnlyWrites (op.block (c'.returned.headD 0)).span c₀.core.mem c'.core.mem ∧
    ∃ v, c'.core.Holds hhdmBase v ∧ c₀.core.Holds hhdmBase v

lemma Clients.Sim.quiet (h : c.Sim hhdmBase regions d) :
    Sim hhdmBase regions { c with core := c.core.quiet } d :=
  { h with holds := h.holds.configure false false }

lemma Clients.Sim.rng (h : c.Sim hhdmBase regions d) (rng : ℕ → ℕ) :
    Sim hhdmBase regions { c with core := { c.core with rng := rng } } d :=
  { h with holds := { h.holds with } }

lemma Pmm.Holds.le_freelist (h : s.Holds hhdmBase v) (hne : s.freelist ≠ 0) :
    hhdmBase ≤ s.freelist := by
  have hlist := h.freelist
  cases hruns : v.runs with
  | nil =>
    rw [hruns] at hlist
    exact absurd hlist hne
  | cons r runs =>
    rw [hruns] at hlist
    obtain ⟨-, -, ⟨hptr, -, -⟩, -⟩ := hlist
    omega

lemma Manager.step_alloc_cases {M : Manager σ} {c c' : Clients σ}
    (h : M.step c (.alloc n) = some c') :
    ∃ a core, M.alloc c.core n = some (a, core) ∧ c'.core = core ∧
      c'.returned = a :: c.returned := by
  obtain ⟨⟨a, core⟩, halloc, rfl⟩ := map_eq_some_iff.mp h
  exact ⟨a, core, halloc, rfl, rfl⟩

lemma Manager.step_free_cases {M : Manager σ} {c c' : Clients σ}
    (h : M.step c (.free b) = some c') : M.free c.core b = some c'.core := by
  obtain ⟨core, hfree, rfl⟩ := map_eq_some_iff.mp h
  exact hfree

/-- A harmless step is the same with the options and without them. -/
lemma Clients.Sim.undisturbed (hr : Usable hhdmBase regions) (h : c.Sim hhdmBase regions d)
    (hop : viewManager.Ok d op) (hharm : c.core.Harmless hhdmBase op) :
    Undisturbed hhdmBase c op := by
  intro rng
  have hsim := h.rng rng
  have hharm' : ({ c.core with rng := rng } : Pmm).Harmless hhdmBase op := by
    cases op <;> exact hharm
  obtain ⟨c', d', hc', hd', hsim', -⟩ :=
    hsim.step hr hop ((hsim.holds.harmless_iff op).mp hharm')
  obtain ⟨c₀, d₀, hc₀, hd₀, hsim₀, -⟩ := hsim.quiet.step hr hop (harmless_of_off rfl rfl _ _)
  cases hd'.symm.trans hd₀
  refine ⟨c', c₀, hc', hc₀, hsim'.returned.trans hsim₀.returned.symm, ?_, d'.core, hsim'.holds,
    hsim₀.holds⟩
  cases op with
  | alloc n =>
    obtain ⟨a, core, halloc, hcore, hreturned⟩ := step_alloc_cases hc'
    obtain ⟨a₀, core₀, halloc₀, hcore₀, -⟩ := step_alloc_cases hc₀
    obtain ⟨s₀, hs₀, honly⟩ := Pmm.alloc_quiet hharm' hsim.holds.le_freelist halloc
    cases hs₀.symm.trans halloc₀
    rw [hreturned, hcore, hcore₀]
    exact honly
  | free b =>
    obtain ⟨s₀, hs₀, honly⟩ := Pmm.free_quiet hharm' (h.valid.block_base hr hop).2.2
      (step_free_cases hc')
    cases hs₀.symm.trans (step_free_cases hc₀)
    exact honly
  | write a x =>
    cases hc'
    cases hc₀
    exact OnlyWrites.refl _ _

/-! ### Where the options do harm -/

lemma read64_trashWords (mem : ByteMem) (rng : ℕ → ℕ) (addr : ℕ) {i : ℕ} (hi : i < n)
    (hrng : rng i < 2 ^ 64) : (trashWords mem rng addr n).read64 (addr + 8 * i) = rng i := by
  induction n with
  | zero => omega
  | succ n ih =>
    rw [trashWords]
    by_cases hin : i = n
    · rw [hin] at hrng ⊢
      exact read64_write64 hrng
    · rw [read64_write64_of_disjoint (.inr (by omega))]
      exact ih (by omega)

/-- The run length of a page that was trashed on the freelist is lost. -/
lemma Pmm.free_trashed (hone : b.pages = 1) (hne : b.base ≠ 0) (haligned : b.base % PageSize = 0)
    (hafter : s.trashAfterUse = true) (hrng : s.rng = fun _ => 0)
    (hzones : freeToZones hhdmBase s.mem b.base 1 s.zoneCount s.zones = some none)
    (h : s.free hhdmBase b.base b.pages = some s') :
    s'.freelist = b.base + hhdmBase ∧ s'.mem.read64 (b.base + 8) = 0 := by
  rw [hone, free, if_neg (by omega)] at h
  simp only [haligned, Nat.sub_zero, hzones, ne_eq, not_true_eq_false, if_false, trash, hafter,
    if_true, if_neg (Nat.not_lt.mpr (Nat.le_add_left hhdmBase b.base)), Nat.add_sub_cancel] at h
  cases h
  refine ⟨rfl, ?_⟩
  have hword := read64_trashWords ((s.mem.write64 (b.base + 8) 1).write64 b.base s.freelist) s.rng
    b.base (n := PageSize / 8) (i := 1) (by decide) (by rw [hrng]; decide)
  simpa only [hrng] using hword

/-- A block of a zone is trashed through its physical address, which faults: the direct map is
in the higher half of the addresses. -/
lemma Pmm.Holds.alloc_trashed (h : s.Holds hhdmBase v) (hr : Usable hhdmBase regions)
    (hhigh : 2 ^ 63 ≤ hhdmBase) {blocks : List Block} (hv : v.Valid regions blocks) (hn : 1 < n)
    (hbefore : s.trashBeforeUse = true) {z : Zone} {k : ℕ}
    (hfind : v.findBlock n v.zones = some (z, k)) : s.alloc hhdmBase n = none := by
  have hzones := allocFromZones_eq (n := n) h.zoneList h.zones_le h.bits
  obtain ⟨hz, hk, hclear⟩ := PmmView.findBlock_spec (by omega) hfind
  have hvalid := hv.take hr hz hn hk hclear
  have hbase : z.page k + hhdmBase < 2 ^ 64 := (hvalid.block_base hr List.mem_cons_self).2.1
  rw [Pmm.alloc, if_neg (by omega), if_neg (by omega), hzones, hfind]
  simp only [map_some, trash, hbefore, if_true]
  rw [if_pos (by omega)]
  rfl

/-- **The options do no harm in a step only if the step is harmless.** -/
lemma Clients.Sim.harmless (hr : Usable hhdmBase regions) (hhigh : 2 ^ 63 ≤ hhdmBase)
    (h : c.Sim hhdmBase regions d) (hop : viewManager.Ok d op)
    (hundisturbed : Undisturbed hhdmBase c op) : c.core.Harmless hhdmBase op := by
  rw [h.holds.harmless_iff]
  cases op with
  | alloc n =>
    by_contra hharm
    simp only [Memory.Harmless, not_or, Bool.not_eq_false] at hharm
    obtain ⟨hn, hbefore, hfind⟩ := hharm
    obtain ⟨⟨z, k⟩, hfind⟩ := ne_none_iff_exists'.mp hfind
    obtain ⟨c', -, hc', -⟩ := hundisturbed c.core.rng
    obtain ⟨a, core, halloc, -⟩ := step_alloc_cases hc'
    have hfault : (pmmManager hhdmBase).alloc c.core n = none :=
      h.holds.alloc_trashed hr hhigh h.valid (by omega) hbefore hfind
    exact some_ne_none _ (halloc.symm.trans hfault)
  | free b =>
    by_contra hharm
    simp only [Memory.Harmless, not_or, not_not, Bool.not_eq_false] at hharm
    obtain ⟨hone, hafter⟩ := hharm
    obtain ⟨hne, -, haligned⟩ := h.valid.block_base hr hop
    have hnone : d.core.zoneOf b.base = none := h.valid.zoneOf_single hr hop hone
    have hzones := freeToZones_eq b.base (n := 1) h.holds.zoneList h.holds.zones_le
    rw [PmmView.zoneOf] at hnone
    rw [hnone] at hzones
    -- the random words are all 0
    obtain ⟨c', c₀, hc', hc₀, -, -, v, hv', hv₀⟩ := hundisturbed fun _ => 0
    obtain ⟨hptr', hread'⟩ := free_trashed (s := { c.core with rng := fun _ => 0 }) hone hne
      haligned hafter rfl hzones (step_free_cases hc')
    obtain ⟨s₀, hs₀, hholds₀, -⟩ := (h.rng fun _ => 0).quiet.holds.free hr h.valid hop (.inr rfl)
    cases hs₀.symm.trans (step_free_cases hc₀)
    have hlist₀ := hholds₀.freelist
    rw [PmmView.free, PmmView.zoneOf, hnone] at hlist₀
    simp only [if_pos hone, PmmView.pushRun] at hlist₀
    obtain ⟨-, -, ⟨hptr₀, hread₀, -⟩, -⟩ := hlist₀
    -- both hold the first run of the view
    cases hruns : v.runs with
    | nil =>
      have hnull := hv₀.freelist.eq_nil_iff.mp hruns
      omega
    | cons r runs =>
      have hlist := hv₀.freelist
      have hlist' := hv'.freelist
      rw [hruns] at hlist hlist'
      obtain ⟨-, -, ⟨hptr, hread, -⟩, -⟩ := hlist
      obtain ⟨-, -, ⟨-, hread'', -⟩, -⟩ := hlist'
      have hbase : r.base = b.base := by
        simp only at hptr₀
        omega
      simp only at hread₀
      rw [hbase] at hread hread''
      omega
  | write a x => exact trivial

/-! ### Runs with the options and without them -/

/-- The preconditions of the clients, and the step is harmless. -/
def HarmlessOk (hhdmBase : ℕ) (c : Clients Pmm) (op : PmmOp) : Prop :=
  (pmmManager hhdmBase).Ok c op ∧ c.core.Harmless hhdmBase op

/-- Two PMMs with the same view: the one with the options, and the one without. -/
def Clients.SameView (hhdmBase : ℕ) (regions : List MemmapEntry) (c c₀ : Clients Pmm) : Prop :=
  (∃ d, c.Sim hhdmBase regions d ∧ c₀.Sim hhdmBase regions d) ∧
    c₀.core.trashAfterUse = false ∧ c₀.core.trashBeforeUse = false

lemma Clients.SameView.step (hr : Usable hhdmBase regions) {c₀ : Clients Pmm}
    (h : c.SameView hhdmBase regions c₀) (hop : HarmlessOk hhdmBase c op) :
    ∃ c' c₀', (pmmManager hhdmBase).step c op = some c' ∧
      (pmmManager hhdmBase).step c₀ op = some c₀' ∧ c'.SameView hhdmBase regions c₀' := by
  obtain ⟨⟨d, hsim, hsim₀⟩, hafter, hbefore⟩ := h
  have hok := hsim.ok hop.1
  obtain ⟨c', d', hc', hd', hsim', -⟩ := hsim.step hr hok ((hsim.holds.harmless_iff op).mp hop.2)
  obtain ⟨c₀', d₀, hc₀', hd₀, hsim₀', hsame⟩ :=
    hsim₀.step hr hok (harmless_of_off hafter hbefore _ _)
  cases hd'.symm.trans hd₀
  exact ⟨c', c₀', hc', hc₀', ⟨d', hsim', hsim₀'⟩, hsame.1.trans hafter, hsame.2.trans hbefore⟩

/-- **The debug options.**  As long as neither a single page is freed with `trashAfterUse` nor a
block of a zone allocated with `trashBeforeUse`, `Alloc` returns the addresses that it returns
without the options; and in every state that is reached, the next step is the same with the
options and without them exactly if it is such a step. -/
theorem trash_undisturbed_iff {fuel contiguousQuota : ℕ} {s : Pmm} {mem : ByteMem} {ops : List PmmOp}
    {trashAfterUse trashBeforeUse : Bool} (hr : Usable hhdmBase regions)
    (hhigh : 2 ^ 63 ≤ hhdmBase)
    (hingest : (init mem).ingestMemory hhdmBase fuel regions contiguousQuota = some s)
    (rng : ℕ → ℕ)
    (hops : Allowed (pmmManager hhdmBase).step (HarmlessOk hhdmBase)
      { core := { s.configure trashAfterUse trashBeforeUse with rng := rng } } ops) :
    ∃ c c₀, run (pmmManager hhdmBase).step
        { core := { s.configure trashAfterUse trashBeforeUse with rng := rng } } ops = some c ∧
      run (pmmManager hhdmBase).step { core := { s with rng := rng } } ops = some c₀ ∧
      c.returned = c₀.returned ∧
      ∀ op, (pmmManager hhdmBase).Ok c op →
        (Undisturbed hhdmBase c op ↔ c.core.Harmless hhdmBase op) := by
  obtain ⟨v, -, hsim⟩ := ingested_sim hr hingest
  have hsettings := ingestMemory_settings hingest
  have hstart : SameView hhdmBase regions
      { core := { s.configure trashAfterUse trashBeforeUse with rng := rng } }
      { core := { s with rng := rng } } :=
    ⟨⟨_, { hsim with holds := { hsim.holds with } }, hsim.rng rng⟩, hsettings.1, hsettings.2⟩
  have hstep : ∀ (c c₀ : Clients Pmm) (op : PmmOp), c.SameView hhdmBase regions c₀ →
      HarmlessOk hhdmBase c op → ∃ c' c₀', (pmmManager hhdmBase).step c op = some c' ∧
        (pmmManager hhdmBase).step c₀ op = some c₀' ∧ c'.SameView hhdmBase regions c₀' :=
    fun _ _ _ h hop => h.step hr hop
  obtain ⟨c, c₀, hc, hc₀, ⟨d, hsimc, hsimc₀⟩, -⟩ := run_simulation _ hstep hstart hops
  refine ⟨c, c₀, hc, hc₀, hsimc.returned.trans hsimc₀.returned.symm, fun op hop => ?_⟩
  have hok := hsimc.ok hop
  exact ⟨hsimc.harmless hr hhigh hok, hsimc.undisturbed hr hok⟩

lemma alloc_two_sixPages : ((pmmManager 0xffff800000000000).step
    { core := { (get _ ingest_sixPages).configure true false with rng := fun i => i } }
    (.alloc 2)).map blocks = some [⟨0x5000, 2⟩] := by
  decide +kernel

/-- A block of the zone is allocated and freed with `trashAfterUse`. -/
theorem trash_undisturbed_iff_sixPages :
    ∃ c c₀, run (pmmManager 0xffff800000000000).step
        { core := { (get _ ingest_sixPages).configure true false with rng := fun i => i } }
        [.alloc 2, .free ⟨0x5000, 2⟩] = some c ∧
      run (pmmManager 0xffff800000000000).step
        { core := { get _ ingest_sixPages with rng := fun i => i } }
        [.alloc 2, .free ⟨0x5000, 2⟩] = some c₀ ∧
      c.returned = c₀.returned ∧
      ∀ op, (pmmManager 0xffff800000000000).Ok c op →
        (Undisturbed 0xffff800000000000 c op ↔ c.core.Harmless 0xffff800000000000 op) :=
  trash_undisturbed_iff usable_sixPages (by decide) (some_get ingest_sixPages).symm _
    ⟨⟨by decide +kernel, .inr (.inl rfl)⟩, fun c hc => ⟨⟨by
      have hblocks := alloc_two_sixPages
      rw [hc, map_some, some.injEq] at hblocks
      rw [Ok, hblocks]
      exact List.mem_singleton_self _, .inl (by decide)⟩, fun _ _ => trivial⟩⟩

/-- With `trashAfterUse` the link of a freed page is lost: the second `Alloc` after it returns a
page of the zone here.  With `trashBeforeUse` the allocation of a block faults. -/
theorem trash_disturbs :
    (run (pmmManager 0xffff800000000000).step
        { core := { (get _ ingest_sixPages).configure true false with
          rng := fun i => if i = 0 then 0xffff800000005000 else 1 } }
        [.alloc 1, .free ⟨0x3000, 1⟩, .alloc 1, .alloc 1]).map returned =
      some [0x5000, 0x3000, 0x3000] ∧
    (run (pmmManager 0xffff800000000000).step { core := get _ ingest_sixPages }
        [.alloc 1, .free ⟨0x3000, 1⟩, .alloc 1, .alloc 1]).map returned =
      some [0x4000, 0x3000, 0x3000] ∧
    ((pmmManager 0xffff800000000000).step
        { core := (get _ ingest_sixPages).configure false true } (.alloc 2)).isNone ∧
    ((pmmManager 0xffff800000000000).step
        { core := get _ ingest_sixPages } (.alloc 2)).isSome := by
  decide +kernel

end Northport.Memory
