/-
# Calls that map anonymous pages

When `Alloc`, a fault and `SetFlags` keep the zero page pristine.  A fault puts pages of the PMM in
its place which nobody has cleared, and `SetFlags` gives permission to write to everything that is
mapped in a range.
-/
import Northport.Memory.ZeroPage

namespace Northport.Memory

open Lib PageMap

namespace AnonSystem

open Vmm AnonVmDriver

variable {ι P τ : Type} {d : AnonVmDriver τ} {S S' : AnonSystem ι P τ} {i j : ι}
  {v v' : Vmm P (AnonState τ)}

/-! ### Reads -/

lemma inUse_frame {pmm : τ} {frame off : ℕ} (huse : d.frames.InUse pmm frame)
    (hal : frame % PageSize = 0) (hoff : off < PageSize) :
    d.frames.InUse pmm (alignDown (frame + off) PageSize) := by
  have hdown : alignDown (frame + off) PageSize = frame := by
    rw [alignDown]
    rw [PageSize] at *
    omega
  rwa [hdown]

lemma page_div {page off : ℕ} (hoff : off < PageSize) :
    (page * PageSize + off) / PageSize = page := by
  rw [PageSize] at *
  omega

/-- An address is a page and an offset. -/
lemma readsRight_iff : S.ReadsRight i ↔ ∀ page pte, S.map i page = some pte → ∀ off < PageSize,
    S.mem (pte.frame + off) = S.written i (page * PageSize + off) := by
  constructor
  · intro h page pte hpte off hoff
    have hread := h (page * PageSize + off) pte (by rw [page_div hoff]; exact hpte)
    rwa [Nat.mul_add_mod_self_right, Nat.mod_eq_of_lt hoff] at hread
  · intro h vaddr pte hpte
    rw [h _ pte hpte _ (Nat.mod_lt _ (by decide)), Nat.div_add_mod']

lemma Pristine.congr (hp : S.Pristine d) (hmem : S'.mem = S.mem) (hmap : S'.map = S.map)
    (hwritten : S'.written = S.written) : S'.Pristine d := by
  refine ⟨?_, ?_, fun j => ?_⟩
  · rw [hmem]
    exact hp.zero
  · rw [hmap]
    exact hp.readonly
  · rw [ReadsRight, hmem, hmap, hwritten]
    exact hp.reads j

variable [DecidableEq ι]

/-- A space is left whose mappings have not changed. -/
lemma map_leave_same (hmap : v.env.map.map = S.map i) : (S.leave i v).map = S.map := by
  funext j
  rcases eq_or_ne j i with rfl | hj
  · rw [map_leave_self, hmap]
  · exact map_leave_of_ne S v hj

lemma Pristine.leave_same (hp : S.Pristine d) (hmap : v.env.map.map = S.map i)
    (hmem : v.env.map.mem = S.mem) : (S.leave i v).Pristine d :=
  hp.congr hmem (map_leave_same hmap) rfl

variable [DecidableEq P] {m : MetaAlloc P} {range : VmRange} {s : AnonState τ}

section

omit [DecidableEq ι]

variable (h : S.Inv d) (hz : d.zeroPage % PageSize = 0) (hp : S.Pristine d)
  (hmap : ∀ j ≠ i, S'.map j = S.map j) (hwritten : ∀ j ≠ i, S'.written j = S.written j)
  (hmem : ∀ a, d.frames.InUse S.pmm (alignDown a PageSize) → S'.mem a = S.mem a)

include h hz hp hmap hwritten hmem

/-- A call in the space `i` that leaves the memory of the mapped frames alone: only the mappings and
the reads of this space are in question. -/
lemma pristine_iff_space : S'.Pristine d ↔ (∀ page pte, S'.map i page = some pte →
    pte.frame = d.zeroPage → pte.flags.write = false) ∧ S'.ReadsRight i := by
  refine ⟨fun hp' => ⟨hp'.readonly i, hp'.reads i⟩, fun ⟨hro, hreads⟩ => ⟨?_, ?_, ?_⟩⟩
  · intro off hoff
    rw [hmem _ (inUse_frame h.zero hz hoff), hp.zero off hoff]
  · intro j page pte hpte
    rcases eq_or_ne j i with rfl | hj
    · exact hro page pte hpte
    · rw [hmap j hj] at hpte
      exact hp.readonly j page pte hpte
  · intro j
    rcases eq_or_ne j i with rfl | hj
    · exact hreads
    · intro vaddr pte hpte
      rw [hmap j hj] at hpte
      obtain ⟨huse, hal⟩ := h.frames j _ pte hpte
      rw [hwritten j hj, hmem _ (inUse_frame huse hal (Nat.mod_lt _ (by decide))),
        hp.reads j vaddr pte hpte]

/-- Only the pages of a window are in question, if nothing changes outside of it. -/
lemma pristine_iff_window
    (hro : ∀ page pte, S'.map i page = some pte → pte.frame = d.zeroPage → pte.flags.write = false)
    (first n : ℕ) (hout : ∀ page, ¬ (first ≤ page ∧ page < first + n) →
      S'.map i page = S.map i page ∧ ∀ off < PageSize,
        S'.written i (page * PageSize + off) = S.written i (page * PageSize + off)) :
    S'.Pristine d ↔ ∀ k < n, ∀ pte, S'.map i (first + k) = some pte → ∀ off < PageSize,
      S'.mem (pte.frame + off) = S'.written i ((first + k) * PageSize + off) := by
  rw [pristine_iff_space h hz hp hmap hwritten hmem, and_iff_right hro, readsRight_iff]
  refine ⟨fun h k _ => h (first + k), fun hin page pte hpte => ?_⟩
  by_cases hwin : first ≤ page ∧ page < first + n
  · obtain ⟨k, rfl⟩ := Nat.exists_eq_add_of_le hwin.1
    exact hin k (by omega) pte hpte
  · intro off hoff
    obtain ⟨hsame, hwritten⟩ := hout page hwin
    rw [hsame] at hpte
    obtain ⟨huse, hal⟩ := h.frames i page pte hpte
    rw [hwritten off hoff, hmem _ (inUse_frame huse hal hoff)]
    exact readsRight_iff.mp (hp.reads i) page pte hpte off hoff

end

lemma Inv.leave_same (h : S.Inv d) (hz : d.zeroPage % PageSize = 0) (hanon : v.Anon)
    (hmap : v.env.map.map = S.map i) (hpmm : v.env.map.pmm = S.pmm) : (S.leave i v).Inv d := by
  refine h.leave hz hanon 0 0 hpmm fun page pte hpte => ?_
  rw [hmap] at hpte
  exact .inl ⟨pte, hpte, rfl⟩

/-- The result of a call is known. -/
lemma forall_pristine {op : SystemOp ι} (hstep : S.step m d op = some S') :
    (∀ S', S.step m d op = some S' → S'.Pristine d) ↔ S'.Pristine d := by
  rw [hstep]
  exact ⟨fun h => h S' rfl, fun h S1 heq => Option.some.inj heq ▸ h⟩

/-! ### Alloc -/

/-- The memory after `Attach`, in frames that were in use before. -/
lemma attached_mem {attachArg a : ℕ} (h : d.frames.InUse s.pmm (alignDown a PageSize)) :
    (d.attached range attachArg s).mem a = s.mem a := by
  rw [attached]
  split_ifs
  · rfl
  · rfl
  · exact Frames.fill_of_notMem fun k _ heq => d.frames.nth_fresh s.pmm k (heq ▸ h)

/-- What a page reads after `Attach`: what it read before, the zeros of the zero page, or what the
PMM has left in the new page. -/
lemma attached_reads (attachArg : ℕ) {k : ℕ} (hz : d.zeroPage % PageSize = 0)
    (hzero : d.frames.InUse s.pmm d.zeroPage)
    (hzeros : ∀ off < PageSize, s.mem (d.zeroPage + off) = 0#8)
    (hframes : ∀ pte, s.map (range.firstPage + k) = some pte →
      d.frames.InUse s.pmm pte.frame ∧ pte.frame % PageSize = 0) (hk : k < range.pageCount) :
    (∀ pte, (d.attached range attachArg s).map (range.firstPage + k) = some pte →
        ∀ off < PageSize, (d.attached range attachArg s).mem (pte.frame + off) = 0#8) ↔
      AttachZero d s attachArg (range.firstPage + k) k := by
  rw [AttachZero]
  have hin : range.firstPage ≤ range.firstPage + k ∧
      range.firstPage + k < range.firstPage + range.pageCount := by omega
  cases hm : s.map (range.firstPage + k) with
  | some old =>
    -- what was mapped stays mapped
    have hold : (d.attached range attachArg s).map (range.firstPage + k) = some old := by
      rw [attached]
      split_ifs
      · exact (if_pos hin).trans (by rw [hm]; rfl)
      · exact hm
      · exact (if_pos hin).trans (by rw [hm]; rfl)
    obtain ⟨huse, hal⟩ := hframes old hm
    have hsame : ∀ off < PageSize, (d.attached range attachArg s).mem (old.frame + off) =
        s.mem (old.frame + off) := fun off hoff =>
      attached_mem (inUse_frame huse hal hoff)
    rw [hold]
    simp only [Option.some.injEq, forall_eq']
    exact forall₂_congr fun off hoff => by rw [hsame off hoff]
  | none =>
    cases hlazy : (d.doZeroPage s attachArg || d.doDemand s attachArg) with
    | true =>
      refine iff_of_true (fun pte hpte off hoff => ?_) (.inl rfl)
      rw [attached] at hpte
      split_ifs at hpte with hzp hd
      · obtain rfl : pte = ⟨d.zeroPage, readonly range.flags⟩ := by
          have hnew := hpte.symm.trans (if_pos hin)
          rw [hm] at hnew
          exact Option.some.inj hnew
        rw [attached_mem (inUse_frame hzero hz hoff), hzeros off hoff]
      · rw [hm] at hpte
        cases hpte
      · rw [Bool.or_eq_true] at hlazy
        tauto
    | false =>
      rw [Bool.or_eq_false_iff] at hlazy
      have hnew : (d.attached range attachArg s).map (range.firstPage + k) =
          some ⟨d.frames.nth s.pmm k, convertFlags range.flags⟩ := by
        rw [attached, hlazy.1, hlazy.2]
        refine (if_pos hin).trans ?_
        rw [hm, Option.getD_none, Nat.add_sub_cancel_left]
      have hmem : ∀ off < PageSize, (d.attached range attachArg s).mem
          (d.frames.nth s.pmm k + off) = d.frames.content (d.frames.after s.pmm k) off := by
        intro off hoff
        rw [attached, hlazy.1, hlazy.2]
        exact Frames.fill_nth hk hoff
      rw [hnew]
      simp only [Option.some.injEq, forall_eq', Bool.false_eq_true, false_or]
      exact forall₂_congr fun off hoff => by rw [hmem off hoff]

/-- `Attach` takes some pages from the PMM; its entries are old ones, and new ones of the zero page or
of these pages. -/
lemma attached_cases (s : AnonState τ) (range : VmRange) (attachArg : ℕ) :
    ∃ n, (d.attached range attachArg s).pmm = d.frames.after s.pmm n ∧
      ∀ page pte, (d.attached range attachArg s).map page = some pte →
        s.map page = some pte ∨ range.HasPage page ∧
          (pte = ⟨d.zeroPage, readonly range.flags⟩ ∨ ∃ k < n, page = range.firstPage + k ∧
            pte = ⟨d.frames.nth s.pmm k, convertFlags range.flags⟩) := by
  rw [attached]
  split_ifs
  · refine ⟨0, rfl, fun page pte hpte => ?_⟩
    dsimp only at hpte
    rcases backed_cases hpte with hold | ⟨-, k, hk, rfl, rfl⟩
    · exact .inl hold
    · exact .inr ⟨⟨by omega, by omega⟩, .inl rfl⟩
  · exact ⟨0, rfl, fun page pte hpte => .inl hpte⟩
  · refine ⟨range.pageCount, rfl, fun page pte hpte => ?_⟩
    rcases backed_cases hpte with hold | ⟨-, k, hk, rfl, rfl⟩
    · exact .inl hold
    · exact .inr ⟨⟨by omega, by omega⟩, .inr ⟨k, hk, rfl, rfl⟩⟩

/-- **`Alloc`** keeps the zero page pristine exactly if the new range reads as zero. -/
lemma pristine_alloc_iff (h : S.Inv d) (hz : d.zeroPage % PageSize = 0) (hp : S.Pristine d) (i : ι)
    (length initArg : ℕ) (flags : VmFlags) (limits : VmAllocLimits) :
    (∀ S', S.step m d (.alloc i length initArg flags limits) = some S' → S'.Pristine d) ↔
      S.Careful m d (.alloc i length initArg flags limits) := by
  obtain ⟨v1, r, hrun, -⟩ :=
    alloc_spec (m := m) d.drivers length initArg (anonFlags flags) limits (h.enter_anon i).wf
  obtain ⟨h1, hcase⟩ := (h.enter_anon i).alloc hz (has_anonFlags flags) hrun
  rcases hcase with ⟨rfl, -, henv⟩ | ⟨b, rfl, hranges, henv⟩
  · have hstep : S.step m d (.alloc i length initArg flags limits) = some (S.leave i v1) := by
      rw [step, hrun]
      rfl
    rw [forall_pristine hstep, Careful, hrun]
    exact iff_of_true (hp.leave_same (by rw [henv]; rfl) (by rw [henv]; rfl)) trivial
  · generalize hrange : anonRange b length (anonFlags flags) = range at hranges henv
    obtain ⟨S1, hS1⟩ : ∃ S1, S1 =
        (S.leave i v1).record i (·.zero b (rangeSize length (anonFlags flags))) := ⟨_, rfl⟩
    have hstep : S.step m d (.alloc i length initArg flags limits) = some S1 := by
      rw [step, hrun, hS1]
      rfl
    have hpaged : range.Paged := (h1.ranges range (hranges ▸ List.mem_cons_self)).1
    have hmap : S1.map i = (d.attached range initArg (S.enter i).env.map).map := by
      rw [hS1, map_record, map_leave_self, henv]
    have hmem : S1.mem = (d.attached range initArg (S.enter i).env.map).mem := by
      rw [hS1]
      exact congrArg (fun env : VmEnv (AnonState τ) => env.map.mem) henv
    have hother : ∀ j ≠ i, S1.map j = S.map j := fun j hj => by
      rw [hS1, map_record, map_leave_of_ne S v1 hj]
    have hwritten : S1.written = Function.update S.written i
        ((S.written i).zero range.base range.length) := by
      rw [hS1, ← hrange]
      rfl
    have hwritten_ne : ∀ j ≠ i, S1.written j = S.written j := fun j hj => by
      rw [hwritten, Function.update_of_ne hj]
    have hkeep : ∀ a, d.frames.InUse S.pmm (alignDown a PageSize) → S1.mem a = S.mem a := by
      intro a ha
      rw [hmem]
      exact attached_mem (s := (S.enter i).env.map) ha
    -- the new entries of the zero page are read-only
    have hro : ∀ page pte, S1.map i page = some pte → pte.frame = d.zeroPage →
        pte.flags.write = false := by
      intro page pte hpte hframe
      rw [hmap] at hpte
      obtain ⟨n, -, hcases⟩ := attached_cases (d := d) (S.enter i).env.map range initArg
      rcases hcases page pte hpte with hold | ⟨-, rfl | ⟨k, -, -, rfl⟩⟩
      · exact hp.readonly i page pte hold hframe
      · exact readonly_write range.flags
      · exact absurd hframe (nth_ne_zeroPage (s := (S.enter i).env.map) h.zero k)
    have hzeroed : ∀ page off, off < PageSize → S1.written i (page * PageSize + off) =
        if range.HasPage page then 0#8 else S.written i (page * PageSize + off) := by
      intro page off hoff
      have hiff : range.HasPage ((page * PageSize + off) / PageSize) ↔ _ := hpaged.hasPage_iff
      rw [page_div hoff] at hiff
      rw [hwritten, Function.update_self, ByteMem.zero]
      simp only [hiff]
    rw [forall_pristine hstep, Careful, hrun, pristine_iff_window h hz hp hother hwritten_ne hkeep hro
      range.firstPage range.pageCount]
    simp only [hrange]
    · refine forall₂_congr fun k hk => ?_
      rw [hmap, hmem]
      have hreads := attached_reads (s := (S.enter i).env.map) initArg hz h.zero hp.zero
        (h.frames i (range.firstPage + k)) hk
      refine Iff.trans ?_ hreads
      refine forall₂_congr fun pte _ => forall₂_congr fun off hoff => ?_
      rw [hzeroed _ off hoff, if_pos ⟨by omega, by omega⟩]
    · intro page hout
      have hout' : ¬ range.HasPage page := hout
      refine ⟨?_, fun off hoff => by rw [hzeroed _ off hoff, if_neg hout']⟩
      rw [hmap, attached_of_notMem hout']
      rfl

/-! ### Faults -/

/-- **A fault** keeps the zero page pristine exactly if the new pages hold what the mapped pages of
the window read before. -/
lemma pristine_fault_iff (h : S.Inv d) (hz : d.zeroPage % PageSize = 0)
    (huse : d.useZeroPage = true) (hp : S.Pristine d) (i : ι) (addr : ℕ) (flags : VmFaultFlags) :
    (∀ S', S.step m d (.fault i addr flags) = some S' → S'.Pristine d) ↔
      S.Careful m d (.fault i addr flags) := by
  rw [Careful]
  rcases (h.enter_anon i).handleFault_cases d addr flags with
    ⟨env, hrun, hmap, -, hrefused⟩ | ⟨range, hat, hacc, hrun⟩
  · have hstep : S.step m d (.fault i addr flags) =
        some (S.leave i { S.enter i with env := env }) := by
      rw [step, hrun]
      rfl
    rw [forall_pristine hstep]
    refine iff_of_true (hp.leave_same (by rw [hmap]; rfl) (by rw [hmap]; rfl)) ?_
    cases hat : (S.enter i).rangeAt addr with
    | none => exact trivial
    | some range =>
      intro hacc
      rw [hrefused range hat] at hacc
      cases hacc
  · have hok : d.FaultOk range addr (S.enter i).env.map := .inl huse
    rw [if_pos hok] at hrun
    obtain ⟨S1, hS1⟩ : ∃ S1, S1 = S.leave i { S.enter i with
        env := ⟨faultStats (S.enter i).countFault.env.stats range addr,
          d.faulted range addr (S.enter i).env.map⟩ } := ⟨_, rfl⟩
    have hstep : S.step m d (.fault i addr flags) = some S1 := by
      rw [step, hrun, hS1]
      rfl
    have hmap : S1.map i = (d.faulted range addr (S.enter i).env.map).map := by
      rw [hS1, map_leave_self]
    have hmem : S1.mem = d.frames.fill S.mem S.pmm (mapCount range addr) := by
      rw [hS1]
      rfl
    have hother : ∀ j ≠ i, S1.map j = S.map j := fun j hj => by rw [hS1, map_leave_of_ne S _ hj]
    have hwritten : S1.written = S.written := by
      rw [hS1]
      rfl
    have hkeep : ∀ a, d.frames.InUse S.pmm (alignDown a PageSize) → S1.mem a = S.mem a := by
      intro a ha
      rw [hmem]
      exact Frames.fill_of_notMem fun k _ heq => d.frames.nth_fresh S.pmm k (heq ▸ ha)
    have hro : ∀ page pte, S1.map i page = some pte → pte.frame = d.zeroPage →
        pte.flags.write = false := by
      intro page pte hpte hframe
      rw [hmap] at hpte
      rcases faulted_cases hpte with hold | ⟨k, -, -, rfl⟩
      · exact hp.readonly i page pte hold hframe
      · exact absurd hframe (nth_ne_zeroPage (s := (S.enter i).env.map) h.zero k)
    rw [forall_pristine hstep, pristine_iff_window h hz hp hother (fun j _ => by rw [hwritten]) hkeep
      hro (addr / PageSize) (mapCount range addr)]
    simp only [hat, hacc, true_implies]
    · refine forall₂_congr fun k hk => ?_
      rw [hmap, faulted_window huse hk, FaultSame, show (S.enter i).env.map.map = S.map i from rfl]
      cases hm : S.map i (addr / PageSize + k) with
      | none => exact iff_of_true (fun pte hpte => by cases hpte) trivial
      | some old =>
        simp only [Option.map_some, Option.some.injEq, forall_eq']
        refine forall₂_congr fun off hoff => ?_
        rw [hmem, show (S.enter i).env.map.pmm = S.pmm from rfl, Frames.fill_nth hk hoff, hwritten,
          ← readsRight_iff.mp (hp.reads i) _ old hm off hoff]
        rfl
    · intro page hout
      rw [hmap, faulted_of_notMem fun k hk heq => hout ⟨by omega, by omega⟩, hwritten]
      exact ⟨rfl, fun _ _ => rfl⟩

/-! ### SetFlags -/

/-- The mappings of the range get the permission to write from the new flags. -/
lemma modifiedFlags_write (range : VmRange) (flags : VmFlags) :
    (modifiedFlags range (flagArgs range.flags flags)).write = flags.has .write := by
  have hmask : vmFlagTypeMask.getLsbD 0 = false := by decide
  simp only [modifiedFlags, HatFlags.union, HatFlags.without, convertFlags, flagArgs, VmFlags.has,
    VmFlag.index, BitVec.getLsbD_and, BitVec.getLsbD_not, hmask]
  cases range.flags.getLsbD 0 <;> cases flags.getLsbD 0 <;> rfl

/-- **`SetFlags`** keeps the zero page pristine exactly if it gives no permission to write to it. -/
lemma pristine_setFlags_iff (h : S.Inv d) (hz : d.zeroPage % PageSize = 0) (hp : S.Pristine d)
    (i : ι) (base : ℕ) (flags : VmFlags) :
    (∀ S', S.step m d (.setFlags i base flags) = some S' → S'.Pristine d) ↔
      S.Careful m d (.setFlags i base flags) := by
  obtain ⟨v1, r, hrun, -⟩ := setFlags_spec d.drivers base flags (h.enter_anon i).wf
  have hstep : S.step m d (.setFlags i base flags) = some (S.leave i v1) := by
    rw [step, hrun]
    rfl
  rw [forall_pristine hstep, Careful, hrun]
  obtain ⟨-, hcase⟩ := (h.enter_anon i).setFlags hrun
  rcases hcase with ⟨rfl, -, henv⟩ | ⟨range, rest, rfl, hat, -, -, henv⟩
  · exact iff_of_true (hp.leave_same (by rw [henv]; rfl) (by rw [henv]; rfl)) trivial
  · obtain ⟨new, hnew⟩ : ∃ new, new = modifiedFlags range (flagArgs range.flags flags) := ⟨_, rfl⟩
    have hmap : (S.leave i v1).map i = synced range.firstPage (fun _ pte => ⟨pte.frame, new⟩)
        (S.map i) range.pageCount := by
      rw [map_leave_self, henv, hnew]
      rfl
    have hmem : (S.leave i v1).mem = S.mem := by
      rw [leave, henv]
      rfl
    have hreads : (S.leave i v1).ReadsRight i := by
      intro vaddr pte hpte
      rw [hmap] at hpte
      rw [hmem]
      rcases synced_cases hpte with hold | ⟨k, -, -, old, hold, rfl⟩
      · exact hp.reads i vaddr pte hold
      · exact hp.reads i vaddr old hold
    rw [pristine_iff_space h hz hp (fun j => map_leave_of_ne S v1) (fun _ _ => rfl)
      (fun _ _ => by rw [hmem]), and_iff_left hreads]
    simp only [hat, ← modifiedFlags_write range flags, ← hnew]
    constructor
    · rintro hro hwrite page hpage ⟨pte, hpte, hframe⟩
      have hset : (S.leave i v1).map i page = some ⟨pte.frame, new⟩ := by
        rw [hmap]
        exact (if_pos (VmRange.mem_pages.mp hpage)).trans (by rw [hpte]; rfl)
      rw [hro page _ hset hframe] at hwrite
      cases hwrite
    · intro hclear page pte hpte hframe
      rw [hmap] at hpte
      rcases synced_cases hpte with hold | ⟨k, hk, hpage, old, hold, rfl⟩
      · exact hp.readonly i page pte hold hframe
      · by_contra hwrite
        rw [Bool.not_eq_false] at hwrite
        refine hclear hwrite page (VmRange.mem_pages.mpr ⟨by omega, by omega⟩) ?_
        exact ⟨old, hold, hframe⟩

end AnonSystem

end Northport.Memory
