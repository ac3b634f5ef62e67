/-
# The zero page

With the zero page feature, one physical page stands behind all anonymous pages that were never
written, in every address space.  A system is a number of address spaces over one physical
memory; next to it stands the record `written` of what the programs have put where, which starts
with zeros.  The zero page is pristine when it holds zeros, no mapping lets a program write to it,
and every page reads as the record says.
-/
import Northport.Memory.AnonResident

namespace Northport.Memory

open Lib PageMap

/-- Address spaces over one physical memory. -/
structure AnonSystem (ι P τ : Type) where
  spaces : ι → Vmm P (AnonState τ)
  mem : ByteMem
  pmm : τ
  coresReady : Bool
  /-- What each address of a space holds, if nobody but its own programs writes there. -/
  written : ι → ByteMem

/-- What happens to the address space `i`, or to the machine. -/
inductive SystemOp (ι : Type) where
  | alloc (i : ι) (length initArg : ℕ) (flags : VmFlags) (limits : VmAllocLimits)
  | fault (i : ι) (addr : ℕ) (flags : VmFaultFlags)
  | store (i : ι) (vaddr : ℕ) (byte : BitVec 8)
  | setFlags (i : ι) (base : ℕ) (flags : VmFlags)
  | copyIn (i : ι) (base : ℕ) (bytes : List (BitVec 8))
  | free (i : ι) (base : ℕ)
  | cores (ready : Bool)

variable {ι P τ : Type} [DecidableEq ι]

namespace AnonSystem

open Vmm AnonVmDriver

section

variable (S : AnonSystem ι P τ)

/-- The page tables of a space. -/
def map (i : ι) : PageMap := (S.spaces i).env.map.map

/-- The VMM of a space, as it sees the machine. -/
def enter (i : ι) : Vmm P (AnonState τ) :=
  let v := S.spaces i
  { v with env := ⟨v.env.stats, ⟨v.env.map.map, S.mem, S.pmm, S.coresReady⟩⟩ }

/-- The space is left with this VMM. -/
def leave (i : ι) (v : Vmm P (AnonState τ)) : AnonSystem ι P τ :=
  { S with spaces := Function.update S.spaces i v, mem := v.env.map.mem, pmm := v.env.map.pmm }

/-- The record of one space is changed. -/
def record (i : ι) (f : ByteMem → ByteMem) : AnonSystem ι P τ :=
  { S with written := Function.update S.written i (f (S.written i)) }

/-- A program of the space may write to the page. -/
def writable (i : ι) (page : ℕ) : Bool :=
  (S.map i page).any fun pte => pte.flags.write

end

variable {S : AnonSystem ι P τ} {i j : ι} {v : Vmm P (AnonState τ)}

section

variable (S : AnonSystem ι P τ)

@[simp] lemma map_leave_self (i : ι) (v : Vmm P (AnonState τ)) :
    (S.leave i v).map i = v.env.map.map := by
  simp [map, leave]

@[simp] lemma map_leave_of_ne (v : Vmm P (AnonState τ)) (h : j ≠ i) :
    (S.leave i v).map j = S.map j := by
  simp [map, leave, h]

@[simp] lemma spaces_leave_self (i : ι) (v : Vmm P (AnonState τ)) : (S.leave i v).spaces i = v := by
  simp [leave]

@[simp] lemma spaces_leave_of_ne (v : Vmm P (AnonState τ)) (h : j ≠ i) :
    (S.leave i v).spaces j = S.spaces j := by
  simp [leave, h]

@[simp] lemma map_record (i : ι) (f : ByteMem → ByteMem) :
    (S.record i f).map = S.map := rfl

end

variable [DecidableEq P] (m : MetaAlloc P) (d : AnonVmDriver τ)

def step (S : AnonSystem ι P τ) : SystemOp ι → Option (AnonSystem ι P τ)
  | .alloc i length initArg flags limits =>
    ((S.enter i).alloc m d.drivers length initArg (anonFlags flags) limits).map fun
      | (v, some b) => (S.leave i v).record i (·.zero b (rangeSize length (anonFlags flags)))
      | (v, none) => S.leave i v
  | .fault i addr flags =>
    ((S.enter i).handleFault d.faultHandlers addr flags).map fun (v, _) => S.leave i v
  | .store i vaddr byte =>
    let v := S.enter i
    let S' := S.leave i { v with env := ⟨v.env.stats, v.env.map.store vaddr byte⟩ }
    some (if S.writable i (vaddr / PageSize) then S'.record i (·.writeList vaddr [byte]) else S')
  | .setFlags i base flags =>
    ((S.enter i).setFlags d.drivers base flags).map fun (v, _) => S.leave i v
  | .copyIn i base bytes =>
    ((S.enter i).copyIn d.faultHandlers base bytes).map fun (v, count) =>
      (S.leave i v).record i (·.writeList base (bytes.take count))
  | .free i base => ((S.enter i).free m d.drivers base).map fun (v, _) => S.leave i v
  | .cores ready => some { S with coresReady := ready }

/-! ### What is claimed of the zero page, and when it holds -/

/-- The mapped pages of a space read as the record says. -/
def ReadsRight (S : AnonSystem ι P τ) (i : ι) : Prop :=
  ∀ vaddr pte, S.map i (vaddr / PageSize) = some pte →
    S.mem (pte.frame + vaddr % PageSize) = S.written i vaddr

/-- **The zero page is pristine.** -/
structure Pristine (S : AnonSystem ι P τ) : Prop where
  zero : ∀ off < PageSize, S.mem (d.zeroPage + off) = 0#8
  readonly : ∀ i page pte, S.map i page = some pte → pte.frame = d.zeroPage →
    pte.flags.write = false
  reads : ∀ i, S.ReadsRight i

/-- The `k`-th page of a new range will read as zero: what is mapped there already does, or it gets
the zero page, or waits for a fault, or gets a page of the PMM that is zero. -/
def AttachZero (s : AnonState τ) (attachArg page k : ℕ) : Prop :=
  match s.map page with
  | some pte => ∀ off < PageSize, s.mem (pte.frame + off) = 0#8
  | none => (d.doZeroPage s attachArg || d.doDemand s attachArg) = true ∨
      ∀ off < PageSize, d.frames.content (d.frames.after s.pmm k) off = 0#8

/-- The `k`-th page that a fault maps will read as before. -/
def FaultSame (s : AnonState τ) (page k : ℕ) : Prop :=
  match s.map page with
  | some pte => ∀ off < PageSize,
      d.frames.content (d.frames.after s.pmm k) off = s.mem (pte.frame + off)
  | none => True

instance (s : AnonState τ) (attachArg page k : ℕ) : Decidable (AttachZero d s attachArg page k) := by
  rw [AttachZero]
  split <;> infer_instance

instance (s : AnonState τ) (page k : ℕ) : Decidable (FaultSame d s page k) := by
  rw [FaultSame]
  split <;> infer_instance

/-- **What the callbacks rely on.**  A new range: what is still mapped there reads as zero, and so do
the pages that the PMM gives if the range is backed at once.  A fault: the pages of the PMM hold
what the mapped pages of the window read.  `SetFlags` with permission to write: no page of the
range is mapped to the zero page.  `CopyIn`: only zeros are copied to the zero page. -/
def Careful (S : AnonSystem ι P τ) : SystemOp ι → Prop
  | .alloc i length initArg flags limits =>
    match (S.enter i).alloc m d.drivers length initArg (anonFlags flags) limits with
    | some (_, some b) =>
      let range := anonRange b length (anonFlags flags)
      ∀ k < range.pageCount, AttachZero d (S.enter i).env.map initArg (range.firstPage + k) k
    | _ => True
  | .fault i addr flags =>
    match (S.enter i).rangeAt addr with
    | some range => accessOk flags range.flags = true → ∀ k < mapCount range addr,
        FaultSame d (S.enter i).env.map (addr / PageSize + k) k
    | none => True
  | .store _ _ _ => True
  | .setFlags i base flags =>
    match (S.enter i).setFlags d.drivers base flags, (S.enter i).rangeAt base with
    | some (_, true), some range => flags.has .write = true →
        ∀ page ∈ range.pages, ¬ d.ZeroMapped (S.map i) page
    | _, _ => True
  | .copyIn i base bytes =>
    match (S.enter i).copyIn d.faultHandlers base bytes with
    | some (_, count) => ∀ k < count, d.ZeroMapped (S.map i) ((base + k) / PageSize) →
        bytes.getD k 0#8 = 0#8
    | none => True
  | .free _ _ => True
  | .cores _ => True

instance (S : AnonSystem ι P τ) (op : SystemOp ι) : Decidable (S.Careful m d op) := by
  cases op <;> rw [Careful] <;> first | infer_instance | (split <;> infer_instance)

/-! ### The invariant of all runs -/

/-- Every mapped frame is a page that the PMM has handed out, and only the zero page is mapped
twice.  The last page of the address space is never mapped. -/
structure Inv (S : AnonSystem ι P τ) : Prop where
  anon : ∀ i, (S.spaces i).Anon
  zero : d.frames.InUse S.pmm d.zeroPage
  frames : ∀ i page pte, S.map i page = some pte →
    d.frames.InUse S.pmm pte.frame ∧ pte.frame % PageSize = 0
  own : ∀ i j page page' pte pte', S.map i page = some pte → S.map j page' = some pte' →
    pte.frame = pte'.frame → pte.frame ≠ d.zeroPage → i = j ∧ page = page'
  top : ∀ i page pte, S.map i page = some pte → (page + 1) * PageSize < wordSize

/-- The entries of a space after a call: with the frames they had, with the zero page, or with the
next pages of the PMM, one after the other from the page `first` on. -/
def Renewed (S : AnonSystem ι P τ) (i : ι) (first n : ℕ) (map : PageMap) : Prop :=
  ∀ page pte, map page = some pte →
    (∃ old, S.map i page = some old ∧ pte.frame = old.frame) ∨
      (page + 1) * PageSize < wordSize ∧ (pte.frame = d.zeroPage ∨
        ∃ k < n, page = first + k ∧ pte.frame = d.frames.nth S.pmm k)

variable {m d}

omit [DecidableEq ι] in
lemma Inv.enter_anon (h : S.Inv d) (i : ι) : (S.enter i).Anon := (h.anon i).setEnv _

/-- **The invariant is kept** by a call that takes `n` pages from the PMM. -/
lemma Inv.leave (h : S.Inv d) (hz : d.zeroPage % PageSize = 0) (hanon : v.Anon) (first n : ℕ)
    (hpmm : v.env.map.pmm = d.frames.after S.pmm n)
    (hmap : S.Renewed d i first n v.env.map.map) : (S.leave i v).Inv d := by
  have hinUse : ∀ f, d.frames.InUse (S.leave i v).pmm f ↔
      (∃ k < n, f = d.frames.nth S.pmm k) ∨ d.frames.InUse S.pmm f := by
    intro f
    rw [show (S.leave i v).pmm = d.frames.after S.pmm n from hpmm]
    exact d.frames.inUse_after S.pmm n f
  -- a new page is no frame of the old mappings
  have hfresh : ∀ j page pte k, S.map j page = some pte → pte.frame ≠ d.frames.nth S.pmm k :=
    fun j page pte k hpte heq => d.frames.nth_fresh S.pmm k (heq ▸ (h.frames j page pte hpte).1)
  have hcase : ∀ j page pte, (S.leave i v).map j page = some pte →
      (∃ old, S.map j page = some old ∧ pte.frame = old.frame) ∨
        (page + 1) * PageSize < wordSize ∧ (pte.frame = d.zeroPage ∨
          (j = i ∧ ∃ k < n, page = first + k ∧ pte.frame = d.frames.nth S.pmm k)) := by
    intro j page pte hpte
    by_cases hj : j = i
    · subst hj
      rw [map_leave_self] at hpte
      rcases hmap page pte hpte with hold | ⟨htop, hzero | hnew⟩
      · exact .inl hold
      · exact .inr ⟨htop, .inl hzero⟩
      · exact .inr ⟨htop, .inr ⟨rfl, hnew⟩⟩
    · rw [map_leave_of_ne S v hj] at hpte
      exact .inl ⟨pte, hpte, rfl⟩
  refine ⟨fun j => ?_, (hinUse _).mpr (.inr h.zero), fun j page pte hpte => ?_, ?_, ?_⟩
  · by_cases hj : j = i
    · subst hj
      rw [spaces_leave_self]
      exact hanon
    · rw [spaces_leave_of_ne S v hj]
      exact h.anon j
  · rw [hinUse]
    rcases hcase j page pte hpte with ⟨old, hold, heq⟩ | ⟨-, heq | ⟨-, k, hk, -, heq⟩⟩
    · rw [heq]
      exact ⟨.inr (h.frames j page old hold).1, (h.frames j page old hold).2⟩
    · rw [heq]
      exact ⟨.inr h.zero, hz⟩
    · rw [heq]
      exact ⟨.inl ⟨k, hk, rfl⟩, d.frames.nth_aligned S.pmm k⟩
  · intro j j' page page' pte pte' hpte hpte' heq hne
    rcases hcase j page pte hpte with ⟨old, hold, hf⟩ | ⟨-, hf | ⟨hj, k, hk, hpage, hf⟩⟩
    · rcases hcase j' page' pte' hpte' with ⟨old', hold', hf'⟩ | ⟨-, hf' | ⟨-, k', -, -, hf'⟩⟩
      · exact h.own j j' page page' old old' hold hold' (by rw [← hf, ← hf', heq]) (hf ▸ hne)
      · exact absurd (heq.trans hf') hne
      · exact absurd (hf.symm.trans (heq.trans hf')) (hfresh j page old k' hold)
    · exact absurd hf hne
    · rcases hcase j' page' pte' hpte' with
        ⟨old', hold', hf'⟩ | ⟨-, hf' | ⟨hj', k', hk', hpage', hf'⟩⟩
      · exact absurd (hf'.symm.trans (heq.symm.trans hf)) (hfresh j' page' old' k hold')
      · exact absurd (heq.trans hf') hne
      · obtain rfl : k = k' := d.frames.nth_injective S.pmm (hf.symm.trans (heq.trans hf'))
        exact ⟨hj.trans hj'.symm, hpage.trans hpage'.symm⟩
  · intro j page pte hpte
    rcases hcase j page pte hpte with ⟨old, hold, -⟩ | ⟨htop, -⟩
    · exact h.top j page old hold
    · exact htop

/-- The record is no part of it. -/
lemma Inv.record (h : S.Inv d) (i : ι) (f : ByteMem → ByteMem) : (S.record i f).Inv d :=
  { h with }

end AnonSystem

end Northport.Memory
