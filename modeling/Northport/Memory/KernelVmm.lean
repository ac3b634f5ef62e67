/-
# The kernel's address space

The kernel VMM manages the addresses from the end of the higher half direct map to the end
of the kernel binary, and enters the mappings of the kernel binary as ranges.  The hole it
starts with is cut around none of them, so the text, the read-only data and the data of the
kernel are free for allocation from the start.
-/
import Northport.Memory.Pmm
import Northport.Memory.UserVmm

namespace Northport.Memory

open Lib Northport.RBTree List Option

/-- The symbols of the linker script, and where the higher half direct map lies. -/
structure KernelLayout where
  hhdmBase : ℕ
  hhdmLength : ℕ
  granularity : ℕ
  textBegin : ℕ
  textEnd : ℕ
  rodataBegin : ℕ
  rodataEnd : ℕ
  dataBegin : ℕ
  dataEnd : ℕ
  blobEnd : ℕ
  granularity_pos : 0 < granularity
  granularity_lt : granularity < wordSize
  /-- The image lies in the topmost 2 GiB. -/
  top_le_text : wordSize - 2 ^ 31 ≤ textBegin
  text_le : textBegin ≤ textEnd
  text_le_rodata : textEnd ≤ rodataBegin
  rodata_le : rodataBegin ≤ rodataEnd
  rodata_le_data : rodataEnd ≤ dataBegin
  data_le : dataBegin ≤ dataEnd
  data_le_blob : dataEnd ≤ blobEnd
  blobEnd_lt : blobEnd < wordSize
  /-- The direct map lies in the higher half and ends below the image. -/
  half_le_hhdm : wordSize / 2 ≤ hhdmBase
  hhdm_le : hhdmBase + hhdmLength ≤ alignDown textBegin PageSize

/-- `MapSection`, without the mappings themselves. -/
def mapSection (addr length : ℕ) (vmFlags : VmFlags) : VmRange :=
  let length := alignUp (add64 addr length) PageSize
  let addr := alignDown addr PageSize
  let length := sub64 length addr
  { base := addr, length := length, flags := vmFlags ||| (1#64 <<< VmFlag.mmio.index),
    offset := 0, token := 0, mdlCount := 1 }

namespace KernelLayout

variable (layout : KernelLayout)

def textRange : VmRange :=
  mapSection layout.textBegin (sub64 layout.textEnd layout.textBegin)
    (1#64 <<< VmFlag.execute.index)

def rodataRange : VmRange :=
  mapSection layout.rodataBegin (sub64 layout.rodataEnd layout.rodataBegin) 0

def dataRange : VmRange :=
  mapSection layout.dataBegin (sub64 layout.dataEnd layout.dataBegin)
    (1#64 <<< VmFlag.write.index)

/-- The hole that the kernel VMM starts with. -/
def initialHole : Span :=
  ⟨add64 layout.hhdmBase layout.hhdmLength,
    sub64 (alignUp layout.blobEnd layout.granularity) (add64 layout.hhdmBase layout.hhdmLength)⟩

/-- The mappings of the kernel binary. -/
def imageSpans : List Span :=
  [layout.textRange.span, layout.rodataRange.span, layout.dataRange.span]

end KernelLayout

/-- The three elements of `kernelRanges`, which no slab contains. -/
structure KernelRanges (P : Type) where
  text : P
  rodata : P
  data : P
  nodup : [text, rodata, data].Nodup

namespace Vmm

variable {P σ : Type} [DecidableEq P] (m : MetaAlloc P)

/-- `VirtualMemoryManager(VmmKey)`. -/
def kernel (layout : KernelLayout) (k : KernelRanges P) (env : VmEnv σ) (rangeMem : P → VmRange)
    (holeMem : P → VmHole) : Option (Vmm P σ) := do
  let v ← commonInit m (add64 layout.hhdmBase layout.hhdmLength)
    (alignUp layout.blobEnd layout.granularity) env rangeMem holeMem
  let v := { v with rangeMeta := [k.text, k.rodata, k.data] }
  let v ← v.insertRange k.text layout.textRange
  let v ← v.insertRange k.rodata layout.rodataRange
  v.insertRange k.data layout.dataRange

/-- **The kernel binary is safe** from a state on: whatever is called, no hole overlaps a
mapping of the binary, and no address that `Alloc` returns lies in one. -/
def ImageSafe (layout : KernelLayout) (v : Vmm P σ) : Prop :=
  ∀ ops v', run (step m) v ops = some v' →
    (∀ s ∈ v'.holeSpans, ∀ t ∈ layout.imageSpans, s.Disjoint t) ∧
    ∀ drivers length initArg flags limits v'' r,
      v'.alloc m drivers length initArg flags limits = some (v'', some r) →
        ∀ t ∈ layout.imageSpans, ¬ t.Contains r

variable {m}

/-- The constructor enters every range, wherever the holes are. -/
lemma insertRange_isSome {v : Vmm P σ} {p : P} (range : VmRange)
    (h : v.ranges.Inv rangeLaws VmRange.base) (hp : p ∉ v.ranges.live) :
    ∃ ranges, v.insertRange p range = some { v with ranges := ranges } ∧
      ranges.Inv rangeLaws VmRange.base ∧ ranges.live = p :: v.ranges.live := by
  obtain ⟨ranges, h1, hinv, hlive, -⟩ := LiveTree.insert_spec vmRangeLess_eq range h hp
  exact ⟨ranges, by rw [insertRange, h1]; rfl, hinv, hlive⟩

/-- The constructor succeeds, with one hole for all that it manages. -/
lemma kernel_spec (m : MetaAlloc P) (layout : KernelLayout) (k : KernelRanges P) (env : VmEnv σ)
    (rangeMem : P → VmRange) (holeMem : P → VmHole) :
    ∃ v, kernel m layout k env rangeMem holeMem = some v ∧ v.holeSpans = [layout.initialHole] := by
  obtain ⟨lower, hlower⟩ : ∃ lower, add64 layout.hhdmBase layout.hhdmLength = lower := ⟨_, rfl⟩
  obtain ⟨n, hn⟩ : ∃ n, sub64 (alignUp layout.blobEnd layout.granularity) lower = n := ⟨_, rfl⟩
  have hempty : (LiveTree.empty holeMem).Inv vmHoleLaws Prod.fst := LiveTree.inv_empty _
  obtain ⟨holes, h1, -, hlive, hcore, -⟩ := LiveTree.insert_spec vmHoleLess_eq ⟨lower, n, n⟩ hempty
    (p := m.pick []) not_mem_nil
  have hnodup := k.nodup
  simp only [nodup_cons, mem_cons, not_mem_nil, or_false, not_or] at hnodup
  obtain ⟨⟨htr, htd⟩, hrd, -⟩ := hnodup
  obtain ⟨v0, hv0⟩ : ∃ v0 : Vmm P σ, v0 =
    { ranges := .empty rangeMem, holes := holes, rangeMeta := [k.text, k.rodata, k.data],
      holeMeta := [m.pick []], globalLowerBound := lower,
      globalUpperBound := alignUp layout.blobEnd layout.granularity, env := env, dropped := [] } :=
    ⟨_, rfl⟩
  have hranges0 : v0.ranges.Inv rangeLaws VmRange.base := by
    rw [hv0]
    exact LiveTree.inv_empty _
  have hlive0 : v0.ranges.live = [] := by
    rw [hv0]
    rfl
  obtain ⟨ranges1, hi1, hinv1, hlive1⟩ := insertRange_isSome (p := k.text) layout.textRange hranges0
    (by rw [hlive0]; exact not_mem_nil)
  obtain ⟨ranges2, hi2, hinv2, hlive2⟩ := insertRange_isSome (v := { v0 with ranges := ranges1 })
    (p := k.rodata) layout.rodataRange hinv1
    (by simp only [hlive1, hlive0, mem_singleton]; exact fun h => htr h.symm)
  obtain ⟨ranges3, hi3, -, -⟩ := insertRange_isSome (v := { v0 with ranges := ranges2 })
    (p := k.data) layout.dataRange hinv2 (by
      simp only [hlive2, hlive1, hlive0, mem_cons, not_mem_nil, or_false, not_or]
      exact ⟨fun h => hrd h.symm, fun h => htd h.symm⟩)
  refine ⟨{ v0 with ranges := ranges3 }, ?_, ?_⟩
  · have hinit : commonInit m lower (alignUp layout.blobEnd layout.granularity) env rangeMem holeMem
        = some { v0 with rangeMeta := [] } := by
      rw [commonInit, insertHole, hn, h1, hv0]
      rfl
    rw [kernel, hlower, hinit]
    have hmeta : ({ v0 with rangeMeta := [k.text, k.rodata, k.data] } : Vmm P σ) = v0 := by
      rw [hv0]
    simp only [bind_eq_bind, bind_some, hmeta, hi1, hi2, hi3]
  · rw [KernelLayout.initialHole, hlower, hn]
    simp only [holeSpans, hv0, hlive, LiveTree.empty, map_cons, map_nil, VmHole.span,
      base_eq_of_core hcore, length_eq_of_core hcore]

end Vmm

/-! ### The mappings of the binary -/

/-- The ranges of the binary belong to the kernel's driver. -/
lemma mapSection_typed (addr length : ℕ) (flags : VmFlags) :
    (mapSection addr length flags).flags.typed = true := by
  have hmmio : (1#64 <<< VmFlag.mmio.index).getLsbD VmFlag.mmio.index = true := by decide
  simp only [mapSection, VmFlags.typed, VmFlags.has, BitVec.getLsbD_or, hmmio, Bool.or_true]

/-- An empty section that begins at the start of a page has an empty mapping. -/
lemma mapSection_length_eq_zero {first : ℕ} (flags : VmFlags) (hlt : first < wordSize)
    (haligned : alignDown first PageSize = first) :
    (mapSection first (sub64 first first) flags).length = 0 := by
  have hsub : sub64 first first = 0 := by rw [sub64_eq hlt le_rfl, Nat.sub_self]
  have hadd : add64 first 0 = first := add64_eq hlt
  have hup : alignUp first PageSize = first := by
    obtain ⟨q, rfl⟩ : ∃ q, first = q * PageSize := ⟨_, haligned.symm⟩
    have hroom : q * PageSize + PageSize ≤ wordSize := by
      have hword : wordSize = 2 ^ 52 * PageSize := by decide
      rw [hword] at hlt ⊢
      rw [← Nat.succ_mul]
      exact Nat.mul_le_mul_right _ (Nat.lt_of_mul_lt_mul_right hlt)
    have hpos : 0 < PageSize := by decide
    have hsum : q * PageSize + PageSize - 1 = PageSize - 1 + q * PageSize := by omega
    rw [alignUp_eq (by decide) hroom, hsum, Nat.add_mul_div_right _ _ (by decide),
      Nat.div_eq_of_lt (by decide), zero_add]
  show sub64 (alignUp (add64 first (sub64 first first)) PageSize) (alignDown first PageSize) = 0
  rw [hsub, hadd, hup, haligned, hsub]

namespace KernelLayout

variable (layout : KernelLayout)

/-- Every mapping of the binary is that of a section. -/
lemma exists_section {t : Span} (ht : t ∈ layout.imageSpans) : ∃ first last flags,
    layout.textBegin ≤ first ∧ first ≤ last ∧ last ≤ layout.blobEnd ∧
      t = (mapSection first (sub64 last first) flags).span := by
  have h1 := layout.text_le
  have h2 := layout.text_le_rodata
  have h3 := layout.rodata_le
  have h4 := layout.rodata_le_data
  have h5 := layout.data_le
  have h6 := layout.data_le_blob
  simp only [imageSpans, mem_cons, not_mem_nil, or_false] at ht
  rcases ht with rfl | rfl | rfl
  · exact ⟨_, _, _, le_rfl, h1, by omega, rfl⟩
  · exact ⟨_, _, _, by omega, h3, by omega, rfl⟩
  · exact ⟨_, _, _, by omega, h5, h6, rfl⟩

/-- **The first hole contains the start of every mapping** of the binary that is not empty. -/
lemma initialHole_overlaps {t : Span} (ht : t ∈ layout.imageSpans) (hne : t.length ≠ 0) :
    layout.initialHole.Contains t.base := by
  obtain ⟨first, last, flags, hfirst, hle, hlast, rfl⟩ := layout.exists_section ht
  have hblob := layout.blobEnd_lt
  have hhalf := layout.half_le_hhdm
  have hdown := alignDown_le first PageSize
  have hhhdm := layout.hhdm_le.trans (alignDown_mono PageSize hfirst)
  have hlower : add64 layout.hhdmBase layout.hhdmLength = layout.hhdmBase + layout.hhdmLength :=
    add64_eq (by omega)
  have hhalfpos : 0 < wordSize / 2 := by decide
  rw [initialHole, hlower]
  refine ⟨hhhdm, ?_⟩
  show alignDown first PageSize < layout.hhdmBase + layout.hhdmLength +
    sub64 (alignUp layout.blobEnd layout.granularity) (layout.hhdmBase + layout.hhdmLength)
  by_cases hwrap : layout.blobEnd + layout.granularity ≤ wordSize
  · -- the hole ends behind the image
    have hup := (le_alignUp layout.granularity_pos hwrap).1
    rw [sub64_eq (alignUp_lt _ _) (by omega)]
    by_contra hge
    obtain rfl : first = last := by omega
    exact hne (mapSection_length_eq_zero flags (by omega) (by omega))
  · -- the upper bound wraps to 0, and the length of the hole with it
    rw [alignUp_wrap hblob layout.granularity_lt (by omega),
      sub64_of_lt (by omega) (by omega)]
    omega

end KernelLayout

/-! ### The invariant of the kernel's address space -/

/-- The page size divides the granularity and nothing wraps around. -/
structure KernelLayout.Regular (layout : KernelLayout) : Prop where
  dvd : PageSize ∣ layout.granularity
  room : layout.blobEnd + layout.granularity ≤ wordSize

/-- The mapping of a section ends before the managed addresses do. -/
lemma KernelLayout.Regular.inside {layout : KernelLayout} (h : layout.Regular) {t : Span}
    (ht : t ∈ layout.imageSpans) :
    t.Inside (layout.hhdmBase + layout.hhdmLength) (alignUp layout.blobEnd layout.granularity) := by
  have hpos := layout.granularity_pos
  have hroom := h.room
  obtain ⟨c, hc⟩ := h.dvd
  have hcpos : 0 < c := Nat.pos_of_ne_zero (by rintro rfl; omega)
  have hpage : PageSize ≤ layout.granularity := by
    rw [hc]
    exact Nat.le_mul_of_pos_right _ hcpos
  have hmultiple : alignUp layout.blobEnd layout.granularity
      = (layout.blobEnd + layout.granularity - 1) / layout.granularity * c * PageSize := by
    rw [alignUp_eq hpos hroom, mul_assoc, mul_comm c, ← hc]
  obtain ⟨first, last, flags, hfirst, hle, hlast, rfl⟩ := layout.exists_section ht
  have hsub : sub64 last first = last - first := sub64_eq (by omega) hle
  have hadd : add64 first (last - first) = last := by
    rw [add64_eq (by omega)]
    omega
  have hdown := alignDown_le first PageSize
  have hup := (le_alignUp (show 0 < PageSize by decide) (show last + PageSize ≤ wordSize by omega)).1
  have hend : sub64 (alignUp last PageSize) (alignDown first PageSize)
      = alignUp last PageSize - alignDown first PageSize := sub64_eq (alignUp_lt _ _) (by omega)
  refine ⟨layout.hhdm_le.trans (alignDown_mono PageSize hfirst), ?_⟩
  show alignDown first PageSize + sub64 (alignUp (add64 first (sub64 last first)) PageSize)
    (alignDown first PageSize) ≤ _
  rw [hsub, hadd]
  have hle : alignUp last PageSize ≤ alignUp layout.blobEnd layout.granularity := by
    rw [hmultiple]
    refine alignUp_le (by decide) (by omega) ?_
    rw [← hmultiple]
    exact hlast.trans (le_alignUp hpos hroom).1
  omega

namespace Vmm

variable {P σ : Type} [DecidableEq P]

/-- Spans that are to become ranges without leaving the holes. -/
lemma Wf.enter {v : Vmm P σ} {image l : List Span} (h : Wf image v l) (l' : List Span)
    (hinside : ∀ s ∈ l', s.Inside v.globalLowerBound v.globalUpperBound) :
    Wf (l' ++ image) v (l' ++ l) := by
  refine { h with inside := ?_, tiles := ?_ }
  · rw [append_assoc, append_assoc, forall_mem_append, ← append_assoc]
    exact ⟨hinside, h.inside⟩
  · have htiles := h.tiles.append l'
    simp only [append_assoc] at htiles ⊢
    exact htiles

/-- **The invariant after the constructor**, over the mappings of the binary. -/
lemma kernel_wf (m : MetaAlloc P) {layout : KernelLayout} (hreg : layout.Regular)
    (k : KernelRanges P) (env : VmEnv σ) (rangeMem : P → VmRange) (holeMem : P → VmHole) :
    ∃ v, kernel m layout k env rangeMem holeMem = some v ∧ Wf layout.imageSpans v [] := by
  have hblob := layout.blobEnd_lt
  have hhalf := layout.half_le_hhdm
  have hhalfpos : 0 < wordSize / 2 := by decide
  have htext := alignDown_le layout.textBegin PageSize
  have hhhdm := layout.hhdm_le
  obtain ⟨first, last, -, hfirst, hle, hlast, -⟩ := layout.exists_section mem_cons_self
  have hup := (le_alignUp layout.granularity_pos hreg.room).1
  have hlower : add64 layout.hhdmBase layout.hhdmLength = layout.hhdmBase + layout.hhdmLength :=
    add64_eq (by omega)
  obtain ⟨v0, hinit, hwf0, hlo, hhi, -, -, hranges⟩ := commonInit_spec (m := m) env rangeMem holeMem
    (show 0 < layout.hhdmBase + layout.hhdmLength by omega)
    (show _ ≤ alignUp layout.blobEnd layout.granularity by omega) (alignUp_lt _ _)
  have hlive : v0.ranges.live = [] := map_eq_nil_iff.mp hranges
  have hnodup := k.nodup
  simp only [nodup_cons, mem_cons, not_mem_nil, or_false, not_or] at hnodup
  obtain ⟨⟨htr, htd⟩, hrd, -⟩ := hnodup
  -- the three ranges are entered one after the other
  have hwf1 : Wf [] { v0 with rangeMeta := [k.text, k.rodata, k.data] } [] :=
    hwf0.congr _ hwf0.holeMeta (by rw [hlive]; simp)
  have hwf2 := hwf1.enter layout.imageSpans (fun s hs => by
    simp only [hlo, hhi]
    exact hreg.inside hs)
  obtain ⟨ranges1, hi1, hwf3, hlive1, -⟩ := insertRange_spec hwf2 (p := k.text) (by simp)
    (by simp [hlive]) (mapSection_typed _ _ _)
  obtain ⟨ranges2, hi2, hwf4, hlive2, -⟩ := insertRange_spec hwf3 (p := k.rodata) (by simp)
    (by simp [hlive1, hlive, Ne.symm htr]) (mapSection_typed _ _ _)
  obtain ⟨ranges3, hi3, hwf5, -, -⟩ := insertRange_spec hwf4 (p := k.data) (by simp)
    (by simp [hlive2, hlive1, hlive, Ne.symm htd, Ne.symm hrd])
    (mapSection_typed _ _ _)
  refine ⟨_, ?_, hwf5⟩
  simp only [kernel, hlower, hinit, bind_eq_bind, bind_some, hi1, hi2, hi3]

/-- **The kernel binary is safe only when there is none**: whatever the layout, the first
hole overlaps every mapping of the binary, so the binary is safe from the constructor on
exactly when its three mappings are empty. -/
theorem kernel_imageSafe_iff (m : MetaAlloc P) (layout : KernelLayout) (k : KernelRanges P)
    (env : VmEnv σ) (rangeMem : P → VmRange) (holeMem : P → VmHole) :
    ∃ v, kernel m layout k env rangeMem holeMem = some v ∧
      (ImageSafe m layout v ↔ ∀ t ∈ layout.imageSpans, t.length = 0) := by
  obtain ⟨v, hv, hholes⟩ := kernel_spec m layout k env rangeMem holeMem
  refine ⟨v, hv, ?_, ?_⟩
  · intro hsafe t ht
    by_contra hne
    have hdisjoint := (hsafe [] v rfl).1 layout.initialHole (by rw [hholes]; exact mem_cons_self)
      t ht
    exact hdisjoint t.base (layout.initialHole_overlaps ht hne) ⟨le_rfl, by omega⟩
  · intro hempty ops v' _
    have hno : ∀ t ∈ layout.imageSpans, ∀ a, ¬ t.Contains a := by
      rintro t ht a ⟨hlo, hhi⟩
      have hlen := hempty t ht
      omega
    exact ⟨fun s _ t ht a _ => hno t ht a, fun _ _ _ _ _ _ r _ t ht => hno t ht r⟩

/-- The layout of the linker script for x86_64, with one page in each section and 4 GiB of
memory behind the direct map. -/
def x86Layout : KernelLayout where
  hhdmBase := 0xFFFF800000000000
  hhdmLength := 0x100000000
  granularity := 0x1000
  textBegin := 0xFFFFFFFF80000000
  textEnd := 0xFFFFFFFF80001000
  rodataBegin := 0xFFFFFFFF80002000
  rodataEnd := 0xFFFFFFFF80003000
  dataBegin := 0xFFFFFFFF80004000
  dataEnd := 0xFFFFFFFF80005000
  blobEnd := 0xFFFFFFFF80005000
  granularity_pos := Platform.x86.granularity_pos
  granularity_lt := by decide
  top_le_text := by decide
  text_le := by decide
  text_le_rodata := by decide
  rodata_le := by decide
  rodata_le_data := by decide
  data_le := by decide
  data_le_blob := by decide
  blobEnd_lt := by decide
  half_le_hhdm := by decide
  hhdm_le := by decide

/-- The first allocation takes all that lies below the binary; the second one returns the
start of the kernel's text. -/
theorem kernel_alloc_returns_text :
    ∃ v0 v, kernel MetaAlloc.counting x86Layout ⟨1, 2, 3, by decide⟩
        ⟨⟨0, 0, 0, 0, 0, 0, 0, 0, 0⟩, ()⟩ (fun _ => ⟨0, 0, 0, 0, 0, 0⟩) (fun _ => ⟨0, 0, 0⟩)
          = some v0 ∧
      run (step .counting) v0 [.alloc pageDrivers 0x7FFE80000000 0 (1#64 <<< 24) {}] = some v ∧
      (v.alloc .counting pageDrivers 0x1000 0 (1#64 <<< 24) {}).map Prod.snd
        = some (some 0xFFFFFFFF80000000) ∧
      x86Layout.textRange.span = ⟨0xFFFFFFFF80000000, 0x1000⟩ ∧
      ¬ ImageSafe .counting x86Layout v0 := by
  refine ⟨_, _, rfl, rfl, rfl, rfl, fun hsafe => ?_⟩
  refine (hsafe [.alloc pageDrivers 0x7FFE80000000 0 (1#64 <<< 24) {}] _ rfl).2
    pageDrivers 0x1000 0 (1#64 <<< 24) {} _ 0xFFFFFFFF80000000 rfl x86Layout.textRange.span
    mem_cons_self ?_
  decide

end Vmm

end Northport.Memory
