/-
# Ranges of whole pages

The drivers walk over the pages of a range, one after the other.  `backed` and `synced` are the
page tables after such a loop: `HatDoMap` maps the pages that are not mapped, `HatSyncMap` replaces
the entries of those that are.
-/
import Northport.Memory.PageMap
import Northport.Memory.VmDriverAttach

namespace Northport.Memory

open Lib List

/-! ### Whole pages -/

namespace VmRange

/-- The range is made of whole pages, and ends below the last address. -/
structure Whole (range : VmRange) : Prop where
  base : range.base % PageSize = 0
  length : range.length % PageSize = 0
  top : range.base + range.length < wordSize

instance (range : VmRange) : Decidable range.Whole :=
  decidable_of_iff (range.base % PageSize = 0 ∧ range.length % PageSize = 0 ∧
    range.base + range.length < wordSize)
    ⟨fun ⟨h1, h2, h3⟩ => ⟨h1, h2, h3⟩, fun ⟨h1, h2, h3⟩ => ⟨h1, h2, h3⟩⟩

def firstPage (range : VmRange) : ℕ := range.base / PageSize

def pageCount (range : VmRange) : ℕ := range.length / PageSize

/-- The page lies in the range. -/
def HasPage (range : VmRange) (x : ℕ) : Prop :=
  range.firstPage ≤ x ∧ x < range.firstPage + range.pageCount

instance (range : VmRange) (x : ℕ) : Decidable (range.HasPage x) :=
  inferInstanceAs (Decidable (_ ∧ _))

variable {range : VmRange}

section

variable (h : range.Whole)
include h

lemma Whole.base_eq : range.base = range.firstPage * PageSize :=
  (Nat.div_mul_cancel (Nat.dvd_of_mod_eq_zero h.base)).symm

lemma Whole.length_eq : range.length = range.pageCount * PageSize :=
  (Nat.div_mul_cancel (Nat.dvd_of_mod_eq_zero h.length)).symm

lemma Whole.top_eq : range.top = range.base + range.length := add64_eq h.top

/-- The pages of the range are those of its addresses. -/
lemma Whole.hasPage_iff {addr : ℕ} :
    range.HasPage (addr / PageSize) ↔ range.base ≤ addr ∧ addr < range.base + range.length := by
  have hb := h.base_eq
  have hl := h.length_eq
  rw [HasPage]
  rw [PageSize] at *
  omega

/-- The pages of the range end below the last address. -/
lemma Whole.page_top {page : ℕ} (hpage : range.HasPage page) :
    (page + 1) * PageSize < wordSize := by
  have hb := h.base_eq
  have hl := h.length_eq
  have htop := h.top
  have hlt := hpage.2
  have hle : (page + 1) * PageSize ≤ (range.firstPage + range.pageCount) * PageSize :=
    Nat.mul_le_mul_right _ hlt
  rw [add_mul (range.firstPage)] at hle
  omega

/-- The granules of a range in mode 0 are its pages. -/
lemma Whole.granules_eq : VmMachine.granules range.length (granularity 0) =
    (List.range range.pageCount).map (· * PageSize) := by
  have hl := h.length_eq
  have hcount : (range.length + granularity 0 - 1) / granularity 0 = range.pageCount := by
    have hg : granularity 0 = 0x1000 := rfl
    rw [hg]
    rw [PageSize] at hl
    omega
  rw [VmMachine.granules, hcount]
  rfl

/-- A loop over the granules, by the state after each page. -/
lemma Whole.foldl_granules {σ : Type*} {s : σ} {f : σ → ℕ → σ} (state : ℕ → σ)
    (hzero : state 0 = s)
    (hstep : ∀ n < range.pageCount, f (state n) (n * PageSize) = state (n + 1)) :
    (VmMachine.granules range.length (granularity 0)).foldl f s = state range.pageCount := by
  have hloop : ∀ n ≤ range.pageCount,
      ((List.range n).map (· * PageSize)).foldl f s = state n := by
    intro n hn
    induction n with
    | zero => exact hzero.symm
    | succ n ih =>
      rw [range_succ, map_append, foldl_append, ih (by omega)]
      exact hstep n hn
  rw [h.granules_eq, hloop _ le_rfl]

/-- The `k`-th granule is the `k`-th page. -/
lemma Whole.granule_page {k : ℕ} (hk : k < range.pageCount) :
    add64 range.base (k * PageSize) / PageSize = range.firstPage + k := by
  have hb := h.base_eq
  have hl := h.length_eq
  have htop := h.top
  rw [PageSize] at *
  rw [add64_eq (by omega)]
  omega

end

end VmRange

namespace PageMap

/-! ### Loops over pages -/

/-- The first `n` pages from `first` on are mapped, where they were not mapped before. -/
def backed (first : ℕ) (flags : HatFlags) (frame : ℕ → ℕ) (map : PageMap) (n : ℕ) : PageMap :=
  fun x =>
    if first ≤ x ∧ x < first + n then some ((map x).getD ⟨frame (x - first), flags⟩) else map x

/-- The entries of the first `n` pages from `first` on are replaced, where there are any. -/
def synced (first : ℕ) (f : ℕ → Pte → Pte) (map : PageMap) (n : ℕ) : PageMap :=
  fun x => if first ≤ x ∧ x < first + n then (map x).map (f (x - first)) else map x

lemma backed_zero (first : ℕ) (flags : HatFlags) (frame : ℕ → ℕ) (map : PageMap) :
    backed first flags frame map 0 = map := by
  ext1 x
  exact if_neg (by omega)

lemma synced_zero (first : ℕ) (f : ℕ → Pte → Pte) (map : PageMap) : synced first f map 0 = map := by
  ext1 x
  exact if_neg (by omega)

variable {first n : ℕ} {f : ℕ → Pte → Pte} {map : PageMap} {pte : Pte}

/-- A change of the next page, where the pages before it are changed already. -/
lemma set_next (g map : PageMap) :
    set (fun x => if first ≤ x ∧ x < first + n then g x else map x) (first + n)
      (g (first + n)) = fun x => if first ≤ x ∧ x < first + (n + 1) then g x else map x := by
  ext1 x
  by_cases hx : x = first + n
  · rw [hx, if_pos (by omega)]
    exact if_pos rfl
  · refine (if_neg hx).trans ?_
    have hiff : (first ≤ x ∧ x < first + n) ↔ (first ≤ x ∧ x < first + (n + 1)) := by omega
    simp only [hiff]

lemma set_eq_self {page : ℕ} {entry : Option Pte} (h : map page = entry) :
    map.set page entry = map := by
  ext1 x
  by_cases hx : x = page
  · rw [hx, h]
    exact if_pos rfl
  · exact if_neg hx

/-- The next page is mapped: `HatDoMap` succeeds if it was not mapped. -/
lemma hatDoMap_backed {vaddr paddr : ℕ} (flags : HatFlags) (frame : ℕ → ℕ) (map : PageMap)
    (hvaddr : vaddr / PageSize = first + n) (hpaddr : alignDown paddr PageSize = frame n) :
    (backed first flags frame map n).hatDoMap vaddr paddr flags =
      ((map (first + n)).isNone, backed first flags frame map (n + 1)) := by
  have hnext : backed first flags frame map n (first + n) = map (first + n) := if_neg (by omega)
  have hstep : (backed first flags frame map n).set (first + n) _ =
    backed first flags frame map (n + 1) := set_next _ _
  rw [Nat.add_sub_cancel_left] at hstep
  rw [hatDoMap, hvaddr, hnext, ← hstep]
  cases hm : map (first + n) with
  | some pte => exact congrArg (Prod.mk false) (set_eq_self (hnext.trans hm)).symm
  | none =>
    rw [hpaddr]
    rfl

/-- The entry of the next page is replaced, if there is one. -/
lemma hatSyncMap_synced {vaddr : ℕ} (paddr : Option ℕ) (flags : Option HatFlags) (map : PageMap)
    (hvaddr : vaddr / PageSize = first + n) (hf : ∀ pte, f n pte =
      ⟨(paddr.map (alignDown · PageSize)).getD pte.frame, flags.getD pte.flags⟩) :
    ((synced first f map n).hatSyncMap vaddr paddr flags).2 = synced first f map (n + 1) := by
  have hnext : synced first f map n (first + n) = map (first + n) := if_neg (by omega)
  have hstep : (synced first f map n).set (first + n) _ = synced first f map (n + 1) :=
    set_next _ _
  rw [Nat.add_sub_cancel_left] at hstep
  rw [hatSyncMap, hvaddr, hnext, ← hstep]
  cases hm : map (first + n) with
  | none => exact (set_eq_self (hnext.trans hm)).symm
  | some pte =>
    rw [Option.map_some, hf pte]
    cases paddr <;> rfl

lemma backed_cases {page : ℕ} {flags : HatFlags} {frame : ℕ → ℕ}
    (h : backed first flags frame map n page = some pte) :
    map page = some pte ∨
      (map page = none ∧ ∃ k < n, page = first + k ∧ pte = ⟨frame k, flags⟩) := by
  rw [backed] at h
  split_ifs at h with hin
  · cases hm : map page with
    | some old =>
      rw [hm] at h
      exact .inl h
    | none =>
      rw [hm] at h
      exact .inr ⟨rfl, page - first, by omega, by omega, (Option.some.inj h).symm⟩
  · exact .inl h

lemma synced_cases {page : ℕ} (h : synced first f map n page = some pte) :
    map page = some pte ∨ ∃ k < n, page = first + k ∧ ∃ old, map page = some old ∧ pte = f k old := by
  rw [synced] at h
  split_ifs at h with hin
  · obtain ⟨old, hold, hpte⟩ := Option.map_eq_some_iff.mp h
    exact .inr ⟨page - first, by omega, by omega, old, hold, hpte.symm⟩
  · exact .inl h

end PageMap

end Northport.Memory
