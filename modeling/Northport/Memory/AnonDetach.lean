/-
# What `Detach` of anonymous memory leaves behind

`Detach` walks over the granules of the range, but the address that it unmaps is the base of the
range in every turn.  The first page is unmapped and its frame given back; all others stay as they
are.
-/
import Northport.Memory.AnonFault

namespace Northport.Memory

open Lib List

namespace AnonVmDriver

variable {τ : Type} {d : AnonVmDriver τ} {range : VmRange} {env : VmEnv (AnonState τ)}

/-- The frame of a page that the range does not share with all others. -/
def privateFrame (d : AnonVmDriver τ) (map : PageMap) (page : ℕ) : Option ℕ :=
  (map page).bind fun pte => if pte.frame = d.zeroPage then none else some pte.frame

/-- The private frames behind the pages of a range, in their order. -/
def privateFrames (d : AnonVmDriver τ) (range : VmRange) (map : PageMap) : List ℕ :=
  (List.range range.pageCount).filterMap fun k => d.privateFrame map (range.firstPage + k)

/-- **The range is gone**: no page of it is mapped, all others are as before, and the PMM was given
each private frame once and nothing else. -/
structure Gone (d : AnonVmDriver τ) (range : VmRange) (s s' : AnonState τ) : Prop where
  unmapped : ∀ page, range.HasPage page → s'.map page = none
  others : ∀ page, ¬ range.HasPage page → s'.map page = s.map page
  frames : s'.pmm = (d.privateFrames range s.map).foldl d.frames.free s.pmm

/-- One turn of the loop, as a change of the page tables and of the PMM. -/
lemma detachPage_eq (env : VmEnv (AnonState τ)) : (d.detachPage range env).map =
    { env.map with
      map := env.map.map.set range.firstPage none
      pmm := (d.privateFrame env.map.map range.firstPage).toList.foldl d.frames.free
        env.map.pmm } := by
  rw [detachPage, PageMap.hatDoUnmap, ← VmRange.firstPage, privateFrame]
  cases hm : env.map.map range.firstPage with
  | none =>
    rw [PageMap.set_eq_self hm]
    rfl
  | some pte =>
    by_cases hz : pte.frame = d.zeroPage
    · simp [hz]
    · simp [hz]

/-- The private frames of a range of which only the first page may be mapped. -/
lemma privateFrames_eq {map : PageMap} (hpos : 0 < range.pageCount)
    (hrest : ∀ page, range.HasPage page → page ≠ range.firstPage → map page = none) :
    d.privateFrames range map = (d.privateFrame map range.firstPage).toList := by
  obtain ⟨n, hn⟩ : ∃ n, range.pageCount = n + 1 := ⟨range.pageCount - 1, by omega⟩
  have htail : ((List.range n).map Nat.succ).filterMap
      (fun k => d.privateFrame map (range.firstPage + k)) = [] := by
    refine filterMap_eq_nil_iff.mpr fun k hk => ?_
    obtain ⟨i, hi, rfl⟩ := mem_map.mp hk
    have hi := mem_range.mp hi
    rw [privateFrame, hrest (range.firstPage + i.succ) ⟨by omega, by omega⟩ (by omega)]
    rfl
  rw [privateFrames, hn, range_succ_eq_map, filterMap_cons, htail]
  cases d.privateFrame map range.firstPage <;> rfl

/-- **`Detach` clears a range exactly if only its first page was mapped.** -/
theorem detach_gone_iff (hr : range.Whole) (env : VmEnv (AnonState τ)) :
    d.Gone range env.map (d.detach env range).2.map ↔
      ∀ page, range.HasPage page → page ≠ range.firstPage → env.map.map page = none := by
  rcases Nat.eq_zero_or_pos range.pageCount with hzero | hpos
  · -- the loop is not entered
    have hnone : ∀ page, ¬ range.HasPage page := by
      rintro page ⟨h₁, h₂⟩
      omega
    have hdetach : (d.detach env range).2.map = env.map := by
      rw [detach, hr.granules_eq, hzero]
      rfl
    rw [hdetach]
    refine iff_of_true ⟨fun page hp => absurd hp (hnone page), fun _ _ => rfl, ?_⟩
      fun page hp => absurd hp (hnone page)
    rw [privateFrames, hzero]
    rfl
  · rw [detach_eq _ hr hpos, detachPage_eq]
    constructor
    · intro h page hp hne
      have hgone := h.unmapped page hp
      simp only [PageMap.set, if_neg hne] at hgone
      exact hgone
    · intro hrest
      refine ⟨fun page hp => ?_, fun page hp => if_neg ?_, ?_⟩
      · by_cases hne : page = range.firstPage
        · exact if_pos hne
        · exact (if_neg hne).trans (hrest page hp hne)
      · rintro rfl
        exact hp ⟨le_rfl, by omega⟩
      · rw [privateFrames_eq hpos hrest]

/-- Three pages, the first of which was written to: it is unmapped and its frame is given back. -/
theorem detach_gone_iff_threePages :
    ∃ range : VmRange, ∃ env, range.Whole ∧ range.pageCount = 3 ∧
      (fresh 3).1.privateFrames range env.map.map = [0x2000] ∧
      (fresh 3).1.Gone range env.map ((fresh 3).1.detach env range).2.map := by
  refine ⟨⟨0x10000, 0x3000, 0x1000001#64, 0, 0, 0⟩, ⟨⟨0, 0, 0, 0, 0, 0, 0, 0, 0⟩,
    { (fresh 3).2 with map := PageMap.empty.set 0x10 (some ⟨0x2000, {}⟩) }⟩, by decide +kernel,
    by decide +kernel, by decide +kernel, ?_⟩
  refine (detach_gone_iff (by decide +kernel) _).mpr fun page hp hne => if_neg ?_
  rintro rfl
  exact hne rfl

/-- **Two pages** that are backed by one fault: `Detach` leaves the second one mapped, and its frame
is not given back. -/
theorem detach_leaves_page : ∃ env, run ((fresh 3).1.faultStep twoPages) (freshTwo 3)
      [.fault 0x10000] = some env ∧
    ((((fresh 3).1.detach env twoPages).2.map.map 0x11).map Pte.frame) = some 0x3000 ∧
    ¬ (fresh 3).1.Gone twoPages env.map ((fresh 3).1.detach env twoPages).2.map := by
  have hrun : (run ((fresh 3).1.faultStep twoPages) (freshTwo 3) [.fault 0x10000]).map
      (fun env => (((fresh 3).1.detach env twoPages).2.map.map 0x11).map Pte.frame) =
      some (some 0x3000) := by
    decide +kernel
  obtain ⟨env, henv, hpage⟩ := Option.map_eq_some_iff.mp hrun
  refine ⟨env, henv, hpage, fun hgone => ?_⟩
  rw [hgone.unmapped 0x11 (by decide)] at hpage
  cases hpage

end AnonVmDriver

end Northport.Memory
