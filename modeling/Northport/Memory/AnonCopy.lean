/-
# Copies into anonymous memory

With the zero page a fault never maps a page that was not mapped, so that `CopyIn` ends at the first
page without a mapping.
-/
import Northport.Memory.VmmCopy

namespace Northport.Memory

open Lib PageMap Option

namespace Vmm

open AnonVmDriver

variable {P τ : Type} [DecidableEq P] {d : AnonVmDriver τ} {v v' : Vmm P (AnonState τ)}

/-- Only the statistics and the contents of the memory differ. -/
def SameButMem (v v' : Vmm P (AnonState τ)) (mem : ByteMem) : Prop :=
  ∃ stats, v' = { v with env := ⟨stats, { v.env.map with mem := mem }⟩ }

/-- **The lookup of a foreign page** changes nothing but the statistics. -/
lemma foreignPhys_same (h : v.Anon) (huse : d.useZeroPage = true) {vaddr : ℕ} {r : Option ℕ}
    (hrun : v.foreignPhys d.faultHandlers vaddr = some (v', r)) :
    SameButMem v v' v.env.map.mem := by
  obtain ⟨⟨rfl, -⟩ | ⟨hget, hfault⟩, hfound⟩ := foreignPhys_spec hrun
  · exact ⟨v'.env.stats, rfl⟩
  rcases h.handleFault_cases d vaddr { write := true } with
    ⟨env, hrefused, hmap, -, -⟩ | ⟨range, -, -, haccepted⟩
  · obtain ⟨rfl, -⟩ := Prod.mk.inj (some.inj (hfault.symm.trans hrefused))
    refine ⟨env.stats, ?_⟩
    rw [← hmap]
  · -- the driver has replaced mappings, but it has made none
    have hok : d.FaultOk range vaddr v.env.map := .inl huse
    have hunmapped : v.env.map.map (vaddr / PageSize) = none := map_eq_none_iff.mp hget
    have hstill : (d.faulted range vaddr v.env.map).map.hatGetMap vaddr = none := by
      rw [hatGetMap]
      simp only [faulted, huse, if_true, synced, hunmapped, map_none, ite_self]
    rw [if_pos hok, hfault] at haccepted
    obtain ⟨rfl, hsome⟩ := Prod.mk.inj (some.inj haccepted)
    rw [← hfound hsome, hstill] at hsome
    cases hsome

/-- The lookups of a copy. -/
lemma lookups_anon (huse : d.useZeroPage = true) (v : Vmm P (AnonState τ)) :
    Lookups d.faultHandlers .univ ∅ fun _ u => u.Anon ∧ ∃ mem, SameButMem v u mem where
  next := by
    rintro _ _ _ phys bytes ⟨h, mem, stats, rfl⟩ - -
    exact ⟨h.setEnv _, _, stats, rfl⟩
  lookup := by
    rintro u v' vaddr r - ⟨h, mem, stats, rfl⟩ hphys
    obtain ⟨stats', rfl⟩ := foreignPhys_same h huse hphys
    exact ⟨⟨h.setEnv _, mem, stats', rfl⟩, fun _ _ h => h, fun _ hne => absurd rfl hne⟩

/-- **`CopyIn`** writes the bytes through the page tables, as far as the pages are mapped. -/
lemma Anon.copyIn (h : v.Anon) (huse : d.useZeroPage = true)
    (htop : ∀ page pte, v.env.map.map page = some pte → (page + 1) * PageSize < wordSize)
    {base n : ℕ} {bytes : List (BitVec 8)}
    (hrun : v.copyIn d.faultHandlers base bytes = some (v', n)) :
    n ≤ bytes.length ∧
      SameButMem v v' (v.env.map.map.copyMem v.env.map.mem base (bytes.take n)) ∧
      ∀ x < n, (v.env.map.map ((base + x) / PageSize)).isSome := by
  obtain ⟨q, hfind, hspec⟩ := findRange_spec h.wf.ranges base
  rw [Vmm.copyIn, memoryExists, hfind] at hrun
  simp only [bind_eq_bind, bind_some] at hrun
  have hnone : v' = v → n = 0 → n ≤ bytes.length ∧
      SameButMem v v' (v.env.map.map.copyMem v.env.map.mem base (bytes.take n)) ∧
      ∀ x < n, (v.env.map.map ((base + x) / PageSize)).isSome := by
    rintro rfl rfl
    exact ⟨zero_le, ⟨v'.env.stats, rfl⟩, by simp⟩
  cases q with
  | none =>
    cases hrun
    exact hnone rfl rfl
  | some p =>
    have hlt : base < wordSize := by
      obtain ⟨hp, -, hhi⟩ := hspec p rfl
      rw [h.wf.top_eq hp rfl] at hhi
      exact hhi.trans (h.ranges _ (List.mem_map_of_mem hp)).1.top
    dsimp only at hrun
    split_ifs at hrun with hlong
    · cases hrun
      exact hnone rfl rfl
    · obtain ⟨k, hk, hn, ⟨-, mem, stats, rfl⟩, -, ⟨mem', hkept, hmem⟩, hmapped, -⟩ :=
        (lookups_anon huse v).copyLoop ⟨h, _, v.env.stats, rfl⟩ (fun _ _ => trivial) hlt
          (.inr fun _ u hu => by obtain ⟨-, _, _, rfl⟩ := hu; exact htop) (fun _ => .inl rfl) hrun
      rw [zero_add] at hn
      subst hn
      obtain rfl : mem' = v.env.map.mem := by
        funext a
        by_contra hne
        exact (hkept a hne).1
      obtain rfl : mem = v.env.map.map.copyMem v.env.map.mem base (bytes.take n) := hmem
      exact ⟨hk, ⟨stats, rfl⟩, hmapped⟩

end Vmm

end Northport.Memory
