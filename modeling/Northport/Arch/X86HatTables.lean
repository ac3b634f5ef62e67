/-
# The page tables of x86_64 as a radix tree

The walk, the creation of missing tables and the write of a final entry, described on the
tree that the tables hold.
-/
import Northport.Lib.Radix
import Northport.Arch.X86Hat

namespace Northport.X86

open Lib Memory Nat

variable {mmu : Mmu} {p x i : ℕ}

/-! ### The bits of an entry -/

lemma addrMask_eq (mmu : Mmu) :
    mmu.addrMask = 0xFFFFFFFFF000 ∨ mmu.addrMask = 0x1FFFFFFFFFFF000 := by
  cases h : mmu.la57
  · left
    simp only [Mmu.addrMask, Mmu.pagingLevels, h]
    rfl
  · right
    simp only [Mmu.addrMask, Mmu.pagingLevels, h]
    rfl

/-- The address mask leaves out the flags. -/
lemma flags_and_addrMask (mmu : Mmu) : 0xFFF &&& mmu.addrMask = 0 ∧ sizeFlag &&& mmu.addrMask = 0 ∧
    nxFlag &&& mmu.addrMask = 0 ∧ not64 (1 <<< 5) &&& mmu.addrMask = mmu.addrMask := by
  rcases addrMask_eq mmu with h | h <;> rw [h] <;> decide

/-- The address is page aligned and has only bits that an entry can hold. -/
def Covered (mmu : Mmu) (p : ℕ) : Prop := p &&& mmu.addrMask = p

instance (p : ℕ) : Decidable (Covered mmu p) := inferInstanceAs (Decidable (_ = _))

lemma Covered.aligned (h : Covered mmu p) : p % 2 ^ 12 = 0 := by
  have hmask : mmu.addrMask % 2 ^ 12 = 0 := by
    rcases addrMask_eq mmu with h | h <;> rw [h] <;> decide
  rw [← h, and_mod_two_pow, hmask, and_zero]

/-- Flags outside the mask are not part of an address. -/
lemma Covered.and_eq_zero (h : Covered mmu p) (hx : x &&& mmu.addrMask = 0) : p &&& x = 0 := by
  rw [← h, Nat.and_assoc, Nat.and_comm mmu.addrMask, hx, Nat.and_zero]

/-- The entry is present and holds the address. -/
def Holds (mmu : Mmu) (e p : ℕ) : Prop := e &&& presentFlag ≠ 0 ∧ e &&& mmu.addrMask = p

lemma present_iff (e : ℕ) : e &&& presentFlag ≠ 0 ↔ e.testBit 0 = true := by
  rw [presentFlag]
  simp [and_one_is_mod]

lemma Holds.or_flag {e : ℕ} (h : Holds mmu e p) (hx : x &&& mmu.addrMask = 0) :
    Holds mmu (e ||| x) p := by
  refine ⟨?_, by rw [and_or_distrib_right, hx, or_zero, h.2]⟩
  rw [present_iff, testBit_or, (present_iff e).mp h.1, Bool.true_or]

lemma Holds.clear_flag {e : ℕ} (h : Holds mmu e p) (hx : x &&& mmu.addrMask = mmu.addrMask)
    (hx0 : x.testBit 0 = true) : Holds mmu (e &&& x) p := by
  refine ⟨?_, by rw [Nat.and_assoc, hx, h.2]⟩
  rw [present_iff, testBit_and, (present_iff e).mp h.1, hx0, Bool.true_and]

/-- An address with the present flag. -/
lemma Covered.holds (h : Covered mmu p) (hx : x.testBit 0 = true) :
    Holds mmu (p ||| x &&& 0xFFF) p := by
  obtain ⟨hlow, -⟩ := flags_and_addrMask mmu
  refine ⟨?_, by rw [Nat.and_or_distrib_right, h, Nat.and_assoc, hlow, Nat.and_zero, Nat.or_zero]⟩
  rw [present_iff, testBit_or, testBit_and, hx]
  simp

lemma tableEntry_spec (hp : Covered mmu p) :
    Holds mmu (tableEntry mmu p) p ∧ tableEntry mmu p &&& sizeFlag = 0 := by
  obtain ⟨-, hsize, -⟩ := flags_and_addrMask mmu
  have hbits : presentFlag ||| 1 <<< 1 = 3 &&& 0xFFF := by decide
  have hentry : tableEntry mmu p = p ||| 3 &&& 0xFFF := by
    rw [tableEntry, hbits, Nat.and_comm, hp]
  rw [hentry]
  refine ⟨hp.holds (by decide), ?_⟩
  rw [and_or_distrib_right, hp.and_eq_zero hsize]
  decide

/-- A final entry holds the address it was made for, whatever the flags and the features of the
CPU are. -/
lemma leafEntry_spec {paddr : ℕ} (mode : ℕ) (flags : HatFlags) (hp : Covered mmu paddr) :
    Holds mmu (leafEntry mmu paddr mode flags) paddr := by
  obtain ⟨-, hsize, hnx, hkeep⟩ := flags_and_addrMask mmu
  have hbits : (flagBits flags &&& 0xFFF) ||| presentFlag = (flagBits flags ||| 1) &&& 0xFFF := by
    rw [and_or_distrib_right]
    rfl
  have hfirst : Holds mmu ((flagBits flags &&& 0xFFF ||| presentFlag) ||| paddr &&& mmu.addrMask)
      paddr := by
    rw [hbits, Nat.or_comm, hp]
    exact hp.holds (by rw [testBit_or]; simp)
  have hsized : ∀ e, Holds mmu e paddr →
      Holds mmu (if mode + 1 > 1 then e ||| sizeFlag else e) paddr := by
    intro e he
    split_ifs
    · exact he.or_flag hsize
    · exact he
  have hnxed : ∀ e, Holds mmu e paddr →
      Holds mmu (if mmu.nx ∧ nxFlag &&& flagBits flags = 0 then e ||| nxFlag else e) paddr := by
    intro e he
    split_ifs
    · exact he.or_flag hnx
    · exact he
  have hlast := hnxed _ (hsized _ hfirst)
  rw [leafEntry]
  cases mmu.globalPages
  · exact hlast.clear_flag hkeep (by decide)
  · exact hlast

/-! ### The tree that the tables hold -/

/-- What the content of a slot stands for: a slot that is not present is empty, a table above
the last level has no size flag, and a page is mapped by the last level or by the size flag. -/
def Entry (mmu : Mmu) (i e : ℕ) : Option (RadixNode ℕ ℕ) → Prop
  | none => e &&& presentFlag = 0
  | some (.table p) => 0 < i ∧ Holds mmu e p ∧ e &&& sizeFlag = 0
  | some (.leaf f) => Holds mmu e f ∧ (i = 0 ∨ (i < mmu.modeCount ∧ e &&& sizeFlag ≠ 0))

/-- The number of the page of an address, as the tables know it. -/
def pageKey (mmu : Mmu) (vaddr : ℕ) : ℕ := vaddr / 2 ^ 12 % 512 ^ mmu.pagingLevels

/-- The tables in memory hold the tree. -/
abbrev Tree (mmu : Mmu) (mem : ℕ → ℕ) (root : ℕ) (r : Radix ℕ ℕ) : Prop :=
  r.Stored 512 mmu.pagingLevels (Entry mmu) (fun p k => mem (entryAddress p k)) root

lemma pagingLevels_le (mmu : Mmu) : mmu.pagingLevels ≤ 5 := by
  rw [Mmu.pagingLevels]
  split_ifs <;> decide

lemma pagingLevels_pos (mmu : Mmu) : 0 < mmu.pagingLevels := by
  rw [Mmu.pagingLevels]
  split_ifs <;> decide

/-- The index of an address in the table of a level. -/
lemma getAddressIndices_eq (vaddr : ℕ) (hi : i < mmu.pagingLevels) :
    getAddressIndices vaddr (i + 1) = pageKey mmu vaddr / 512 ^ i % 512 := by
  have hkey : pageKey mmu vaddr / 512 ^ i % 512 = vaddr / 2 ^ 12 / 512 ^ i % 512 := by
    rw [pageKey]
    generalize vaddr / 2 ^ 12 = x
    rw [← Nat.mod_mul_right_div_self, ← pow_succ,
      Nat.mod_mod_of_dvd _ (pow_dvd_pow 512 (by omega : i + 1 ≤ mmu.pagingLevels)), pow_succ,
      Nat.mod_mul_right_div_self]
  have hi5 : i < 5 := hi.trans_le (pagingLevels_le mmu)
  rw [hkey]
  have hand : ∀ n, n &&& 0x1FF = n % 512 := fun n => Nat.and_two_pow_sub_one_eq_mod n 9
  interval_cases i <;>
    simp only [getAddressIndices, Nat.shiftRight_eq_div_pow, hand, Nat.div_div_eq_div_mul]
  all_goals rfl

/-! ### The walk -/

/-- The walk of an address ended in a slot of the table `p` of level `i + 1`: at a page, or at
an empty slot. -/
structure WalkEnd (mmu : Mmu) (r : Radix ℕ ℕ) (vaddr : ℕ) (path : WalkResult) (i p : ℕ) :
    Prop where
  lt : i < mmu.pagingLevels
  table : r (i + 1) (pageKey mmu vaddr / 512 ^ (i + 1)) = some (.table p)
  level : path.level = i + 1
  pte : path.pte = entryAddress p (pageKey mmu vaddr / 512 ^ i % 512)
  node : (path.complete = true ∧ ∃ f, r i (pageKey mmu vaddr / 512 ^ i) = some (.leaf f)) ∨
    (path.complete = false ∧ r i (pageKey mmu vaddr / 512 ^ i) = none)

variable {mem : ℕ → ℕ} {root : ℕ} {r : Radix ℕ ℕ}

variable (h : Tree mmu mem root r)

include h

/-- What the slot of an address in a table of its path contains. -/
lemma Tree.entry (vaddr : ℕ) (hi : i < mmu.pagingLevels)
    (hp : r (i + 1) (pageKey mmu vaddr / 512 ^ (i + 1)) = some (.table p)) :
    Entry mmu i (mem (entryAddress p (pageKey mmu vaddr / 512 ^ i % 512)))
      (r i (pageKey mmu vaddr / 512 ^ i)) := by
  rw [div_pow_eq 512 (pageKey mmu vaddr) i]
  have hentry := h.entries i _ p _ hi hp (mod_lt (pageKey mmu vaddr / 512 ^ i) (by decide))
  rw [← div_pow_eq] at hentry ⊢
  exact hentry

/-- The walk stops at a slot that does not lead to a table. -/
lemma walkLoop_stop (vaddr : ℕ) {pt : ℕ} (result : WalkResult)
    (hi : i < mmu.pagingLevels)
    (hpt : r (i + 1) (pageKey mmu vaddr / 512 ^ (i + 1)) = some (.table pt))
    (hnode : ∀ q, r i (pageKey mmu vaddr / 512 ^ i) ≠ some (.table q)) :
    WalkEnd mmu r vaddr (walkLoop mmu mem vaddr (i + 1) pt result) i pt := by
  have hentry := h.entry vaddr hi hpt
  rw [walkLoop, getAddressIndices_eq vaddr hi]
  cases hn : r i (pageKey mmu vaddr / 512 ^ i) with
  | none =>
    rw [hn, Entry] at hentry
    rw [if_pos hentry]
    exact ⟨hi, hpt, rfl, rfl, Or.inr ⟨rfl, hn⟩⟩
  | some node =>
    cases node with
    | table q => exact absurd hn (hnode q)
    | leaf f =>
      rw [hn] at hentry
      obtain ⟨⟨hpresent, -⟩, hlast⟩ := hentry
      rw [if_neg hpresent]
      split_ifs with hsize
      · exact ⟨hi, hpt, rfl, rfl, Or.inl ⟨rfl, f, hn⟩⟩
      · -- without the size flag this is the last level, and the loop ends
        obtain rfl : i = 0 := hlast.resolve_right fun hbig => hsize ⟨hbig.1, hbig.2⟩
        exact ⟨hi, hpt, rfl, rfl, Or.inl ⟨decide_eq_true hpresent, f, hn⟩⟩

lemma walkLoop_spec (vaddr : ℕ) {pt : ℕ} (result : WalkResult)
    (hi : i < mmu.pagingLevels)
    (hpt : r (i + 1) (pageKey mmu vaddr / 512 ^ (i + 1)) = some (.table pt)) :
    ∃ j p, WalkEnd mmu r vaddr (walkLoop mmu mem vaddr (i + 1) pt result) j p := by
  induction i generalizing pt result with
  | zero =>
    refine ⟨0, pt, walkLoop_stop h vaddr result hi hpt fun q hq => ?_⟩
    have hentry := h.entry vaddr hi hpt
    rw [hq] at hentry
    exact absurd hentry.1 (lt_irrefl 0)
  | succ i ih =>
    by_cases hnode : ∃ q, r (i + 1) (pageKey mmu vaddr / 512 ^ (i + 1)) = some (.table q)
    · obtain ⟨q, hq⟩ := hnode
      have hentry := h.entry vaddr hi hpt
      rw [hq] at hentry
      obtain ⟨-, ⟨hpresent, haddr⟩, hsize⟩ := hentry
      rw [walkLoop, getAddressIndices_eq vaddr hi, if_neg hpresent,
        if_neg fun hbig => hbig.2 hsize, haddr]
      exact ih _ (by omega) hq
    · exact ⟨_, pt, walkLoop_stop h vaddr result hi hpt fun q hq => hnode ⟨q, hq⟩⟩

/-- **Where the walk of an address ends.** -/
lemma walkTables_spec (vaddr : ℕ) :
    ∃ i p, WalkEnd mmu r vaddr (walkTables mmu mem root vaddr) i p := by
  have htop : pageKey mmu vaddr / 512 ^ mmu.pagingLevels = 0 :=
    div_eq_of_lt (mod_lt _ (by positivity))
  have hroot : r mmu.pagingLevels (pageKey mmu vaddr / 512 ^ mmu.pagingLevels) =
      some (.table root) := htop ▸ h.root_eq
  obtain ⟨n, hn⟩ : ∃ n, mmu.pagingLevels = n + 1 :=
    exists_eq_add_one.mpr (pagingLevels_pos mmu)
  rw [hn] at hroot
  have hwalk := walkLoop_spec h vaddr {} (by omega) hroot
  rw [← hn] at hwalk
  exact hwalk

end Northport.X86
