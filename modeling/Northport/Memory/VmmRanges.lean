/-
# Finding a range (`VMM::FindRange`)

The ranges of a VMM are kept in a tree, ordered by their bases.  They are inserted and removed, and
`Split` shortens one of them in place.  As long as they are disjoint, not empty and end below the
end of the address space, `FindRange` finds the range of every address between the bounds.
-/
import Northport.Lib.Run
import Northport.Memory.VmmSteps

namespace Northport.Memory

open Lib Northport.RBTree List Vmm

inductive RangeOp (P : Type) where
  | insert (p : P) (range : VmRange)
  | remove (p : P)
  /-- What `Split` does to the range that it cuts. -/
  | shorten (p : P) (length token : ℕ)

variable {P σ : Type} [DecidableEq P] {s s' : LiveTree P VmRange}

def rangeStep (s : LiveTree P VmRange) : RangeOp P → Option (LiveTree P VmRange)
  | .insert p range => s.insert (nullAggregate VmRange) VmRangeLess p range
  | .remove p => s.remove (nullAggregate VmRange) p
  | .shorten p length token =>
    some { s with tree := s.tree.setItem p { s.tree.item p with length := length, token := token } }

/-- One of the ranges ends before the other one begins. -/
def VmRange.Apart (a b : VmRange) : Prop :=
  a.base + a.length ≤ b.base ∨ b.base + b.length ≤ a.base

/-- The range is not empty and ends below the end of the address space. -/
def VmRange.Proper (range : VmRange) : Prop :=
  0 < range.length ∧ range.base + range.length < wordSize

def RangeOp.Ok (s : LiveTree P VmRange) : RangeOp P → Prop
  | .insert p range => p ∉ s.live ∧ range.Proper ∧ ∀ q ∈ s.live, range.Apart (s.tree.item q)
  | .remove p => p ∈ s.live
  | .shorten p length _ => p ∈ s.live ∧ 0 < length ∧ length ≤ (s.tree.item p).length

instance (s : LiveTree P VmRange) (op : RangeOp P) : Decidable (op.Ok s) := by
  cases op <;> simp only [RangeOp.Ok, VmRange.Proper, VmRange.Apart] <;> infer_instance

/-- **The invariant** of the tree of ranges. -/
structure DisjointRanges (s : LiveTree P VmRange) : Prop where
  tree : s.Inv rangeLaws VmRange.base
  proper : ∀ p ∈ s.live, (s.tree.item p).Proper
  apart : ∀ p ∈ s.live, ∀ q ∈ s.live, p ≠ q → (s.tree.item p).Apart (s.tree.item q)

namespace DisjointRanges

/-- Ranges may go away or become shorter. -/
lemma shrink (h : DisjointRanges s) (htree : s'.Inv rangeLaws VmRange.base)
    (hsub : ∀ p ∈ s'.live, p ∈ s.live ∧ (s'.tree.item p).base = (s.tree.item p).base ∧
      0 < (s'.tree.item p).length ∧ (s'.tree.item p).length ≤ (s.tree.item p).length) :
    DisjointRanges s' := by
  refine ⟨htree, fun p hp => ?_, fun p hp q hq hpq => ?_⟩
  · obtain ⟨hp, hbase, hpos, hle⟩ := hsub p hp
    have hend := (h.proper p hp).2
    exact ⟨hpos, by omega⟩
  · obtain ⟨hp, hbase, -, hle⟩ := hsub p hp
    obtain ⟨hq, hbase', -, hle'⟩ := hsub q hq
    have hpq := h.apart p hp q hq hpq
    simp only [VmRange.Apart] at hpq ⊢
    omega

lemma step (h : DisjointRanges s) {op : RangeOp P} (hop : op.Ok s) :
    ∃ s', rangeStep s op = some s' ∧ DisjointRanges s' := by
  cases op with
  | insert p range =>
    obtain ⟨hp, hproper, hapart⟩ := hop
    obtain ⟨s', heq, htree, hlive, hself, hitem⟩ :=
      LiveTree.insert_spec vmRangeLess_eq range h.tree hp
    have hself : s'.tree.item p = range := hself
    have hother : ∀ q ∈ s.live, s'.tree.item q = s.tree.item q := fun q hq =>
      hitem q (ne_of_mem_of_not_mem hq hp)
    refine ⟨s', heq, htree, ?_, ?_⟩
    · rw [hlive, forall_mem_cons, hself]
      exact ⟨hproper, fun q hq => hother q hq ▸ h.proper q hq⟩
    · intro a ha b hb hab
      rw [hlive, mem_cons] at ha hb
      rcases ha with rfl | ha <;> rcases hb with rfl | hb
      · exact absurd rfl hab
      · rw [hself, hother b hb]
        exact hapart b hb
      · rw [hself, hother a ha]
        exact (hapart a ha).symm
      · rw [hother a ha, hother b hb]
        exact h.apart a ha b hb hab
  | remove p =>
    obtain ⟨s', heq, htree, hlive, hitem⟩ := LiveTree.remove_spec h.tree hop
    refine ⟨s', heq, h.shrink htree fun q hq => ?_⟩
    have hq : q ∈ s.live := mem_of_mem_erase (hlive ▸ hq)
    rw [show s'.tree.item q = s.tree.item q from hitem q]
    exact ⟨hq, rfl, (h.proper q hq).1, le_rfl⟩
  | shorten p length token =>
    obtain ⟨-, hpos, hle⟩ := hop
    refine ⟨_, rfl, h.shrink (h.tree.setItem rfl) fun q hq => ⟨hq, ?_⟩⟩
    by_cases hqp : q = p
    · subst hqp
      simpa using ⟨hpos, hle⟩
    · simpa [hqp] using (h.proper q hq).1

/-- **`FindRange`** finds the range of the address, and nothing else. -/
lemma findRange {v : Vmm P σ} (h : DisjointRanges v.ranges) (addr : ℕ) :
    ∃ r, v.findRange addr = some r ∧ ∀ p, r = some p ↔ p ∈ v.ranges.live ∧
      (v.ranges.tree.item p).span.Contains addr ∧
        v.globalLowerBound ≤ addr ∧ addr < v.globalUpperBound := by
  by_cases hb : addr < v.globalLowerBound ∨ addr ≥ v.globalUpperBound
  · refine ⟨none, by rw [Vmm.findRange, if_pos hb], fun p => iff_of_false (by simp) ?_⟩
    omega
  obtain ⟨shape, htree, hperm⟩ := h.tree
  have htop : ∀ p ∈ shape.toList, (v.ranges.tree.item p).top =
      (v.ranges.tree.item p).base + (v.ranges.tree.item p).length := fun p hp =>
    add64_eq (h.proper p (hperm.mem_iff.mp hp)).2
  refine ⟨shape.search (rangeCmp v.ranges.tree addr), ?_, fun p => ?_⟩
  · rw [Vmm.findRange, if_neg hb, findLoop_eq]
    exact htree.ok.rep.search _ hperm.length_eq.le
  · rw [Shape.search_iff_of_pairwise, ← hperm.mem_iff]
    · refine and_congr_right fun hp => ?_
      simp only [rangeCmp_eq, htop p hp, Span.Contains, VmRange.span]
      omega
    · -- a range with a smaller base ends before the other one begins
      refine (pairwise_and_iff.mpr ⟨htree.sorted, htree.ok.nodup⟩).imp_of_mem ?_
      rintro x y hx hy ⟨hle, hne⟩
      have hapart := h.apart x (hperm.mem_iff.mp hx) y (hperm.mem_iff.mp hy) hne
      have hpos := (h.proper y (hperm.mem_iff.mp hy)).1
      have hle : (v.ranges.tree.item x).base ≤ (v.ranges.tree.item y).base := hle
      rw [VmRange.Apart] at hapart
      rw [rangeCmp_eq, rangeCmp_eq, rangeCmp, rangeCmp, htop x hx, htop y hy]
      constructor
      · intro hin
        rw [if_neg (by omega), if_pos (by omega)]
      · intro hin
        rw [if_neg (by omega), if_neg (by omega)]

end DisjointRanges

/-- **Whatever happens to the ranges**, `FindRange` returns the one that contains the address, if
there is one and the address is between the bounds, and null otherwise. -/
theorem findRange_history (item : P → VmRange) (ops : List (RangeOp P))
    (hops : Allowed rangeStep RangeOp.Ok (.empty item) ops) :
    ∃ s, run rangeStep (.empty item) ops = some s ∧ ∀ v : Vmm P σ, v.ranges = s → ∀ addr,
      ∃ r, v.findRange addr = some r ∧ ∀ p, r = some p ↔ p ∈ s.live ∧
        (s.tree.item p).span.Contains addr ∧
          v.globalLowerBound ≤ addr ∧ addr < v.globalUpperBound := by
  have hempty : DisjointRanges (LiveTree.empty item) :=
    ⟨LiveTree.inv_empty item, by simp [LiveTree.empty], by simp [LiveTree.empty]⟩
  obtain ⟨s, hrun, h⟩ := run_invariant DisjointRanges (fun _ _ h hop => h.step hop) hempty hops
  refine ⟨s, hrun, ?_⟩
  rintro v rfl addr
  exact h.findRange addr

/-- A range of two pages is cut in two. -/
theorem findRange_history_split : ∃ s, run rangeStep (.empty fun _ : ℕ => ⟨0, 0, 0, 0, 0, 0⟩)
    [.insert 1 ⟨0x1000, 0x2000, 0, 0, 0, 0⟩, .shorten 1 0x1000 0,
      .insert 2 ⟨0x2000, 0x1000, 0, 0, 0, 0⟩] = some s ∧ ∀ v : Vmm ℕ Unit, v.ranges = s → ∀ addr,
    ∃ r, v.findRange addr = some r ∧ ∀ p, r = some p ↔ p ∈ s.live ∧
      (s.tree.item p).span.Contains addr ∧
        v.globalLowerBound ≤ addr ∧ addr < v.globalUpperBound :=
  findRange_history _ _ (by decide)

/-- The last page of the address space: the end of the range wraps around to 0. -/
theorem findRange_last_page : ∃ s, run rangeStep (.empty fun _ : ℕ => ⟨0, 0, 0, 0, 0, 0⟩)
      [.insert 1 ⟨wordSize - 0x1000, 0x1000, 0, 0, 0, 0⟩] = some s ∧ 1 ∈ s.live ∧
    (s.tree.item 1).span.Contains (wordSize - 2) ∧ ∃ v : Vmm ℕ Unit, v.ranges = s ∧
      v.globalLowerBound ≤ wordSize - 2 ∧ wordSize - 2 < v.globalUpperBound ∧
      v.findRange (wordSize - 2) = some none :=
  ⟨_, rfl, by decide, by decide, ⟨_, .empty fun _ => ⟨0, 0, 0⟩, [], [], 0, wordSize - 1,
    ⟨⟨0, 0, 0, 0, 0, 0, 0, 0, 0⟩, ()⟩, []⟩, rfl, by decide, by decide, by decide⟩

end Northport.Memory
