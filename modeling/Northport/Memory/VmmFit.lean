/-
# The hole that an allocation takes

The search of `Alloc` goes down the tree of holes and never turns back: to the left as long as a
hole there is large enough, and to the right when neither the left subtree nor the hole itself is.
It ends at the large enough hole with the lowest base, and `AdjustHole` cuts the new range off the
start of that hole.
-/
import Northport.Memory.UserVmm

namespace Northport.Memory

open Lib Lib.Shape Lib.Links Northport.RBTree List

namespace Vmm

variable {P σ : Type} [DecidableEq P] {m : MetaAlloc P} {v : Vmm P σ} {p : P} {n : ℕ}

/-- The search of `Alloc`, from the root on; `some none` when it gives up. -/
def findHole (v : Vmm P σ) (n : ℕ) : Option (Option P) :=
  match v.holes.tree.getRoot with
  | none => some none
  | some root => searchHole v.holes.tree n v.holes.live.length root

/-- `Alloc` takes the hole that the search finds. -/
lemma alloc_findHole {drivers : VmDrivers σ} {driver : VmDriver σ} {length initArg : ℕ}
    {flags : VmFlags} {limits : VmAllocLimits} {query : QueryResult} {env : VmEnv σ}
    (hlength : length ≠ 0) (hdriver : drivers.getDriver flags = some driver)
    (hquery : driver.query v.env length flags initArg = (query, env))
    (hsuccess : query.success = true)
    (halign : ¬ (limits.alignment > 1 ∧ query.alignment % limits.alignment ≠ 0)) :
    v.alloc m drivers length initArg flags limits =
      (v.findHole query.length).bind fun found =>
        match found with
        | none => some ({ v with env := env }, none)
        | some hole =>
          (({ v with env := env } : Vmm P σ).adjustHole m hole 0 query.length).bind fun v' =>
            let v' := { v' with holeMeta := v'.holeMeta.erase hole }
            if (v.holes.tree.item hole).base = 0 then some (v', none)
            else v'.attachRange m driver query initArg flags (v.holes.tree.item hole).base := by
  simp only [alloc, if_neg hlength, hdriver, hquery, hsuccess, Bool.not_true, Bool.false_eq_true,
    if_false, if_neg halign, findHole]
  cases hroot : v.holes.tree.getRoot with
  | none => rfl
  | some root => rfl

/-- The addresses that are in a hole. -/
def freeSet (v : Vmm P σ) : Set ℕ := {a | ∃ s ∈ v.holeSpans, s.Contains a}

/-- **A tree of holes**: it is ordered by base and knows the largest hole of each subtree, the holes
do not overlap, and their ends are addresses. -/
structure HoleTree (v : Vmm P σ) : Prop where
  tree : v.holes.Inv vmHoleLaws Prod.fst
  inUse : ∀ p ∈ v.holes.live, p ∈ v.holeMeta
  apart : v.holeSpans.Pairwise Span.Disjoint
  addressed : ∀ s ∈ v.holeSpans, s.base + s.length ≤ wordSize ∧ s.length < wordSize

/-- A user's VMM has a tree of holes at any time. -/
lemma Wf.holeTree {l : List Span} (h : Wf [] v l) : v.HoleTree where
  tree := h.holes
  inUse := h.holeMeta
  apart := by
    refine pairwise_disjoint_of_cover fun a => ?_
    have hone := cover_le_one (tilesOver_nil.mp h.tiles) a
    simp only [cover_append] at hone
    omega
  addressed := by
    intro s hs
    have hin := h.inside s (mem_append_left _ (mem_append_right _ hs))
    have hlt := h.upper_lt
    obtain ⟨h₁, h₂⟩ := hin
    omega

/-- **The search ends** at the large enough hole with the lowest base. -/
lemma findHole_spec (h : v.holes.Inv vmHoleLaws Prod.fst) (n : ℕ) :
    ∃ q, v.findHole n = some q ∧
      (q = none ↔ ∀ p ∈ v.holes.live, (v.holes.tree.item p).length < n) ∧
      ∀ p, q = some p → p ∈ v.holes.live ∧ n ≤ (v.holes.tree.item p).length ∧
        ∀ y ∈ v.holes.live, n ≤ (v.holes.tree.item y).length →
          (v.holes.tree.item p).base ≤ (v.holes.tree.item y).base := by
  rcases searchHole_root h n with ⟨hroot, hlive⟩ | ⟨x, q, hroot, hq, hsome, hnone⟩
  · refine ⟨none, by rw [findHole, hroot], ?_, by simp⟩
    rw [hlive]
    simp
  · refine ⟨q, by rw [findHole, hroot]; exact hq, ⟨hnone, fun hsmall => ?_⟩, hsome⟩
    cases q with
    | none => rfl
    | some p =>
      obtain ⟨hp, hfit, -⟩ := hsome p rfl
      have hlt := hsmall p hp
      omega

/-- The addresses that are left when the start of one of several disjoint spans is cut off. -/
lemma Cut.contains {before after : List Span} {b : ℕ} (h : Cut before after b n)
    (hapart : before.Pairwise Span.Disjoint) (a : ℕ) :
    (∃ s ∈ after, s.Contains a) ↔ (∃ s ∈ before, s.Contains a) ∧ ¬ (b ≤ a ∧ a < b + n) := by
  obtain ⟨k, rest, hnk, hbefore, hafter⟩ := h
  have hsym : ∀ s t : Span, s.Disjoint t → t.Disjoint s := fun s t h a ht hs => h a hs ht
  have hrest : ∀ s ∈ rest, s.Contains a → ¬ (b ≤ a ∧ a < b + k) := fun s hs hsa hb =>
    (pairwise_cons.mp ((hbefore.pairwise_iff (hsym _ _)).mp hapart)).1 s hs a hb hsa
  constructor
  · rintro ⟨s, hs, hsa⟩
    rcases mem_append.mp (hafter.mem_iff.mp hs) with hs | hs
    · split_ifs at hs with hlt
      · obtain rfl := mem_singleton.mp hs
        obtain ⟨h₁, h₂⟩ := hsa
        simp only at h₁ h₂
        exact ⟨⟨⟨b, k⟩, hbefore.mem_iff.mpr mem_cons_self, ⟨by simp only; omega,
          by simp only; omega⟩⟩, by omega⟩
      · cases hs
    · have hnot := hrest s hs hsa
      exact ⟨⟨s, hbefore.mem_iff.mpr (mem_cons_of_mem _ hs), hsa⟩, by omega⟩
  · rintro ⟨⟨s, hs, hsa⟩, hnot⟩
    rcases mem_cons.mp (hbefore.mem_iff.mp hs) with rfl | hs
    · obtain ⟨h₁, h₂⟩ := hsa
      simp only at h₁ h₂
      refine ⟨⟨b + n, k - n⟩, hafter.mem_iff.mpr (mem_append_left _ ?_), by simp only; omega,
        by simp only; omega⟩
      rw [if_pos (by omega)]
      exact mem_singleton.mpr rfl
    · exact ⟨s, hafter.mem_iff.mpr (mem_append_right _ hs), hsa⟩

/-- **First fit.**  The search ends.  It gives up exactly when no hole is large enough; otherwise it
finds the hole with the lowest base among those that are, and after `AdjustHole` the free addresses
are the old ones without the first `n` of that hole. -/
theorem findHole_firstFit (h : v.HoleTree) (n : ℕ) :
    ∃ q, v.findHole n = some q ∧
      (q = none ↔ ¬ ∃ p ∈ v.holes.live, n ≤ (v.holes.tree.item p).length) ∧
      ∀ p, q = some p → p ∈ v.holes.live ∧ n ≤ (v.holes.tree.item p).length ∧
        (∀ y ∈ v.holes.live, n ≤ (v.holes.tree.item y).length →
          (v.holes.tree.item p).base ≤ (v.holes.tree.item y).base) ∧
        ∃ v', v.adjustHole m p 0 n = some v' ∧
          v'.freeSet = v.freeSet \
            Set.Ico (v.holes.tree.item p).base ((v.holes.tree.item p).base + n) := by
  obtain ⟨q, hq, hnone, hsome⟩ := findHole_spec h.tree n
  refine ⟨q, hq, ?_, fun p hp => ?_⟩
  · rw [hnone]
    push Not
    rfl
  · obtain ⟨hlive, hfit, hlowest⟩ := hsome p hp
    obtain ⟨hend, hlt⟩ := h.addressed _ (mem_map_of_mem hlive)
    obtain ⟨v', hadjust, -, -, -, -, hcut⟩ := adjustHole_tree (m := m) h.tree h.inUse hlive hfit hend
      hlt
    refine ⟨hlive, hfit, hlowest, v', hadjust, ?_⟩
    ext a
    exact hcut.contains h.apart a

/-- One page, two pages and one page of a user's VMM, of which the first two ranges are freed. -/
def threeHoles : Option (Vmm ℕ Unit) :=
  (user .counting .x86 ⟨⟨0, 0, 0, 0, 0, 0, 0, 0, 0⟩, ()⟩ (fun _ => ⟨0, 0, 0, 0, 0, 0⟩)
    fun _ => ⟨0, 0, 0⟩).bind fun v => run (step .counting) v
      [.alloc pageDrivers 0x1000 0 (1#64 <<< 24) {}, .alloc pageDrivers 0x2000 0 (1#64 <<< 24) {},
        .alloc pageDrivers 0x1000 0 (1#64 <<< 24) {}, .free pageDrivers 0x1000,
        .free pageDrivers 0x2000]

/-- Two pages, where the first hole is too small and the second and third are large enough. -/
theorem findHole_firstFit_threeHoles : ∃ v, threeHoles = some v ∧
    v.holeSpans = [⟨0x2000, 0x2000⟩, ⟨0x1000, 0x1000⟩, ⟨0x5000, 0x7FFFFFFF9FFF⟩] ∧ v.HoleTree ∧
    ∃ q, v.findHole 0x2000 = some q ∧
      (q = none ↔ ¬ ∃ p ∈ v.holes.live, 0x2000 ≤ (v.holes.tree.item p).length) ∧
      ∀ p, q = some p → p ∈ v.holes.live ∧ 0x2000 ≤ (v.holes.tree.item p).length ∧
        (∀ y ∈ v.holes.live, 0x2000 ≤ (v.holes.tree.item y).length →
          (v.holes.tree.item p).base ≤ (v.holes.tree.item y).base) ∧
        ∃ v', v.adjustHole .counting p 0 0x2000 = some v' ∧
          v'.freeSet = v.freeSet \
            Set.Ico (v.holes.tree.item p).base ((v.holes.tree.item p).base + 0x2000) := by
  have hspans : threeHoles.map holeSpans =
      some [⟨0x2000, 0x2000⟩, ⟨0x1000, 0x1000⟩, ⟨0x5000, 0x7FFFFFFF9FFF⟩] := by
    decide +kernel
  obtain ⟨v, hv, hholes⟩ := Option.map_eq_some_iff.mp hspans
  obtain ⟨v0, hv0, hwf0, -⟩ := user_spec (m := .counting) .x86
    ⟨⟨0, 0, 0, 0, 0, 0, 0, 0, 0⟩, ()⟩ (fun _ => ⟨0, 0, 0, 0, 0, 0⟩) fun _ => ⟨0, 0, 0⟩
  have hrun := hv
  rw [threeHoles, hv0, Option.bind_some] at hrun
  obtain ⟨v', hrun', hwf, -⟩ := run_spec (m := .counting) _ hwf0
  cases hrun.symm.trans hrun'
  exact ⟨v, hv, hholes, hwf.holeTree, findHole_firstFit hwf.holeTree 0x2000⟩

end Vmm

end Northport.Memory
