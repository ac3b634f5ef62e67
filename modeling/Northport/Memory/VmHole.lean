/-
# The tree of virtual memory holes (`VmHoleTree`)

The address space that is in no range is kept as a red-black tree of `VmHole`s, ordered by
base.  Every hole caches the length of the largest hole of its subtree, so that the search
for free space can skip whole subtrees.
-/
import Northport.Containers.LiveTree
import Northport.Lib.Run

namespace Northport.Memory

open Lib Lib.Shape Northport.RBTree

/-- A `VmHole` without its hook. -/
structure VmHole where
  base : ℕ
  length : ℕ
  largestHole : ℕ
deriving DecidableEq, Repr

def VmHoleLess (a b : VmHole) : Bool := a.base < b.base

/-- `VmHoleAggregator::Aggregate`. -/
def VmHoleAggregator : Aggregator VmHole := fun hole left right =>
  let size := hole.length
  let size := match left with
    | some left => if left.largestHole > size then left.largestHole else size
    | none => size
  let size := match right with
    | some right => if right.largestHole > size then right.largestHole else size
    | none => size
  if hole.largestHole = size then (hole, false)
  else ({ hole with largestHole := size }, true)

/-- The aggregator computes the maximum over the node and its children. -/
lemma vmHoleAggregator_eq (hole : VmHole) (left right : Option VmHole) :
    VmHoleAggregator hole left right =
      let size := max (max (left.elim 0 VmHole.largestHole) hole.length)
        (right.elim 0 VmHole.largestHole)
      if hole.largestHole = size then (hole, false)
      else ({ hole with largestHole := size }, true) := by
  have hmax : ∀ a b : ℕ, (if b > a then b else a) = max b a := by
    intro a b
    split_ifs <;> omega
  cases left <;> cases right <;>
    simp only [VmHoleAggregator, hmax, max_comm, Option.elim_none, Option.elim_some,
      Nat.max_zero]

/-- The aggregator keeps base and length, and caches the largest length of the subtree. -/
def vmHoleLaws : AggLaws VmHoleAggregator (ℕ × ℕ) ℕ where
  core := fun hole => (hole.base, hole.length)
  val := Prod.snd
  cached := VmHole.largestHole
  op := max
  one := 0
  op_assoc := max_assoc
  one_op := Nat.zero_max
  op_one := Nat.max_zero
  core_agg := by
    intro hole left right
    simp only [vmHoleAggregator_eq]
    split_ifs <;> rfl
  cached_agg := by
    intro hole left right
    simp only [vmHoleAggregator_eq]
    split_ifs with h
    · exact h
    · rfl
  unchanged := by
    intro hole left right h
    simp only [vmHoleAggregator_eq] at h ⊢
    split_ifs at h ⊢
    rfl

variable {P : Type}

/-- The cached value of a node bounds the lengths of its subtree and is one of them. -/
lemma vmHole_sum_spec (t : Tree P VmHole) (s : Shape P) :
    (∀ y ∈ s.toList, (t.item y).length ≤ vmHoleLaws.sum t s) ∧
      (s ≠ nil → ∃ y ∈ s.toList, (t.item y).length = vmHoleLaws.sum t s) := by
  induction s with
  | nil => exact ⟨by simp, fun h => absurd rfl h⟩
  | node l x r ihl ihr =>
    have hsum : vmHoleLaws.sum t (node l x r)
        = max (max (vmHoleLaws.sum t l) (t.item x).length) (vmHoleLaws.sum t r) := rfl
    obtain ⟨hl, hl'⟩ := ihl
    obtain ⟨hr, hr'⟩ := ihr
    constructor
    · intro y hy
      simp only [toList_node, List.mem_append, List.mem_cons] at hy
      rcases hy with hy | rfl | hy
      · exact (hl y hy).trans (by omega)
      · omega
      · exact (hr y hy).trans (by omega)
    · intro _
      -- a subtree that is empty has the sum 0, which is no larger than the length of `x`
      have hnil : ∀ s : Shape P, s = nil → vmHoleLaws.sum t s = 0 := by
        rintro s rfl
        rfl
      by_cases hxl : vmHoleLaws.sum t l ≤ (t.item x).length
      · by_cases hxr : vmHoleLaws.sum t r ≤ (t.item x).length
        · exact ⟨x, by simp, by omega⟩
        · obtain ⟨y, hy, hlen⟩ := hr' fun h => hxr (by rw [hnil r h]; omega)
          exact ⟨y, by simp [hy], by omega⟩
      · by_cases hlr : vmHoleLaws.sum t l ≤ vmHoleLaws.sum t r
        · obtain ⟨y, hy, hlen⟩ := hr' fun h => hxl (by rw [hnil r h] at hlr; omega)
          exact ⟨y, by simp [hy], by omega⟩
        · obtain ⟨y, hy, hlen⟩ := hl' fun h => hxl (by rw [hnil l h]; omega)
          exact ⟨y, by simp [hy], by omega⟩

/-- What `largestHole` says at the root of a subtree with right aggregates. -/
lemma largestHole_spec {t : Tree P VmHole} {l r : Shape P} {x : P}
    (h : vmHoleLaws.Agg t (node l x r)) :
    (∀ y ∈ (node l x r).toList, (t.item y).length ≤ (t.item x).largestHole) ∧
      ∃ y ∈ (node l x r).toList, (t.item y).length = (t.item x).largestHole := by
  obtain ⟨hle, hmem⟩ := vmHole_sum_spec t (node l x r)
  have hx : (t.item x).largestHole = vmHoleLaws.sum t (node l x r) := h.1
  rw [hx]
  exact ⟨hle, hmem (by simp)⟩

/-! ### Histories of insertions and removals -/

/-- An insertion of the node at `p`, which holds `hole`, or a removal of the node at `p`. -/
inductive VmHoleOp (P : Type) where
  | insert (p : P) (hole : VmHole)
  | remove (p : P)

variable [DecidableEq P]

/-- One operation on the tree. -/
def VmHoleOp.step (s : LiveTree P VmHole) : VmHoleOp P → Option (LiveTree P VmHole)
  | .insert p hole => s.insert VmHoleAggregator VmHoleLess p hole
  | .remove p => s.remove VmHoleAggregator p

/-- An inserted hole is fresh and no other one has its base; a removed one is in the tree. -/
def VmHoleOp.Ok (s : LiveTree P VmHole) : VmHoleOp P → Prop
  | .insert p hole => p ∉ s.live ∧ ∀ q ∈ s.live, (s.tree.item q).base ≠ hole.base
  | .remove p => p ∈ s.live

instance (s : LiveTree P VmHole) : ∀ o : VmHoleOp P, Decidable (o.Ok s)
  | .insert p hole =>
    inferInstanceAs (Decidable (p ∉ s.live ∧ ∀ q ∈ s.live, (s.tree.item q).base ≠ hole.base))
  | .remove p => inferInstanceAs (Decidable (p ∈ s.live))

/-- The live nodes form a well formed tree and their bases are distinct. -/
def VmHoleInv (s : LiveTree P VmHole) : Prop :=
  s.Inv vmHoleLaws Prod.fst ∧ (s.live.map fun p => (s.tree.item p).base).Nodup

lemma vmHoleLess_eq (a b : VmHole) : VmHoleLess a b =
    decide ((vmHoleLaws.core a).1 < (vmHoleLaws.core b).1) := rfl

lemma base_eq_of_core {a b : VmHole} (h : vmHoleLaws.core a = vmHoleLaws.core b) :
    a.base = b.base := congrArg Prod.fst h

lemma length_eq_of_core {a b : VmHole} (h : vmHoleLaws.core a = vmHoleLaws.core b) :
    a.length = b.length := congrArg Prod.snd h

/-- One operation keeps the invariant. -/
lemma vmHoleOp_step_inv (s : LiveTree P VmHole) (o : VmHoleOp P) (h : VmHoleInv s)
    (ho : o.Ok s) : ∃ s', o.step s = some s' ∧ VmHoleInv s' := by
  obtain ⟨hinv, hnd⟩ := h
  cases o with
  | insert p hole =>
    obtain ⟨hp, hbase⟩ := ho
    obtain ⟨s', h1, hinv', hlive, hcore, hother⟩ :=
      LiveTree.insert_spec vmHoleLess_eq hole hinv hp
    refine ⟨s', h1, hinv', ?_⟩
    have hmap : s.live.map (fun q => (s'.tree.item q).base)
        = s.live.map fun q => (s.tree.item q).base :=
      List.map_congr_left fun q hq => base_eq_of_core (hother q fun h => hp (h ▸ hq))
    rw [hlive, List.map_cons, hmap, List.nodup_cons, base_eq_of_core hcore]
    refine ⟨?_, hnd⟩
    intro hmem
    obtain ⟨q, hq, heq⟩ := List.mem_map.mp hmem
    exact hbase q hq heq
  | remove p =>
    obtain ⟨s', h1, hinv', hlive, hcore⟩ := LiveTree.remove_spec hinv ho
    refine ⟨s', h1, hinv', ?_⟩
    have hmap : (s.live.erase p).map (fun q => (s'.tree.item q).base)
        = (s.live.erase p).map fun q => (s.tree.item q).base :=
      List.map_congr_left fun q _ => base_eq_of_core (hcore q)
    rw [hlive, hmap]
    exact hnd.sublist (List.erase_sublist.map _)

/-- **The tree of holes after any history.**  Every operation succeeds, and the live holes
form a linked tree that is a search tree by base, has red-black colours with equal black
depths and a black root, is threaded in symmetric order, and caches at every node the
largest length of its subtree. -/
theorem vmHoleTree_history (item : P → VmHole) (ops : List (VmHoleOp P))
    (hops : Allowed VmHoleOp.step (fun s o => o.Ok s) (LiveTree.empty item) ops) :
    ∃ s shape, run VmHoleOp.step (LiveTree.empty item) ops = some s ∧
      s.tree.links.Rep none s.tree.getRoot shape ∧ shape.toList.Perm s.live ∧
      (shape.toList.Pairwise fun p q => (s.tree.item p).base < (s.tree.item q).base) ∧
      (∃ n, Balanced (fun p => s.tree.color p = .red) (fun p => s.tree.color p = .black)
        shape false n) ∧
      Threaded s.tree.predecessor s.tree.successor none shape.toList none ∧
      ∀ c l x r, shape = plug c (node l x r) →
        (∀ y ∈ (node l x r).toList, (s.tree.item y).length ≤ (s.tree.item x).largestHole) ∧
        ∃ y ∈ (node l x r).toList, (s.tree.item y).length = (s.tree.item x).largestHole := by
  obtain ⟨s, hrun, ⟨shape, htree, hperm⟩, hnd⟩ := run_invariant VmHoleInv
    vmHoleOp_step_inv ⟨LiveTree.inv_empty item, List.nodup_nil⟩ hops
  refine ⟨s, shape, hrun, htree.ok.rep, hperm, ?_, htree.balanced, htree.threaded, ?_⟩
  · -- the keys do not decrease, and no two of them are equal
    have hnd' : shape.toList.Pairwise fun p q => (s.tree.item p).base ≠ (s.tree.item q).base :=
      List.pairwise_map.mp ((hperm.map _).nodup_iff.mpr hnd)
    exact (htree.sorted.and hnd').imp fun ⟨hle, hne⟩ => lt_of_le_of_ne hle hne
  · rintro c l x r rfl
    exact largestHole_spec (AggLaws.agg_plug.mp htree.ok.agg).2

/-- Three holes are inserted out of order and the first one, which has two neighbours, is
removed again. -/
theorem vmHoleTree_history_example :
    ∃ s shape, run VmHoleOp.step (LiveTree.empty fun _ : ℕ => ⟨0, 0, 0⟩)
        [.insert 1 ⟨40, 8, 0⟩, .insert 2 ⟨16, 16, 0⟩, .insert 3 ⟨64, 4, 0⟩, .remove 1] = some s ∧
      s.tree.links.Rep none s.tree.getRoot shape ∧ shape.toList.Perm s.live ∧
      (shape.toList.Pairwise fun p q => (s.tree.item p).base < (s.tree.item q).base) ∧
      (∃ n, Balanced (fun p => s.tree.color p = .red) (fun p => s.tree.color p = .black)
        shape false n) ∧
      Threaded s.tree.predecessor s.tree.successor none shape.toList none ∧
      ∀ c l x r, shape = plug c (node l x r) →
        (∀ y ∈ (node l x r).toList, (s.tree.item y).length ≤ (s.tree.item x).largestHole) ∧
        ∃ y ∈ (node l x r).toList, (s.tree.item y).length = (s.tree.item x).largestHole :=
  vmHoleTree_history _ _ (by decide)

end Northport.Memory
