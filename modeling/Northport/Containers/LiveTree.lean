/-
# A red-black tree with the list of its nodes

`LiveTree` adds to a tree the list of the nodes that are in it.  It bounds the loops of the
tree, and it is what the users of the tree reason about: an insertion adds one node to the
list, a removal takes one away, and nothing of the other nodes changes but their hooks and
aggregates.
-/
import Northport.Containers.RBTreeInsert
import Northport.Containers.RBTreeRemove

namespace Northport.RBTree

open Lib Lib.Shape Lib.Links

variable {P D C M K : Type} [DecidableEq P] [LinearOrder K] {A : Aggregator D}
  {W : AggLaws A C M} {key : C → K}

/-- A tree with the nodes that are in it. -/
structure LiveTree (P D : Type) where
  tree : Tree P D
  live : List P

namespace LiveTree

/-- The tree with no node. -/
def empty (item : P → D) : LiveTree P D := ⟨Tree.empty item, []⟩

/-- The node at `p` is built from `d` and inserted. -/
def insert (A : Aggregator D) (less : D → D → Bool) (s : LiveTree P D) (p : P) (d : D) :
    Option (LiveTree P D) :=
  (Tree.insert A less (s.live.length + 1) (s.tree.construct p d) p).map fun t => ⟨t, p :: s.live⟩

/-- The node at `p` is removed. -/
def remove (A : Aggregator D) (s : LiveTree P D) (p : P) : Option (LiveTree P D) :=
  (Tree.remove A s.live.length s.tree p).map fun t => ⟨t, s.live.erase p⟩

/-- **The invariant**: the live nodes form a well formed tree. -/
def Inv (W : AggLaws A C M) (key : C → K) (s : LiveTree P D) : Prop :=
  ∃ shape, Tree.IsTree W key s.tree shape ∧ shape.toList.Perm s.live

/-- The live nodes are those that the links reach from the root. -/
def Exact (s : LiveTree P D) : Prop :=
  ∃ shape, s.tree.links.Rep none s.tree.getRoot shape ∧ shape.toList.Perm s.live

variable {s s' : LiveTree P D}

lemma Inv.exact (h : Inv W key s) : s.Exact := by
  obtain ⟨shape, htree, hperm⟩ := h
  exact ⟨shape, htree.ok.rep, hperm⟩

lemma Inv.nodup (h : Inv W key s) : s.live.Nodup := by
  obtain ⟨shape, htree, hperm⟩ := h
  exact hperm.nodup_iff.mp htree.ok.nodup

lemma inv_empty (item : P → D) : Inv W key (empty item) :=
  ⟨nil, Tree.isTree_empty item, List.Perm.refl _⟩

end LiveTree

namespace Tree

/-- Building a node that is in no tree leaves the tree alone. -/
lemma IsTree.construct {t : Tree P D} {s : Shape P} {p : P} {d : D} (h : IsTree W key t s)
    (hp : p ∉ s.toList) : IsTree W key (t.construct p d) s := by
  refine h.congr rfl fun x hx => ?_
  have hne : x ≠ p := fun heq => hp (heq ▸ hx)
  constructor <;> simp [Tree.construct, hne]

end Tree

namespace LiveTree

variable {s s' : LiveTree P D}

/-- **Insertion** of a node that is not in the tree. -/
theorem insert_spec {less : D → D → Bool}
    (hless : ∀ a b, less a b = decide (key (W.core a) < key (W.core b))) {p : P} (d : D)
    (h : Inv W key s) (hp : p ∉ s.live) :
    ∃ s', s.insert A less p d = some s' ∧ Inv W key s' ∧ s'.live = p :: s.live ∧
      W.core (s'.tree.item p) = W.core d ∧
      ∀ q, q ≠ p → W.core (s'.tree.item q) = W.core (s.tree.item q) := by
  obtain ⟨shape, htree, hperm⟩ := h
  have hp' : p ∉ shape.toList := fun h => hp (hperm.mem_iff.mp h)
  have hfuel : shape.toList.length < s.live.length + 1 := by
    rw [hperm.length_eq]
    omega
  obtain ⟨t', l₁, l₂, h1, hlist, s', htree', hlist', hcore⟩ := Tree.insert_spec hless
    (htree.construct hp') (s.tree.fresh_construct p d) hp' hfuel
  refine ⟨⟨t', p :: s.live⟩, by rw [insert, h1]; rfl, ⟨s', htree', ?_⟩, rfl, ?_, ?_⟩
  · rw [hlist']
    refine List.perm_middle.trans (List.Perm.cons p ?_)
    rw [← hlist]
    exact hperm
  · rw [hcore p]
    simp [Tree.construct]
  · intro q hq
    rw [hcore q]
    simp [Tree.construct, hq]

/-- **Removal** of a node of the tree. -/
theorem remove_spec {p : P} (h : Inv W key s) (hp : p ∈ s.live) :
    ∃ s', s.remove A p = some s' ∧ Inv W key s' ∧ s'.live = s.live.erase p ∧
      ∀ q, W.core (s'.tree.item q) = W.core (s.tree.item q) := by
  obtain ⟨shape, htree, hperm⟩ := h
  obtain ⟨t', h1, s', htree', hlist', hcore⟩ := Tree.remove_spec htree (hperm.mem_iff.mpr hp)
    hperm.length_eq.le
  refine ⟨⟨t', s.live.erase p⟩, by rw [remove, h1]; rfl, ⟨s', htree', ?_⟩, rfl, hcore⟩
  rw [hlist']
  exact hperm.erase p

/-- Without an aggregate, a node may be overwritten in place as long as its key stays. -/
lemma Inv.setItem {key : D → K} {p : P} {d : D} (h : Inv (nullLaws D) key s)
    (hkey : key d = key (s.tree.item p)) :
    Inv (nullLaws D) key { s with tree := s.tree.setItem p d } := by
  obtain ⟨shape, htree, hperm⟩ := h
  have hagg : ∀ (t : Tree P D) (s : Shape P), (nullLaws D).Agg t s := by
    intro t s
    induction s with
    | nil => trivial
    | node l x r ihl ihr => exact ⟨rfl, ihl, ihr⟩
  have hkeys : ∀ q, key ((s.tree.setItem p d).item q) = key (s.tree.item q) := by
    intro q
    by_cases hq : q = p
    · subst hq
      simpa using hkey
    · simp [hq]
  refine ⟨shape, ⟨⟨htree.ok.rep, htree.ok.nodup, hagg _ _⟩, htree.threaded, htree.balanced, ?_⟩,
    hperm⟩
  refine htree.sorted.imp fun {x y} hxy => ?_
  rw [show (nullLaws D).core = id from rfl] at hxy ⊢
  simp only [id] at hxy ⊢
  rw [hkeys, hkeys]
  exact hxy

end LiveTree

end Northport.RBTree
