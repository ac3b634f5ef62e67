/-
# The invariant of the red-black tree

A tree is well formed for a shape `s` when the links describe `s`, the aggregates are
right, the threading is the symmetric order of `s`, the colours are balanced with a black
root, and the keys do not decrease along the symmetric order.
-/
import Northport.Containers.RBTreeRotate
import Northport.Lib.Thread

namespace Northport.RBTree

open Lib Lib.Shape Lib.Links

namespace Tree

variable {P D C M : Type}

/-- The red-black balance of a shape under the colours of the memory. -/
def Bal (t : Tree P D) (s : Shape P) (c : Bool) (n : ℕ) : Prop :=
  Balanced (fun p => t.color p = .red) (fun p => t.color p = .black) s c n

/-- The red-black balance of a context under the colours of the memory. -/
def CtxBal (t : Tree P D) (c : List (Frame P)) (n : ℕ) : Prop :=
  CtxBalanced (fun p => t.color p = .red) (fun p => t.color p = .black) c n

variable {A : Aggregator D} {W : AggLaws A C M} {K : Type} [LinearOrder K] {key : C → K}
  {t t' : Tree P D} {s : Shape P} {c : List (Frame P)} {b : Bool} {n : ℕ} {par : Option P}

lemma Bal.congr (h : t.Bal s b n) (hc : ∀ x ∈ s.toList, t'.color x = t.color x) : t'.Bal s b n :=
  Balanced.congr h fun x hx => ⟨(hc x hx).trans, (hc x hx).trans⟩

lemma CtxBal.congr (h : t.CtxBal c n) (hc : ∀ x ∈ ctxItems c, t'.color x = t.color x) :
    t'.CtxBal c n :=
  CtxBalanced.congr h fun x hx => ⟨(hc x hx).trans, (hc x hx).trans⟩

section
variable [DecidableEq P] {x y : P} {v w : ColorType}

/-- Nodes outside of the shape may be recoloured. -/
lemma Bal.setColor (h : t.Bal s b n) (hx : x ∉ s.toList) : (t.setColor x v).Bal s b n :=
  h.congr fun z hz => by simp [ne_of_mem_of_not_mem hz hx]

lemma CtxBal.setColor (h : t.CtxBal c n) (hx : x ∉ ctxItems c) : (t.setColor x v).CtxBal c n :=
  h.congr fun z hz => by simp [ne_of_mem_of_not_mem hz hx]

/-- A rotation, which keeps the colours, and two nodes recoloured. -/
lemma Bal.recolor (h : t.Bal s b n) (hcol : t'.color = t.color) (hx : x ∉ s.toList)
    (hy : y ∉ s.toList) : ((t'.setColor x v).setColor y w).Bal s b n :=
  (Bal.setColor (h.congr fun z _ => congrFun hcol z) hx).setColor hy

lemma CtxBal.recolor (h : t.CtxBal c n) (hcol : t'.color = t.color) (hx : x ∉ ctxItems c)
    (hy : y ∉ ctxItems c) : ((t'.setColor x v).setColor y w).CtxBal c n :=
  (CtxBal.setColor (h.congr fun z _ => congrFun hcol z) hx).setColor hy

end

lemma CtxBal.plug (hc : t.CtxBal c n) (hs : t.Bal s b n)
    (hb : b = true → RedAllowed (fun p => t.color p = .black) c) : ∃ m, t.Bal (plug c s) false m :=
  CtxBalanced.plug (fun x h h' => by rw [h] at h'; exact absurd h' (by decide)) hc hs hb

/-- What `IsRed` reads through a child pointer. -/
lemma isRed_eq {p : Option P} (hrep : t.links.Rep par p s) (hs : t.Bal s b n) : t.isRed p = b := by
  cases hs with
  | nil =>
    have h0 : p = none := hrep
    rw [h0]
    rfl
  | red hx =>
    rw [hrep.1]
    simp [isRed, hx]
  | black hx =>
    rw [hrep.1]
    simp [isRed, hx]

lemma isBlack_eq {p : Option P} (hrep : t.links.Rep par p s) (hs : t.Bal s b n) :
    t.isBlack p = !b := by
  cases hs with
  | nil =>
    have h0 : p = none := hrep
    rw [h0]
    rfl
  | red hx =>
    rw [hrep.1]
    simp [isBlack, hx]
  | black hx =>
    rw [hrep.1]
    simp [isBlack, hx]

/-- The keys do not decrease along a list of nodes. -/
def Sorted (W : AggLaws A C M) (key : C → K) (t : Tree P D) (l : List P) : Prop :=
  l.Pairwise fun p q => key (W.core (t.item p)) ≤ key (W.core (t.item q))

/-- **The invariant** of a tree whose nodes form the shape `s`. -/
structure IsTree [DecidableEq P] (W : AggLaws A C M) (key : C → K) (t : Tree P D) (s : Shape P) :
    Prop where
  ok : Ok W t s
  threaded : Threaded t.predecessor t.successor none s.toList none
  balanced : ∃ m, t.Bal s false m
  sorted : Sorted W key t s.toList

/-- The hook of a node that is in no tree. -/
structure Fresh (t : Tree P D) (n : P) : Prop where
  parent : t.links.parent n = none
  child : ∀ d, t.links.child d n = none
  predecessor : t.predecessor n = none
  successor : t.successor n = none

lemma Sorted.congr {l : List P} (h : Sorted W key t l)
    (hitem : ∀ p ∈ l, W.core (t'.item p) = W.core (t.item p)) : Sorted W key t' l := by
  refine List.Pairwise.imp_of_mem (fun {p q} hp hq hpq => ?_) h
  rw [hitem p hp, hitem q hq]
  exact hpq

/-- The two memories have the same node at `x`. -/
structure SameNode (t t' : Tree P D) (x : P) : Prop where
  parent : t'.links.parent x = t.links.parent x
  child : ∀ d, t'.links.child d x = t.links.child d x
  predecessor : t'.predecessor x = t.predecessor x
  successor : t'.successor x = t.successor x
  color : t'.color x = t.color x
  item : t'.item x = t.item x

lemma SameNode.fresh {x : P} (h : SameNode t t' x) (hf : t.Fresh x) : t'.Fresh x :=
  ⟨h.parent.trans hf.parent, fun d => (h.child d).trans (hf.child d),
    h.predecessor.trans hf.predecessor, h.successor.trans hf.successor⟩

/-- The invariant depends on the root and on the nodes of the tree only. -/
lemma IsTree.congr [DecidableEq P] (h : IsTree W key t s)
    (hroot : t'.links.root = t.links.root) (hsame : ∀ x ∈ s.toList, SameNode t t' x) :
    IsTree W key t' s where
  ok := by
    refine ⟨?_, h.ok.nodup, h.ok.agg.congr fun x hx => (hsame x hx).item⟩
    rw [hroot]
    exact h.ok.rep.congr (fun x hx => (hsame x hx).parent) fun x hx => (hsame x hx).child
  threaded := h.threaded.congr (fun x hx => (hsame x hx).predecessor)
    fun x hx => (hsame x hx).successor
  balanced := by
    obtain ⟨m, hm⟩ := h.balanced
    exact ⟨m, hm.congr fun x hx => (hsame x hx).color⟩
  sorted := h.sorted.congr fun x hx => by rw [(hsame x hx).item]

/-- The tree with no node. -/
lemma isTree_empty [DecidableEq P] (item : P → D) : IsTree W key (empty item : Tree P D) nil where
  ok := ⟨rfl, List.nodup_nil, trivial⟩
  threaded := trivial
  balanced := ⟨0, Balanced.nil⟩
  sorted := List.Pairwise.nil

lemma fresh_construct [DecidableEq P] (t : Tree P D) (p : P) (d : D) :
    (t.construct p d).Fresh p where
  parent := by simp [construct, setParent, setChild, setPredecessor, setSuccessor, setColor, setItem]
  child := by
    intro e
    cases e <;>
      simp [construct, setParent, setChild, setPredecessor, setSuccessor, setColor, setItem]
  predecessor := by simp [construct, setPredecessor, setSuccessor, setColor, setItem]
  successor := by simp [construct, setSuccessor, setColor, setItem]

/-! ### Writes through pointers that may be null -/

section
variable [DecidableEq P] (p v : Option P)

@[simp] lemma links_guarded_setSuccessor :
    (t.guarded p fun t p => t.setSuccessor p v).links = t.links := by
  cases p <;> rfl

@[simp] lemma color_guarded_setSuccessor :
    (t.guarded p fun t p => t.setSuccessor p v).color = t.color := by
  cases p <;> rfl

@[simp] lemma item_guarded_setSuccessor :
    (t.guarded p fun t p => t.setSuccessor p v).item = t.item := by
  cases p <;> rfl

@[simp] lemma predecessor_guarded_setSuccessor :
    (t.guarded p fun t p => t.setSuccessor p v).predecessor = t.predecessor := by
  cases p <;> rfl

lemma successor_guarded_setSuccessor (x : P) :
    (t.guarded p fun t p => t.setSuccessor p v).successor x
      = if p = some x then v else t.successor x := by
  cases p with
  | none => simp [guarded]
  | some y => simp [guarded, setSuccessor, Function.update_apply, eq_comm]

@[simp] lemma links_guarded_setPredecessor :
    (t.guarded p fun t p => t.setPredecessor p v).links = t.links := by
  cases p <;> rfl

@[simp] lemma color_guarded_setPredecessor :
    (t.guarded p fun t p => t.setPredecessor p v).color = t.color := by
  cases p <;> rfl

@[simp] lemma item_guarded_setPredecessor :
    (t.guarded p fun t p => t.setPredecessor p v).item = t.item := by
  cases p <;> rfl

@[simp] lemma successor_guarded_setPredecessor :
    (t.guarded p fun t p => t.setPredecessor p v).successor = t.successor := by
  cases p <;> rfl

lemma predecessor_guarded_setPredecessor (x : P) :
    (t.guarded p fun t p => t.setPredecessor p v).predecessor x
      = if p = some x then v else t.predecessor x := by
  cases p with
  | none => simp [guarded]
  | some y => simp [guarded, setPredecessor, Function.update_apply, eq_comm]

end

end Tree

end Northport.RBTree
