/-
# The intrusive red-black tree (`containers/RBTree.h`)

The nodes live in memory and carry a hook with the parent, child, predecessor and
successor pointers and a colour.  The memory is modelled field by field: one map from
node addresses for each field of the hook, and one for the rest of the node.  A null
pointer is `none`.  Every function returns `none` when it would follow a null pointer; the
loops and the recursive functions take a bound on the number of their iterations and
return `none` when they exceed it.

The two halves of the source that are mirror images of each other are written once, for
a side `d`.
-/
import Northport.Lib.LinkedTree

namespace Northport.RBTree

open Lib

/-- The colour of a hook; a hook that is in no tree yet has the colour `null`. -/
inductive ColorType where
  | null
  | red
  | black
deriving DecidableEq, Repr

/-- A tree together with the memory of all nodes: `root`, the hooks, and the rest `item`
of each node. -/
structure Tree (P D : Type) where
  links : Links P
  predecessor : P → Option P
  successor : P → Option P
  color : P → ColorType
  item : P → D

/-- `A::Aggregate(node)`: from the node and its children, the node with its aggregate
renewed and whether that changed it. -/
abbrev Aggregator (D : Type) := D → Option D → Option D → D × Bool

/-- `NullAggregator::Aggregate`. -/
def nullAggregate (D : Type) : Aggregator D := fun d _ _ => (d, false)

namespace Tree

variable {P D : Type} [DecidableEq P]

/-! ### Reading and writing the hooks -/

section

variable (t : Tree P D)

def getRoot : Option P := t.links.root

def getParent (p : P) : Option P := t.links.parent p

def getChild (d : Side) (p : P) : Option P := t.links.child d p

def getLeft (p : P) : Option P := t.getChild .left p

def getRight (p : P) : Option P := t.getChild .right p

@[simps links predecessor successor color item]
def setRoot (v : Option P) : Tree P D := { t with links := t.links.setRoot v }

@[simps links predecessor successor color item]
def setParent (p : P) (v : Option P) : Tree P D :=
  { t with links := t.links.setParent p v }

@[simps links predecessor successor color item]
def setChild (d : Side) (p : P) (v : Option P) : Tree P D :=
  { t with links := t.links.setChild d p v }

@[simps links predecessor successor color item]
def replaceChild (w : Option P) (u : P) (v : Option P) : Tree P D :=
  { t with links := t.links.replaceChild w u v }

@[simps links predecessor successor color item]
def setPredecessor (p : P) (v : Option P) : Tree P D :=
  { t with predecessor := Function.update t.predecessor p v }

@[simps links predecessor successor color item]
def setSuccessor (p : P) (v : Option P) : Tree P D :=
  { t with successor := Function.update t.successor p v }

def setColor (p : P) (v : ColorType) : Tree P D :=
  { t with color := Function.update t.color p v }

@[simps links predecessor successor color item]
def setItem (p : P) (v : D) : Tree P D :=
  { t with item := Function.update t.item p v }

/-- A write through a pointer that the source guards by a null check. -/
def guarded (p : Option P) (f : Tree P D → P → Tree P D) : Tree P D :=
  match p with
  | none => t
  | some p => f t p

def isRed : Option P → Bool
  | none => false
  | some p => t.color p = .red

def isBlack : Option P → Bool
  | none => true
  | some p => t.color p = .black

/-- The tree with no node. -/
def empty (item : P → D) : Tree P D where
  links := ⟨none, fun _ => none, fun _ _ => none⟩
  predecessor := fun _ => none
  successor := fun _ => none
  color := fun _ => .null
  item := item

/-- A node built by placement new: its hook is the default one. -/
def construct (p : P) (d : D) : Tree P D :=
  (((((((t.setParent p none).setChild .left p none).setChild .right p none).setPredecessor p
    none).setSuccessor p none).setColor p .null).setItem p d)

end

/-! ### Aggregation and rotation -/

/-- The result of `A::Aggregate` on a node of the tree. -/
def aggregateOf (A : Aggregator D) (t : Tree P D) (p : P) : D × Bool :=
  A (t.item p) ((t.getLeft p).map t.item) ((t.getRight p).map t.item)

def aggregateNode (A : Aggregator D) (t : Tree P D) (p : P) : Tree P D :=
  t.setItem p (t.aggregateOf A p).1

/-- The loop stops at the first node that aggregation leaves unchanged. -/
def aggregatePath (A : Aggregator D) : ℕ → Tree P D → Option P → Option (Tree P D)
  | _, t, none => some t
  | 0, _, some _ => none
  | fuel + 1, t, some current =>
      let t' := t.aggregateNode A current
      if (t.aggregateOf A current).2 then
        aggregatePath A fuel t' (t'.getParent current)
      else some t'

/-- `n` takes the place of its parent `u`, which becomes its child on side `d`. -/
def rotate (A : Aggregator D) (d : Side) (t : Tree P D) (n : P) : Option (Tree P D) := do
  let u ← t.getParent n
  let v := t.getChild d n
  let w := t.getParent u
  let t := t.guarded v fun t v => t.setParent v (some u)
  let t := t.setChild d.flip u v
  let t := t.setParent u (some n)
  let t := t.setChild d n (some u)
  let t := t.setParent n w
  let t := t.replaceChild w u (some n)
  let t := t.aggregateNode A u
  return t.aggregateNode A n

def rotateLeft (A : Aggregator D) (t : Tree P D) (n : P) : Option (Tree P D) :=
  t.rotate A .left n

def rotateRight (A : Aggregator D) (t : Tree P D) (n : P) : Option (Tree P D) :=
  t.rotate A .right n

/-! ### Insertion -/

/-- The rotations of `FixInsert`, when `parent` is the child on side `d` of `grand` and
the other child of `grand` is not red. -/
def fixInsertRotate (A : Aggregator D) (d : Side) (t : Tree P D) (n parent grand : P) :
    Option (Tree P D) := do
  if some n = t.getChild d.flip parent then
    let t ← t.rotate A d n
    let t ← t.rotate A d.flip n
    return (t.setColor n .black).setColor grand .red
  else
    let t ← t.rotate A d.flip parent
    return (t.setColor parent .black).setColor grand .red

def fixInsert (A : Aggregator D) : ℕ → Tree P D → P → Option (Tree P D)
  | 0, _, _ => none
  | fuel + 1, t, n =>
      match t.getParent n with
      | none => some (t.setColor n .black)
      | some parent => do
        let t := t.setColor n .red
        if t.color parent = .black then
          return t
        let grand ← t.getParent parent
        if t.getLeft grand = some parent ∧ t.isRed (t.getRight grand) then
          let t := (t.setColor grand .red).setColor parent .black
          let uncle ← t.getRight grand
          fixInsert A fuel (t.setColor uncle .black) grand
        else if t.getRight grand = some parent ∧ t.isRed (t.getLeft grand) then
          let t := (t.setColor grand .red).setColor parent .black
          let uncle ← t.getLeft grand
          fixInsert A fuel (t.setColor uncle .black) grand
        else if some parent = t.getLeft grand then
          t.fixInsertRotate A .left n parent grand
        else
          t.fixInsertRotate A .right n parent grand

def insertRoot (A : Aggregator D) (fuel : ℕ) (t : Tree P D) (n : P) : Option (Tree P D) :=
  fixInsert A fuel ((t.setRoot (some n)).aggregateNode A n) n

def insertLeft (A : Aggregator D) (fuel : ℕ) (t : Tree P D) (parent n : P) :
    Option (Tree P D) := do
  let t := t.setChild .left parent (some n)
  let t := t.setParent n (some parent)
  let pred := t.predecessor parent
  let t := t.guarded pred fun t pred => t.setSuccessor pred (some n)
  let t := t.setPredecessor n pred
  let t := t.setSuccessor n (some parent)
  let t := t.setPredecessor parent (some n)
  let t := t.aggregateNode A n
  let t ← aggregatePath A fuel t (some parent)
  fixInsert A fuel t n

def insertRight (A : Aggregator D) (fuel : ℕ) (t : Tree P D) (parent n : P) :
    Option (Tree P D) := do
  let t := t.setChild .right parent (some n)
  let t := t.setParent n (some parent)
  let succ := t.successor parent
  let t := t.setSuccessor parent (some n)
  let t := t.setPredecessor n (some parent)
  let t := t.setSuccessor n succ
  let t := t.guarded succ fun t succ => t.setPredecessor succ (some n)
  let t := t.aggregateNode A n
  let t ← aggregatePath A fuel t (some parent)
  fixInsert A fuel t n

/-- The loop of `Insert`, which walks down from `current` to a free child pointer. -/
def insertLoop (A : Aggregator D) (less : D → D → Bool) (fuel : ℕ) (t : Tree P D) (n : P) :
    ℕ → P → Option (Tree P D)
  | 0, _ => none
  | steps + 1, current =>
      if less (t.item n) (t.item current) then
        match t.getLeft current with
        | none => insertLeft A fuel t current n
        | some next => insertLoop A less fuel t n steps next
      else
        match t.getRight current with
        | none => insertRight A fuel t current n
        | some next => insertLoop A less fuel t n steps next

def insert (A : Aggregator D) (less : D → D → Bool) (fuel : ℕ) (t : Tree P D) (n : P) :
    Option (Tree P D) :=
  match t.getRoot with
  | none => insertRoot A fuel t n
  | some root => insertLoop A less fuel t n fuel root

/-! ### Removal -/

/-- The end of `FixRemove`: the sibling `s` is rotated up and takes the colour of `parent`. -/
def fixRemoveOuter (A : Aggregator D) (d : Side) (t : Tree P D) (parent s : P)
    (parentColor : ColorType) : Option (Tree P D) := do
  let t ← t.rotate A d s
  let t := (t.setColor parent .black).setColor s parentColor
  let outer ← t.getChild d.flip s
  return t.setColor outer .black

/-- The last part of `FixRemove`, when `n` is the child on side `d` of `parent` and its
sibling `s` has a red child. -/
def fixRemoveRotate (A : Aggregator D) (d : Side) (t : Tree P D) (parent s : P) :
    Option (Tree P D) := do
  let parentColor := t.color parent
  let (t, s) ←
    if t.isRed (t.getChild d s) ∧ t.isBlack (t.getChild d.flip s) then do
      let child ← t.getChild d s
      let t ← t.rotate A d.flip child
      pure ((t.setColor s .red).setColor child .black, child)
    else
      pure (t, s)
  t.fixRemoveOuter A d parent s parentColor

/-- The first part of `FixRemove`: when the sibling of the child on side `d` is red it is
rotated up, so that the sibling that is returned is black. -/
def fixRemoveSibling (A : Aggregator D) (d : Side) (t : Tree P D) (parent : P) :
    Option (Tree P D × P) := do
  let x ← t.getChild d.flip parent
  let t ←
    if t.color x = .red then do
      let t ← t.rotate A d x
      pure ((t.setColor parent .red).setColor x .black)
    else
      pure t
  let s ← t.getChild d.flip parent
  return (t, s)

def fixRemove (A : Aggregator D) : ℕ → Tree P D → P → Option (Tree P D)
  | 0, _, _ => none
  | fuel + 1, t, n =>
      match t.getParent n with
      | none => some t
      | some parent => do
        let (t, s) ←
          if t.getLeft parent = some n then t.fixRemoveSibling A .left parent
          else t.fixRemoveSibling A .right parent
        if t.isBlack (t.getLeft s) ∧ t.isBlack (t.getRight s) then
          if t.color parent = .black then
            fixRemove A fuel (t.setColor s .red) parent
          else
            return (t.setColor parent .black).setColor s .red
        else if t.getLeft parent = some n then
          t.fixRemoveRotate A .left parent s
        else
          t.fixRemoveRotate A .right parent s

/-- The neighbours of `n` in the order are linked with each other. -/
def unthread (t : Tree P D) (n : P) : Tree P D :=
  let pred := t.predecessor n
  let succ := t.successor n
  let t := t.guarded pred fun t pred => t.setSuccessor pred succ
  t.guarded succ fun t succ => t.setPredecessor succ pred

/-- The hook of a removed node. -/
def clearHook (t : Tree P D) (n : P) : Tree P D :=
  ((((t.setChild .left n none).setChild .right n none).setParent n none).setPredecessor n
    none).setSuccessor n none

/-- `child` takes the place of `n`. -/
def unlink (t : Tree P D) (n : P) (child : Option P) : Tree P D :=
  let parent := t.getParent n
  let t := t.replaceChild parent n child
  let t := t.guarded child fun t child => t.setParent child parent
  t.clearHook n

/-- The colours in `RemoveHalfLeaf`, while `n` is still linked. -/
def fixHalfLeaf (A : Aggregator D) (fuel : ℕ) (t : Tree P D) (n : P) (child : Option P) :
    Option (Tree P D) := do
  if t.color n = .black then
    if t.isRed child then
      let child ← child
      return t.setColor child .black
    else
      fixRemove A fuel t n
  else
    return t

def removeHalfLeaf (A : Aggregator D) (fuel : ℕ) (t : Tree P D) (n : P) (child : Option P) :
    Option (Tree P D) := do
  let t := t.unthread n
  let t ← t.fixHalfLeaf A fuel n child
  aggregatePath A fuel (t.unlink n child) (t.getParent n)

/-- `replacement`, which is in no tree, takes the place and the colour of `n`. -/
def substitute (t : Tree P D) (n replacement : P) : Tree P D :=
  let parent := t.getParent n
  let left := t.getLeft n
  let right := t.getRight n
  let t := t.replaceChild parent n (some replacement)
  let t := t.setParent replacement parent
  let t := t.setColor replacement (t.color n)
  let t := t.setChild .left replacement left
  let t := t.guarded left fun t left => t.setParent left (some replacement)
  let t := t.setChild .right replacement right
  let t := t.guarded right fun t right => t.setParent right (some replacement)
  let t := t.guarded (t.predecessor n) fun t pred => t.setSuccessor pred (some replacement)
  let t := t.setPredecessor replacement (t.predecessor n)
  let t := t.setSuccessor replacement (t.successor n)
  let t := t.guarded (t.successor n) fun t succ => t.setPredecessor succ (some replacement)
  t.clearHook n

def replaceNode (A : Aggregator D) (fuel : ℕ) (t : Tree P D) (n replacement : P) :
    Option (Tree P D) :=
  aggregatePath A fuel ((t.substitute n replacement).aggregateNode A replacement) (t.getParent n)

def remove (A : Aggregator D) (fuel : ℕ) (t : Tree P D) (n : P) : Option (Tree P D) :=
  match t.getLeft n, t.getRight n with
  | none, right => removeHalfLeaf A fuel t n right
  | some left, none => removeHalfLeaf A fuel t n (some left)
  | some _, some _ => do
    let pred ← t.predecessor n
    let t ← removeHalfLeaf A fuel t pred (t.getLeft pred)
    replaceNode A fuel t n pred

end Tree

end Northport.RBTree
