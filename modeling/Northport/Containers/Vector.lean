/-
# The vector (`Vector.h`)

`sl::Vector` keeps its elements in raw storage, in which it constructs, moves and destroys them by
hand.  An operation fails when it leaves the storage, constructs an element over one that was not
destroyed, or moves or destroys one where there is none.
-/
import Northport.Lib.Refine
import Northport.Lib.Slots
import Northport.Lib.Word

namespace Northport.Containers

open Lib Slot

/-- The storage of a vector; a null pointer is an empty one. -/
structure Vector (T : Type) where
  elements : List (Slot T) := []
  size : ℕ := 0
  capacity : ℕ := 0

inductive VectorOp (T : Type) where
  | pushBack (elem : T)
  | emplaceAt (index : ℕ) (elem : T)
  | emplace (index : ℕ) (elem : T)
  | insert (index : ℕ) (elem : T)
  | eraseOne (index : ℕ)
  | erase (index count : ℕ)
  | popBack
  | clear
deriving DecidableEq, Repr

namespace Vector

variable {T : Type} [Inhabited T] (sizeT : ℕ)

/-- The slots of a block of `bytes` bytes. -/
def allocate (bytes : ℕ) : List (Slot T) := List.replicate (bytes / sizeT) .raw

/-- The capacity after `EnsureCapacity`. -/
def newCapacity (capacity needed : ℕ) : ℕ :=
  if needed ≤ capacity then capacity else max (mul64 capacity 2) needed

section

variable (v : Vector T)

def ensureCapacity (neededCapacity : ℕ) : Option (Vector T) :=
  if neededCapacity ≤ v.capacity then some v
  else
    let capacity := newCapacity v.capacity neededCapacity
    -- all slots of the old storage are moved, also those that have no element
    (forUp relocate 0 v.capacity (v.elements, allocate sizeT (mul64 sizeT capacity))).bind
      fun (old, new) => (forUp destroy 0 v.size old).map fun _ =>
        { v with elements := new, capacity := capacity }

/-- `new(&elements[index]) T(...)` -/
def constructAt (index : ℕ) (elem : T) : Option (Vector T) :=
  (construct (.live elem) index v.elements).map fun elements => { v with elements := elements }

def pushBack (elem : T) : Option (Vector T) :=
  (v.ensureCapacity sizeT (add64 v.size 1)).bind fun v =>
    (v.constructAt v.size elem).map fun v => { v with size := add64 v.size 1 }

/-- `while (size < index)` with a default element in each turn. -/
def pad (index : ℕ) : Option (Vector T) :=
  (forUp (construct (.live default)) v.size (index - v.size) v.elements).map fun elements =>
    { v with elements := elements, size := max v.size index }

def emplaceAt (index : ℕ) (elem : T) : Option (Vector T) :=
  (v.ensureCapacity sizeT (add64 index 1)).bind fun v =>
    (v.pad index).bind fun v =>
      (v.constructAt index elem).map fun v =>
        if index ≥ v.size then { v with size := add64 v.size 1 } else v

def popBack : Option (Vector T × Option T) :=
  let size := sub64 v.size 1
  (move size v.elements).bind fun (elem, elements) =>
    (destroy size elements).map fun elements =>
      ({ v with elements := elements, size := size },
        match elem with
        | .live elem => some elem
        | _ => none)

def clear : Option (Vector T) :=
  (forUp destroy 0 v.size v.elements).map fun elements =>
    { v with elements := elements, size := 0 }

/-- The index that `At` uses. -/
def atIndex (index : ℕ) : ℕ := if index > v.size then v.size else index

/-- A turn of the second loop of `Erase`. -/
def eraseTurn (count i : ℕ) (elements : List (Slot T)) : Option (List (Slot T)) :=
  (move (v.atIndex i) elements).bind fun (x, elements) =>
    (construct x (sub64 i count) elements).bind (destroy (v.atIndex i))

def erase (index count : ℕ) : Option (Vector T) :=
  if count = 0 ∨ index ≥ v.size then some v
  else
    let count := if count > index then count - index else count
    let stop := add64 index count
    (forUp (fun i => destroy (v.atIndex i)) index (stop - index) v.elements).bind
      fun elements =>
        (forUp (v.eraseTurn count) stop (v.size - stop) elements).map fun elements =>
          { v with elements := elements, size := sub64 v.size count }

def eraseOne (index : ℕ) : Option (Vector T) :=
  if index ≥ v.size then some v else v.erase index 1

/-- A turn of the loop of `Emplace`. -/
def shiftUp (i : ℕ) (elements : List (Slot T)) : Option (List (Slot T)) :=
  (move (i - 1) elements).bind fun (x, elements) => construct x i elements

def emplace (index : ℕ) (elem : T) : Option (Vector T) :=
  if index ≥ v.size then v.emplaceAt sizeT index elem
  else
    (v.ensureCapacity sizeT (add64 v.size 1)).bind fun v =>
      -- from the last element down to the one at the index
      (forUp (fun k => shiftUp (v.size - k)) 0 (v.size - index) v.elements).bind fun elements =>
        (destroy index elements).bind fun elements =>
          (({ v with elements := elements } : Vector T).constructAt index elem).map fun v =>
            { v with size := add64 v.size 1 }

/-- An operation, with the element that it returns or refers to. -/
def step : VectorOp T → Option (Vector T × Option T)
  | .pushBack elem => (v.pushBack sizeT elem).map (·, some elem)
  | .emplaceAt index elem => (v.emplaceAt sizeT index elem).map (·, some elem)
  | .emplace index elem | .insert index elem => (v.emplace sizeT index elem).map (·, some elem)
  | .eraseOne index => (v.eraseOne index).map (·, none)
  | .erase index count => (v.erase index count).map (·, none)
  | .popBack => v.popBack
  | .clear => v.clear.map (·, none)

end

end Vector

/-! ### The mathematical list -/

/-- A list, with the capacity of the storage for it. -/
structure VectorSpec (T : Type) where
  list : List T
  capacity : ℕ

namespace VectorSpec

variable {T : Type} [Inhabited T]

def emplaceAt (t : VectorSpec T) (index : ℕ) (elem : T) : VectorSpec T where
  list := if index < t.list.length then t.list.set index elem
    else t.list ++ List.replicate (index - t.list.length) default ++ [elem]
  capacity := Vector.newCapacity t.capacity (index + 1)

def emplace (t : VectorSpec T) (index : ℕ) (elem : T) : VectorSpec T :=
  if index < t.list.length then
    ⟨t.list.insertIdx index elem, Vector.newCapacity t.capacity (t.list.length + 1)⟩
  else t.emplaceAt index elem

/-- The list without `min(count, size - index)` elements from the index on. -/
def erase (t : VectorSpec T) (index count : ℕ) : VectorSpec T where
  list := t.list.take index ++ t.list.drop (index + min count (t.list.length - index))
  capacity := t.capacity

/-- The operations on a list.  Nothing may be taken from an empty list, and the arguments are
words. -/
def step (t : VectorSpec T) : VectorOp T → Option (VectorSpec T × Option T)
  | .pushBack elem =>
    some (⟨t.list ++ [elem], Vector.newCapacity t.capacity (t.list.length + 1)⟩, some elem)
  | .emplaceAt index elem =>
    if index < wordSize then some (t.emplaceAt index elem, some elem) else none
  | .emplace index elem | .insert index elem =>
    if index < wordSize then some (t.emplace index elem, some elem) else none
  | .eraseOne index => some (t.erase index 1, none)
  | .erase index count =>
    if count < wordSize then some (t.erase index count, none) else none
  | .popBack =>
    if t.list = [] then none else some ({ t with list := t.list.dropLast }, t.list.getLast?)
  | .clear => some ({ t with list := [] }, none)

/-- There is storage for `needed` elements of `sizeT` bytes. -/
def Fits (sizeT : ℕ) (t : VectorSpec T) (needed : ℕ) : Prop :=
  needed < wordSize ∧ sizeT * Vector.newCapacity t.capacity needed < wordSize

/-- `EmplaceAt` behind the last element, within the storage or when the storage is full. -/
def FitsAt (sizeT : ℕ) (t : VectorSpec T) (index : ℕ) : Prop :=
  t.list.length ≤ index ∧ (index < t.capacity ∨ t.list.length = t.capacity) ∧
    t.Fits sizeT (index + 1)

/-- `Emplace` behind the last element, or right in front of it. -/
def FitsInside (sizeT : ℕ) (t : VectorSpec T) (index : ℕ) : Prop :=
  if index < t.list.length then index + 1 = t.list.length ∧ t.Fits sizeT (t.list.length + 1)
  else t.FitsAt sizeT index

/-- The elements that `Erase` is to erase are inside of the list, and they begin at its start or are
not more than those in front of them; or they are the rest of the list and the count is its size. -/
def Erasable (t : VectorSpec T) (index count : ℕ) : Prop :=
  count = 0 ∨ t.list.length ≤ index ∨ (count ≤ index ∧ index + count ≤ t.list.length) ∨
    (index = 0 ∧ count ≤ t.list.length) ∨ (index < count ∧ count = t.list.length)

/-- **When an operation is right**; arguments that are not words do not occur. -/
def Safe (sizeT : ℕ) (t : VectorSpec T) : VectorOp T → Prop
  | .pushBack _ => t.Fits sizeT (t.list.length + 1)
  | .emplaceAt index _ => index < wordSize → t.FitsAt sizeT index
  | .emplace index _ | .insert index _ => index < wordSize → t.FitsInside sizeT index
  | .erase index count => count < wordSize → t.Erasable index count
  | .eraseOne _ | .popBack | .clear => True

instance (sizeT : ℕ) (t : VectorSpec T) (needed : ℕ) : Decidable (t.Fits sizeT needed) :=
  inferInstanceAs (Decidable (_ ∧ _))

instance (sizeT : ℕ) (t : VectorSpec T) (index : ℕ) : Decidable (t.FitsAt sizeT index) :=
  inferInstanceAs (Decidable (_ ∧ _ ∧ _))

instance (sizeT : ℕ) (t : VectorSpec T) (index : ℕ) : Decidable (t.FitsInside sizeT index) :=
  inferInstanceAs (Decidable (if index < t.list.length then
    index + 1 = t.list.length ∧ t.Fits sizeT (t.list.length + 1) else t.FitsAt sizeT index))

instance (t : VectorSpec T) (index count : ℕ) : Decidable (t.Erasable index count) :=
  inferInstanceAs (Decidable (_ ∨ _ ∨ _ ∨ _ ∨ _))

instance (sizeT : ℕ) (t : VectorSpec T) : (o : VectorOp T) → Decidable (t.Safe sizeT o)
  | .pushBack _ => inferInstanceAs (Decidable (t.Fits sizeT _))
  | .emplaceAt index _ => inferInstanceAs (Decidable (index < wordSize → t.FitsAt sizeT index))
  | .emplace index _ | .insert index _ =>
    inferInstanceAs (Decidable (index < wordSize → t.FitsInside sizeT index))
  | .erase index count => inferInstanceAs (Decidable (count < wordSize → t.Erasable index count))
  | .eraseOne _ | .popBack | .clear => .isTrue trivial

end VectorSpec

end Northport.Containers
