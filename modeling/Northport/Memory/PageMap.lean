/-
# Page maps

For the VM drivers the HAT is a map from virtual pages to entries, each with the frame of the
page and the flags of the mapping.  These are the operations of `Hat.h` on pages of the smallest
size.
-/
import Northport.Memory.Pmm
import Northport.Memory.VmDriver

namespace Northport.Memory

open Lib

/-- `HatGetLimits().modes[mode].granularity` -/
def granularity (mode : ℕ) : ℕ := [0x1000, 0x200000, 0x40000000].getD mode 0x1000

lemma granularity_pos (mode : ℕ) : 0 < granularity mode := by
  rcases mode with _ | _ | _ | mode <;> simp [granularity]

lemma granularity_lt (mode : ℕ) : granularity mode < wordSize := by
  rcases mode with _ | _ | _ | mode <;> simp [granularity, wordSize]

/-- The mapping of a page. -/
structure Pte where
  frame : ℕ
  flags : HatFlags
deriving DecidableEq, Repr

/-- The entry of each virtual page, if it is mapped. -/
def PageMap := ℕ → Option Pte

namespace PageMap

@[ext] lemma ext {m m' : PageMap} (h : ∀ page, m page = m' page) : m = m' := funext h

/-- The entry of one page is replaced. -/
def set (m : PageMap) (page : ℕ) (pte : Option Pte) : PageMap :=
  fun x => if x = page then pte else m x

/-- No page is mapped. -/
def empty : PageMap := fun _ => none

/-- `HatDoMap` in mode 0; an entry holds no part of a page. -/
def hatDoMap (m : PageMap) (vaddr paddr : ℕ) (flags : HatFlags) : Bool × PageMap :=
  match m (vaddr / PageSize) with
  | some _ => (false, m)
  | none => (true, m.set (vaddr / PageSize) (some ⟨alignDown paddr PageSize, flags⟩))

/-- `HatDoUnmap`; the frame of the page, if it was mapped. -/
def hatDoUnmap (m : PageMap) (vaddr : ℕ) : Option ℕ × PageMap :=
  match m (vaddr / PageSize) with
  | some pte => (some pte.frame, m.set (vaddr / PageSize) none)
  | none => (none, m)

/-- `HatGetMap` -/
def hatGetMap (m : PageMap) (vaddr : ℕ) : Option ℕ :=
  (m (vaddr / PageSize)).map fun pte => pte.frame + vaddr % PageSize

/-- `HatSyncMap`; only what is given is replaced. -/
def hatSyncMap (m : PageMap) (vaddr : ℕ) (paddr : Option ℕ) (flags : Option HatFlags) :
    Bool × PageMap :=
  match m (vaddr / PageSize) with
  | none => (false, m)
  | some pte =>
    let frame := match paddr with
      | some paddr => alignDown paddr PageSize
      | none => pte.frame
    (true, m.set (vaddr / PageSize) (some ⟨frame, flags.getD pte.flags⟩))

end PageMap

end Northport.Memory
