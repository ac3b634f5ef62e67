/-
# Faults and foreign copies (`Vmm.cpp`)

`HandleFault` finds the range of the faulting address, checks the access against the flags of
the range and asks its driver.  `CopyIn` writes into another address space, through the direct
map and not through the page tables: what a mapping permits does not matter to it.
-/
import Northport.Memory.AnonVmDriver
import Northport.Memory.Vmm

namespace Northport.Memory

open Lib

structure VmFaultFlags where
  read : Bool := false
  write : Bool := false
  execute : Bool := false
  user : Bool := false
deriving DecidableEq, Repr

/-- `HandleFault` of the driver for ranges with some flags. -/
def FaultHandlers (σ : Type) := VmFlags → Option (VmEnv σ → VmRange → ℕ → Option (Bool × VmEnv σ))

namespace Vmm

variable {P σ : Type} [DecidableEq P]

/-- The flags of a range permit the access. -/
def accessOk (flags : VmFaultFlags) (range : VmFlags) : Bool :=
  !(flags.write && !range.has .write) && !(flags.execute && !range.has .execute) &&
    !(flags.user && !range.has .user)

/-- `stats.faults++` -/
def countFault (v : Vmm P σ) : Vmm P σ :=
  { v with env := { v.env with
      stats := { v.env.stats with faults := add64 v.env.stats.faults 1 } } }

def handleFault (handlers : FaultHandlers σ) (v : Vmm P σ) (addr : ℕ) (flags : VmFaultFlags) :
    Option (Vmm P σ × Bool) := do
  if addr < v.globalLowerBound ∨ addr ≥ v.globalUpperBound then return (v, false)
  let v := v.countFault
  match ← v.findRange addr with
  | none => return (v, false)
  | some p =>
    let range := v.ranges.tree.item p
    if !accessOk flags range.flags then return (v, false)
    match handlers range.flags with
    | none => return (v, false)
    | some handler =>
      let (goodFault, env) ← handler v.env range addr
      return ({ v with env := env }, goodFault)

def memoryExists (v : Vmm P σ) (base length : ℕ) (flags : Option VmFlags) : Option Bool := do
  match ← v.findRange base with
  | none => return false
  | some p =>
    let range := v.ranges.tree.item p
    if range.top < add64 base length then return false
    match flags with
    | some flags => return flags &&& range.flags = flags
    | none => return true

/-! ### Copies -/

variable {τ : Type}

/-- The physical address behind a foreign one, after a fault if need be; `some (v, none)` when the
fault is refused.  The result of the second lookup is used without a check. -/
def foreignPhys (handlers : FaultHandlers (AnonState τ)) (v : Vmm P (AnonState τ)) (vaddr : ℕ) :
    Option (Vmm P (AnonState τ) × Option ℕ) :=
  match v.env.map.map.hatGetMap vaddr with
  | some phys => some (v, some phys)
  | none =>
    (v.handleFault handlers vaddr { write := true }).bind fun (v, good) =>
      if good then (v.env.map.map.hatGetMap vaddr).map fun phys => (v, some phys)
      else some (v, none)

/-- `memcopy` to a physical address. -/
def writePhys (v : Vmm P (AnonState τ)) (phys : ℕ) (bytes : List (BitVec 8)) :
    Vmm P (AnonState τ) :=
  { v with env := { v.env with map := { v.env.map with mem := v.env.map.mem.writeList phys bytes } } }

/-- The loop of `CopyIn`; `bytes` is what is left of the local buffer. -/
def copyLoop (handlers : FaultHandlers (AnonState τ)) (foreignBase : ℕ) :
    ℕ → Vmm P (AnonState τ) → ℕ → List (BitVec 8) → Option (Vmm P (AnonState τ) × ℕ)
  | 0, v, count, bytes => if bytes = [] then some (v, count) else none
  | fuel + 1, v, count, bytes =>
    if bytes = [] then some (v, count)
    else
      (v.foreignPhys handlers (add64 foreignBase count)).bind fun
        | (v, none) => some (v, count)
        | (v, some phys) =>
          let copyLength := min PageSize bytes.length
          -- the first copy can be misaligned
          let copyLength := if count = 0 then min copyLength (PageSize - foreignBase % PageSize)
            else copyLength
          copyLoop handlers foreignBase fuel (v.writePhys phys (bytes.take copyLength))
            (count + copyLength) (bytes.drop copyLength)

/-- `CopyIn`; every turn of its loop copies at least one byte. -/
def copyIn (handlers : FaultHandlers (AnonState τ)) (v : Vmm P (AnonState τ)) (foreignBase : ℕ)
    (bytes : List (BitVec 8)) : Option (Vmm P (AnonState τ) × ℕ) := do
  if ← v.memoryExists foreignBase bytes.length none then
    copyLoop handlers foreignBase bytes.length v 0 bytes
  else return (v, 0)

/-- The loop of `CopyOut` from the memory `mem` to the local memory; it does not change `count`. -/
def copyOutLoop (map : PageMap) (mem : ByteMem) (foreignBase length : ℕ) :
    ℕ → ByteMem → ℕ → ℕ → Option (ByteMem × ℕ)
  | 0, _, _, _ => none
  | fuel + 1, local', localPtr, count =>
    if count < length then
      match map.hatGetMap (add64 foreignBase count) with
      | none => some (local', count)
      | some phys =>
        let copyLength := min PageSize (length - count)
        let copyLength := if count = 0 then sub64 (alignUp foreignBase PageSize) foreignBase
          else copyLength
        copyOutLoop map mem foreignBase length fuel
          (local'.writeList localPtr ((List.range copyLength).map fun i => mem (phys + i)))
          (add64 localPtr copyLength) count
    else some (local', count)

def copyOut (map : PageMap) (mem : ByteMem) (foreignBase length fuel : ℕ) (local' : ByteMem)
    (localBase : ℕ) : Option (ByteMem × ℕ) :=
  copyOutLoop map mem foreignBase length fuel local' localBase 0

end Vmm

/-- The fault handler of the anonymous driver, as the VMM finds it. -/
def AnonVmDriver.faultHandlers {τ : Type} (d : AnonVmDriver τ) : FaultHandlers (AnonState τ) :=
  fun flags => if flags.has .anon then some d.handleFault else none

end Northport.Memory
