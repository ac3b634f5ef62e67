/-
# The virtual memory manager (`Vmm.cpp`)

The address space between the bounds of a VMM is cut into holes and ranges, kept in two
red-black trees.  An operation returns `none` when an assertion fires, a null pointer is
followed or a loop does not end.  The spans that a failed `Detach` drops are recorded in
the ghost field `dropped`.
-/
import Northport.Lib.Span
import Northport.Lib.Supply
import Northport.Memory.VmDriver
import Northport.Memory.VmHole

namespace Northport.Memory

open Lib Northport.RBTree

/-- How `AllocMeta` chooses the address of an object, from the addresses of those objects of
the same type that are in use. -/
structure MetaAlloc (P : Type) where
  pick : List P → P
  pick_notMem : ∀ inUse, pick inUse ∉ inUse

/-- Numbers as addresses, counted upwards. -/
def MetaAlloc.counting : MetaAlloc ℕ where
  pick inUse := inUse.foldr max 0 + 1
  pick_notMem inUse hmem := by
    have h := le_foldr_max hmem
    omega

structure Vmm (P σ : Type) where
  ranges : LiveTree P VmRange
  holes : LiveTree P VmHole
  rangeMeta : List P
  holeMeta : List P
  globalLowerBound : ℕ
  globalUpperBound : ℕ
  env : VmEnv σ
  dropped : List Span

namespace Vmm

variable {P σ : Type} [DecidableEq P] (m : MetaAlloc P)

/-- `new(AllocMeta(Hole)) VmHole()` with base and length, and its insertion. -/
def insertHole (v : Vmm P σ) (base length largestHole : ℕ) : Option (Vmm P σ) := do
  let p := m.pick v.holeMeta
  let holes ← v.holes.insert VmHoleAggregator VmHoleLess p ⟨base, length, largestHole⟩
  return { v with holes := holes, holeMeta := p :: v.holeMeta }

/-- The insertion of the `VmRange` that was built at `p`. -/
def insertRange (v : Vmm P σ) (p : P) (range : VmRange) : Option (Vmm P σ) := do
  let ranges ← v.ranges.insert (nullAggregate VmRange) VmRangeLess p range
  return { v with ranges := ranges }

/-- `CommonInit`: one hole for the whole address space. -/
def commonInit (lower upper : ℕ) (env : VmEnv σ) (rangeMem : P → VmRange) (holeMem : P → VmHole) :
    Option (Vmm P σ) :=
  let v : Vmm P σ :=
    { ranges := .empty rangeMem, holes := .empty holeMem, rangeMeta := [], holeMeta := [],
      globalLowerBound := lower, globalUpperBound := upper, env := env, dropped := [] }
  v.insertHole m lower (sub64 upper lower) (sub64 upper lower)

def adjustHole (v : Vmm P σ) (target : P) (offset length : ℕ) : Option (Vmm P σ) := do
  if add64 offset length ≤ (v.holes.tree.item target).length then
    let holes ← v.holes.remove VmHoleAggregator target
    let hole := holes.tree.item target
    let v := { v with holes := holes }
    -- the space before the chunk
    let v ← if offset > 0 then v.insertHole m hole.base offset 0 else pure v
    -- the space after the chunk
    let hole := v.holes.tree.item target
    if add64 offset length < hole.length then
      v.insertHole m (add64 (add64 hole.base offset) length)
        (sub64 hole.length (add64 offset length)) 0
    else return v
  else none

/-- The loop of `FindRange`. -/
def findLoop (t : Tree P VmRange) (addr : ℕ) : ℕ → Option P → Option (Option P)
  | _, none => some none
  | 0, some _ => none
  | fuel + 1, some scan =>
      if addr ≥ (t.item scan).base ∧ addr < (t.item scan).top then some (some scan)
      else if addr < (t.item scan).base then findLoop t addr fuel (t.getLeft scan)
      else if addr ≥ (t.item scan).top then findLoop t addr fuel (t.getRight scan)
      else findLoop t addr fuel (some scan)

def findRange (v : Vmm P σ) (addr : ℕ) : Option (Option P) :=
  if addr < v.globalLowerBound ∨ addr ≥ v.globalUpperBound then some none
  else findLoop v.ranges.tree addr v.ranges.live.length v.ranges.tree.getRoot

/-- The left child, when a hole below it is large enough. -/
def leftFits (t : Tree P VmHole) (length : ℕ) (hole : P) : Option P :=
  match t.getLeft hole with
  | some left => if (t.item left).largestHole ≥ length then some left else none
  | none => none

/-- The search of `Alloc` for a hole; `some none` when it gives up. -/
def searchHole (t : Tree P VmHole) (length : ℕ) : ℕ → P → Option (Option P)
  | 0, _ => none
  | fuel + 1, hole =>
      match leftFits t length hole with
      | some left => searchHole t length fuel left
      | none =>
        if (t.item hole).length ≥ length then some (some hole)
        else match t.getRight hole with
          | none => some none
          | some right =>
            if (t.item right).largestHole ≥ length then searchHole t length fuel right
            else some none

/-- The last part of `Alloc`: the hole was taken, the range at `rangeBase` is attached. -/
def attachRange (driver : VmDriver σ) (query : QueryResult) (initArg : ℕ) (flags : VmFlags)
    (rangeBase : ℕ) (v : Vmm P σ) : Option (Vmm P σ × Option ℕ) := do
  let p := m.pick v.rangeMeta
  let range : VmRange := ⟨rangeBase, query.length, flags, 0, 0, 0⟩
  let (attachResult, env) := driver.attach v.env range query initArg
  let v := { v with rangeMeta := p :: v.rangeMeta, env := env }
  if attachResult.success then
    let range := { range with token := attachResult.token, offset := attachResult.offset }
    let v ← v.insertRange p range
    let stats := v.env.stats.countRange flags (add64 · 1)
    let v := { v with env := { v.env with stats := stats } }
    return (v, some (add64 range.base range.offset))
  else
    let v ← v.insertHole m range.base range.length 0
    return ({ v with rangeMeta := v.rangeMeta.erase p }, none)

def alloc (drivers : VmDrivers σ) (v : Vmm P σ) (length initArg : ℕ) (flags : VmFlags)
    (limits : VmAllocLimits) : Option (Vmm P σ × Option ℕ) := do
  if length = 0 then return (v, none)
  match drivers.getDriver flags with
  | none => return (v, none)
  | some driver =>
    let (query, env) := driver.query v.env length flags initArg
    let v := { v with env := env }
    if !query.success then return (v, none)
    if limits.alignment > 1 ∧ query.alignment % limits.alignment ≠ 0 then return (v, none)
    match v.holes.tree.getRoot with
    | none => return (v, none)
    | some root =>
      match ← searchHole v.holes.tree query.length v.holes.live.length root with
      | none => return (v, none)
      | some hole =>
        let rangeBase := (v.holes.tree.item hole).base
        let v ← v.adjustHole m hole 0 query.length
        let v := { v with holeMeta := v.holeMeta.erase hole }
        if rangeBase = 0 then return (v, none)
        v.attachRange m driver query initArg flags rangeBase

def free (drivers : VmDrivers σ) (v : Vmm P σ) (base : ℕ) : Option (Vmm P σ × Bool) := do
  match ← v.findRange base with
  | none => return (v, false)
  | some p =>
    if (v.ranges.tree.item p).mdlCount ≠ 0 then return (v, false)
    let ranges ← v.ranges.remove (nullAggregate VmRange) p
    let range := ranges.tree.item p
    let stats := v.env.stats.countRange range.flags (sub64 · 1)
    let v := { v with ranges := ranges, env := { v.env with stats := stats } }
    match drivers.getDriver range.flags with
    | none => return (v, false)
    | some driver =>
      let (detachSuccess, env) := driver.detach v.env range
      let v := { v with env := env, rangeMeta := v.rangeMeta.erase p }
      if detachSuccess then
        let v ← v.insertHole m range.base range.length 0
        return (v, true)
      else
        return ({ v with dropped := ⟨range.base, range.length⟩ :: v.dropped }, false)

/-- The fields of the range at `p` are overwritten in place. -/
def setRange (v : Vmm P σ) (p : P) (range : VmRange) : Vmm P σ :=
  { v with ranges := { v.ranges with tree := v.ranges.tree.setItem p range } }

def setFlags (drivers : VmDrivers σ) (v : Vmm P σ) (base : ℕ) (flags : VmFlags) :
    Option (Vmm P σ × Bool) := do
  match ← v.findRange base with
  | none => return (v, false)
  | some p =>
    let range := v.ranges.tree.item p
    if flags &&& vmFlagTypeMask ≠ 0 then return (v, false)
    match drivers.getDriver range.flags with
    | none => return (v, false)
    | some driver =>
      let flags := flags &&& ~~~vmFlagTypeMask
      let args : ModifyRangeArgs :=
        { setFlags := flags &&& ~~~range.flags, clearFlags := range.flags &&& ~~~flags }
      let (success, env) := driver.modifyRange v.env range args
      let v := { v with env := env }
      if success then
        let flags := (range.flags &&& vmFlagTypeMask) ||| flags
        return (v.setRange p { range with flags := flags }, true)
      else return (v, false)

def split (drivers : VmDrivers σ) (v : Vmm P σ) (base offset : ℕ) :
    Option (Vmm P σ × Option ℕ) := do
  match ← v.findRange base with
  | none => return (v, none)
  | some p =>
    let range := v.ranges.tree.item p
    if range.mdlCount ≠ 0 then return (v, none)
    let offset := add64 offset (sub64 base (add64 range.base range.offset))
    match drivers.getDriver range.flags with
    | none => return (v, none)
    | some driver =>
      let (result, env) := driver.split v.env range offset
      let v := { v with env := env }
      if !result.success then return (v, none)
      if result.offset = range.length then return (v, some (add64 range.base offset))
      let q := m.pick v.rangeMeta
      let newRange : VmRange :=
        { base := add64 range.base result.offset, length := sub64 range.length result.offset,
          flags := range.flags, offset := 0, token := result.tokenHigh, mdlCount := 0 }
      let range :=
        { range with length := sub64 newRange.base range.base, token := result.tokenLow }
      let stats := v.env.stats.countRange range.flags (add64 · 1)
      let v := { v.setRange p range with
        rangeMeta := q :: v.rangeMeta, env := { v.env with stats := stats } }
      let v ← v.insertRange q newRange
      return (v, some (sub64 result.offset range.offset))

end Vmm

end Northport.Memory
