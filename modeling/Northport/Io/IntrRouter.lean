/-
# The interrupt router (`io/IntrRouter.cpp`)

Each core has a red-black tree of the routes that are bound to one of its vectors.  The
trees are intrusive: their hooks are in the routes, which belong to the callers, and a
route may go from the tree of one core to that of another.  All trees therefore share one
memory, and what a core has of its own is the root of its tree.

A route is a pointer of type `P`, a null pointer is `none`.  The functions return `none`
when they follow a null pointer or a walk through a tree does not end; the bound on the
length of a walk is the number of vectors.
-/
import Northport.Containers.RBTreeLocal
import Northport.Drivers.ElfReloc
import Northport.Lib.TreeSearch

namespace Northport.Io

open Lib Northport.RBTree Drivers

/-! ### Constants of the platforms -/

def intVectorAllocBase : Arch → ℕ
  | .x86_64 => 0x30
  | .riscv64 => 1
  | .m68k => 0x40

def intVectorAllocLimit : Arch → ℕ
  | .x86_64 => 0xFD
  | .riscv64 => 2048
  | .m68k => 0xFF

/-- `-1ul`. -/
def noVector (arch : Arch) : ℕ := arch.wordSize - 1

def noCoreAffinity (arch : Arch) : ℕ := arch.wordSize - 1

/-! ### Routes and routings -/

/-- A route without its hook. -/
structure InterruptRoute where
  core : ℕ
  vector : ℕ
  callbackArg : ℕ
  callback : Option ℕ
  dpc : Option ℕ
deriving DecidableEq, Repr

def intrTreeLess (a b : InterruptRoute) : Bool := a.vector < b.vector

structure CoreIntrRouting (P : Type) where
  coreId : ℕ
  root : Option P
deriving DecidableEq, Repr

/-- The router, with the memory of all routes. -/
structure InterruptRouter (P : Type) where
  routings : List (CoreIntrRouting P)
  /-- `CoreLocal()[LocalPtr::IntrRouting]` of each core, as a position in `routings`. -/
  coreLocal : ℕ → Option ℕ
  routes : Tree P InterruptRoute

namespace InterruptRouter

variable {P : Type}

/-- No core has called `InitCore`, and no route is in a tree. -/
def init (item : P → InterruptRoute) : InterruptRouter P := ⟨[], fun _ => none, Tree.empty item⟩

/-- The tree of a routing. -/
def tree (s : InterruptRouter P) (i : ℕ) : Tree P InterruptRoute :=
  s.routes.setRoot (s.routings[i]?.bind CoreIntrRouting.root)

/-- The tree of a routing after an operation on it. -/
def setTree (s : InterruptRouter P) (i : ℕ) (t : Tree P InterruptRoute) : InterruptRouter P :=
  { s with
    routings := s.routings.modify i fun routing => { routing with root := t.getRoot }
    routes := t }

/-- `self` is the core that the call is made on. -/
def getRouting (s : InterruptRouter P) (self core : ℕ) : Option ℕ :=
  if core = self then s.coreLocal self
  else s.routings.findIdx? fun scan => scan.coreId = core

def findRoute (arch : Arch) (s : InterruptRouter P) (self core vector : ℕ) : Option (Option P) :=
  match s.getRouting self core with
  | none => some none
  | some i =>
      (s.tree i).links.search (fun scan =>
        if (s.routes.item scan).vector = vector then .eq
        else if vector < (s.routes.item scan).vector then .lt
        else .gt) (intVectorAllocLimit arch) (s.tree i).getRoot

def initCore (s : InterruptRouter P) (self : ℕ) : InterruptRouter P :=
  { s with
    routings := s.routings ++ [⟨self, none⟩]
    coreLocal := Function.update s.coreLocal self (some s.routings.length) }

/-- The route that `Dispatch` has found, the callback that it has called with its argument,
and the deferred call that it has queued. -/
structure Dispatched (P : Type) where
  route : Option P
  called : Option (ℕ × ℕ)
  queued : Option ℕ
deriving DecidableEq, Repr

/-- `answer` is what the callbacks return. -/
def dispatch (arch : Arch) (s : InterruptRouter P) (self vector : ℕ) (answer : ℕ → ℕ → Bool) :
    Option (Dispatched P) :=
  match s.getRouting self self with
  | none => none
  | some _ =>
      (s.findRoute arch self self vector).map fun
        | none => ⟨none, none, none⟩
        | some route =>
            let r := s.routes.item route
            ⟨some route, r.callback.map (·, r.callbackArg),
              if r.callback.all (answer · r.callbackArg) then r.dpc else none⟩

variable [DecidableEq P]

def setRoute (s : InterruptRouter P) (route : P) (core vector : ℕ) : InterruptRouter P :=
  { s with routes :=
      s.routes.setItem route { s.routes.item route with core := core, vector := vector } }

/-- The route gets the vector, and is inserted into the tree. -/
def insertRoute (arch : Arch) (s : InterruptRouter P) (i : ℕ) (route : P) (vector : ℕ) :
    Option (InterruptRouter P) :=
  let s := s.setRoute route (s.routes.item route).core vector
  (Tree.insert (nullAggregate _) intrTreeLess (intVectorAllocLimit arch) (s.tree i) route).map
    (s.setTree i)

/-- The loop of `AddRoute` over the vectors; `n` of them are left. -/
def allocLoop (arch : Arch) (s : InterruptRouter P) (self : ℕ) (i coreId : ℕ) (route : P) :
    ℕ → ℕ → Option (InterruptRouter P)
  | 0, _ => some s
  | n + 1, vector =>
      (s.findRoute arch self coreId vector).bind fun
        | some _ => allocLoop arch s self i coreId route n (vector + 1)
        | none => s.insertRoute arch i route vector

def addRoute (arch : Arch) (s : InterruptRouter P) (self : ℕ) (route : Option P) (core : ℕ) :
    Option (Bool × InterruptRouter P) :=
  match route with
  | none => some (false, s)
  | some route =>
      let core := if core = noCoreAffinity arch then self else core
      let s := s.setRoute route core (noVector arch)
      match s.getRouting self core with
      | none => some (false, s)
      | some i =>
          -- the loop asks for the core that the routing belongs to
          let coreId := (s.routings[i]?.map CoreIntrRouting.coreId).getD core
          (s.allocLoop arch self i coreId route (intVectorAllocLimit arch - intVectorAllocBase arch)
            (intVectorAllocBase arch)).map fun s =>
              ((s.routes.item route).vector ≠ noVector arch, s)

def removeRoute (arch : Arch) (s : InterruptRouter P) (self : ℕ) (route : Option P) :
    Option (Bool × InterruptRouter P) :=
  match route with
  | none => some (false, s)
  | some route =>
      match s.getRouting self (s.routes.item route).core with
      | none => some (false, s)
      | some i =>
          (Tree.remove (nullAggregate _) (intVectorAllocLimit arch) (s.tree i) route).map fun t =>
            (true, (s.setTree i t).setRoute route (noCoreAffinity arch) (noVector arch))

/-- `routePinInterrupt` is the answer of the interrupt controller. -/
def claimRoute (arch : Arch) (s : InterruptRouter P) (self : ℕ) (route : P) (core gsi : ℕ)
    (routePinInterrupt : ℕ → ℕ → ℕ → Bool) : Option (Bool × InterruptRouter P) :=
  (s.addRoute arch self (some route) core).bind fun r =>
    if !r.1 then some (false, r.2)
    else if !routePinInterrupt (r.2.routes.item route).core (r.2.routes.item route).vector gsi then
      (r.2.removeRoute arch self (some route)).map fun r => (false, r.2)
    else some (true, r.2)

end InterruptRouter

/-! ### Runs -/

/-- A call, with the core that it is made on. -/
inductive RouterOp (P : Type) where
  | initCore (self : ℕ)
  | addRoute (self : ℕ) (route : P) (core : ℕ)
  | claimRoute (self : ℕ) (route : P) (core gsi : ℕ) (routePinInterrupt : ℕ → ℕ → ℕ → Bool)
  | removeRoute (self : ℕ) (route : P)

/-- The router and, as its callers know it from the results of their calls, which routes are
routed. -/
structure RouterState (P : Type) where
  router : InterruptRouter P
  routed : List P

namespace RouterState

variable {P : Type} [DecidableEq P]

/-- What a call that adds a route tells its caller. -/
def added (s : RouterState P) (route : P) (r : Bool × InterruptRouter P) : RouterState P :=
  ⟨r.2, if r.1 then route :: s.routed else s.routed⟩

def step (arch : Arch) (s : RouterState P) : RouterOp P → Option (RouterState P)
  | .initCore self => some { s with router := s.router.initCore self }
  | .addRoute self route core =>
      (s.router.addRoute arch self (some route) core).map (s.added route)
  | .claimRoute self route core gsi routePinInterrupt =>
      (s.router.claimRoute arch self route core gsi routePinInterrupt).map (s.added route)
  | .removeRoute self route =>
      (s.router.removeRoute arch self (some route)).map fun r =>
        ⟨r.2, if r.1 then s.routed.erase route else s.routed⟩

/-- The core has called `InitCore`. -/
def Ran (s : RouterState P) (core : ℕ) : Prop := (s.router.coreLocal core).isSome

instance (s : RouterState P) (core : ℕ) : Decidable (s.Ran core) := by
  unfold Ran
  infer_instance

/-- A route may be added to the core. -/
def MayAdd (arch : Arch) (s : RouterState P) (self : ℕ) (route : P) (core : ℕ) : Prop :=
  s.Ran self ∧ (core = noCoreAffinity arch ∨ s.Ran core) ∧ route ∉ s.routed

/-- Every core calls `InitCore` once and before anything else; a route is added only while it
is not routed and removed only while it is. -/
def Valid (arch : Arch) (s : RouterState P) : RouterOp P → Prop
  | .initCore self => ¬ s.Ran self
  | .addRoute self route core => s.MayAdd arch self route core
  | .claimRoute self route core _ _ => s.MayAdd arch self route core
  | .removeRoute self route => s.Ran self ∧ route ∈ s.routed

instance (arch : Arch) (s : RouterState P) (op : RouterOp P) : Decidable (s.Valid arch op) := by
  cases op <;> unfold Valid <;> try unfold MayAdd
  all_goals infer_instance

def init (item : P → InterruptRoute) : RouterState P := ⟨InterruptRouter.init item, []⟩

end RouterState

end Northport.Io
