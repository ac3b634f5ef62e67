/-
# The graph of device nodes (`DriverManager.cpp`)

Driver instances, descriptors and device APIs get their ids from one counter, and each of them
points at a node that is there already.  `GetStackFromId` follows the pointers.
-/
import Northport.Lib.Run

namespace Northport.Drivers

open Lib List Option

/-- The type of a node, with its pointer to another one. -/
inductive NodeData where
  | driverInstance (consumedDevice : Option ℕ)
  | descriptor (sourceDriver : ℕ)
  | api (driver : ℕ)

/-- The node that the loop of `GetStackFromId` goes to. -/
def NodeData.next : NodeData → Option ℕ
  | .driverInstance consumedDevice => consumedDevice
  | .descriptor sourceDriver => some sourceDriver
  | .api driver => some driver

structure GraphNode where
  id : ℕ
  data : NodeData

structure NodeGraph where
  /-- All nodes that were made, by address. -/
  nodes : List GraphNode
  /-- The addresses of those that `GetById` looks at. -/
  nodeTree : List ℕ
  idAlloc : ℕ

/-- What the calls do to the graph.  The shadow is the instance whose driver runs. -/
inductive GraphOp where
  /-- `EnsureRunning` makes an instance for the event `Init`; it gets no id. -/
  | initInstance
  | attachDevice (device : ℕ)
  /-- The driver refuses the device. -/
  | removeInstance (address : ℕ)
  | addDescriptor (shadow : Option ℕ)
  | addApi (owner : Option ℕ)

namespace NodeGraph

/-- After `Init`; the instance of the kernel is at address 0. -/
def init : NodeGraph := ⟨[⟨1, .driverInstance none⟩], [0], 2⟩

/-- A new node, which points at one that exists. -/
def insert (g : NodeGraph) (data : NodeData) : Option NodeGraph :=
  if ∀ a ∈ data.next, a < g.nodes.length then
    some ⟨g.nodes ++ [⟨g.idAlloc, data⟩], g.nodeTree ++ [g.nodes.length], g.idAlloc + 1⟩
  else none

def step (g : NodeGraph) : GraphOp → Option NodeGraph
  | .initInstance => some { g with nodes := g.nodes ++ [⟨0, .driverInstance none⟩] }
  | .attachDevice device => g.insert (.driverInstance (some device))
  | .removeInstance address => some { g with nodeTree := g.nodeTree.erase address }
  | .addDescriptor shadow => g.insert (.descriptor (shadow.getD 0))
  | .addApi owner => g.insert (.api (owner.getD 0))

/-- `GetById`; the id 0 is `NPK_INVALID_HANDLE`. -/
def getById (g : NodeGraph) (id : ℕ) : Option ℕ :=
  if id = 0 then none else g.nodeTree.find? fun a => g.nodes[a]?.any (·.id = id)

/-- The loop of `GetStackFromId`, `none` if it takes more than `fuel` turns. -/
def stackLoop (g : NodeGraph) : ℕ → Option ℕ → Option (List ℕ)
  | _, none => some []
  | 0, some _ => none
  | fuel + 1, some a => g.nodes[a]?.bind fun node =>
    (g.stackLoop fuel node.data.next).map (a :: ·)

def getStackFromId (g : NodeGraph) (fuel id : ℕ) : Option (List ℕ) :=
  g.stackLoop fuel (g.getById id)

/-- The pointer of the node leads to a node with a smaller id. -/
def Descends (g : NodeGraph) (node : GraphNode) : Prop :=
  ∀ a ∈ node.data.next, ∃ target, g.nodes[a]? = some target ∧ target.id < node.id

structure Inv (g : NodeGraph) : Prop where
  pos : 0 < g.idAlloc
  lt : ∀ node ∈ g.nodes, node.id < g.idAlloc
  descends : ∀ node ∈ g.nodes, g.Descends node

variable {g g' : NodeGraph}

lemma inv_init : init.Inv := by
  constructor <;> simp [init, Descends, NodeData.next]

/-- A node is added whose pointer leads to a node with a smaller id. -/
lemma Inv.append (h : g.Inv) {new : GraphNode} {n : ℕ} (tree : List ℕ) (hn : g.idAlloc ≤ n)
    (hlt : new.id < n) (hnew : g.Descends new) : Inv ⟨g.nodes ++ [new], tree, n⟩ where
  pos := h.pos.trans_le hn
  lt := by
    refine forall_mem_append.mpr ⟨fun node hnode => (h.lt node hnode).trans_le hn, ?_⟩
    rwa [forall_mem_singleton]
  descends node hnode a ha := by
    have hdesc : ∀ node ∈ g.nodes ++ [new], g.Descends node :=
      forall_mem_append.mpr ⟨h.descends, by rwa [forall_mem_singleton]⟩
    obtain ⟨target, htarget, hless⟩ := hdesc node hnode a ha
    have hlen := (List.getElem?_eq_some_iff.mp htarget).1
    exact ⟨target, (getElem?_append_left hlen).trans htarget, hless⟩

lemma Inv.insert (h : g.Inv) {data : NodeData} (hstep : g.insert data = some g') : g'.Inv := by
  obtain ⟨hdata, hstep⟩ := ite_none_right_eq_some.mp hstep
  cases hstep
  exact h.append _ (Nat.le_succ _) (Nat.lt_succ_self _) fun a ha =>
    ⟨_, getElem?_eq_getElem (hdata a ha), h.lt _ (getElem_mem _)⟩

lemma Inv.step {op : GraphOp} (h : g.Inv) (hstep : g.step op = some g') : g'.Inv := by
  cases op with
  | initInstance =>
    cases hstep
    exact h.append _ le_rfl h.pos nofun
  | removeInstance address =>
    cases hstep
    exact { h with }
  | attachDevice device => exact h.insert hstep
  | addDescriptor shadow => exact h.insert hstep
  | addApi owner => exact h.insert hstep

/-- **The loop ends**, since the id of the node gets smaller in each turn. -/
lemma Inv.stackLoop_ends (h : g.Inv) {fuel a : ℕ} {node : GraphNode}
    (hnode : g.nodes[a]? = some node) (hfuel : node.id < fuel) :
    ∃ stack, g.stackLoop fuel (some a) = some stack := by
  induction fuel generalizing a node with
  | zero => cases hfuel
  | succ fuel ih =>
    rw [stackLoop, hnode, bind_some]
    cases hnext : node.data.next with
    | none => exact ⟨[a], by cases fuel <;> rfl⟩
    | some b =>
      obtain ⟨target, htarget, hlt⟩ := h.descends node (mem_of_getElem? hnode) b hnext
      obtain ⟨stack, hstack⟩ := ih htarget (by omega)
      exact ⟨a :: stack, by rw [hstack]; rfl⟩

lemma Inv.getStackFromId_ends (h : g.Inv) (id : ℕ) :
    ∃ fuel stack, g.getStackFromId fuel id = some stack := by
  unfold getStackFromId
  cases hid : g.getById id with
  | none => exact ⟨0, [], rfl⟩
  | some a =>
    have hfound := find?_some (ite_none_left_eq_some.mp hid).2
    obtain ⟨node, hnode, -⟩ := (any_eq_true _ _).mp hfound
    exact ⟨_, h.stackLoop_ends hnode (Nat.lt_succ_self _)⟩

end NodeGraph

end Northport.Drivers
