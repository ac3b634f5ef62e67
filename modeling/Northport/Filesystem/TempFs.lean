/-
# The file system in memory (`filesystem/TempFs.cpp`)

A tempfs has a table of pointers to its nodes; the position of a node in the table is its
id, and its handle is the id plus one.  The nodes point to their parent and have a vector
of pointers to their children.  The address of a node is its number in the order of
allocation.

The functions return `none` when an assertion fires or a null pointer is followed.  The
handle 0, which becomes `2 ^ 64 - 1` when one is subtracted, fails the assertion that the
id is inside the table.
-/
import Northport.Filesystem.FsDriver
import Northport.Lib.Run

namespace Northport.Filesystem

open Lib Syslib List Option Function

structure TempFsNode where
  parent : Option ℕ
  children : List ℕ
  type : NodeType
  id : ℕ
  name : List UInt8
  size : ℕ
deriving DecidableEq, Repr

/-- The data of a tempfs, with all nodes that were allocated. -/
structure TempFsData where
  heap : List TempFsNode
  nodes : List (Option ℕ)
deriving DecidableEq, Repr

namespace TempFsData

/-- `CreateTempFs`. -/
def init : TempFsData := ⟨[⟨none, [], .directory, 0, [], 0⟩], [some 0]⟩

/-- The address of the node with a handle: the assertions that the functions begin with. -/
def address (d : TempFsData) : ℕ → Option ℕ
  | 0 => none
  | id + 1 => d.nodes[id]?.join

/-- The node with a handle. -/
def node (d : TempFsData) (handle : ℕ) : Option TempFsNode := (d.address handle).bind (d.heap[·]?)

def enterCache (d : TempFsData) (handle : ℕ) : Option NodeType :=
  (d.node handle).map TempFsNode.type

def getRoot : ℕ := 1

/-- The loop of `TempFsCreate` over the table from position `i` on: the child is stored in every
slot that is free, and the last of them is its id. -/
def assignLoop (child : ℕ) : ℕ → List (Option ℕ) → Option ℕ × List (Option ℕ)
  | _, [] => (none, [])
  | i, some a :: rest =>
      ((assignLoop child (i + 1) rest).1, some a :: (assignLoop child (i + 1) rest).2)
  | i, none :: rest =>
      ((assignLoop child (i + 1) rest).1.or (some i), some child :: (assignLoop child (i + 1) rest).2)

/-- The id of the child, and the table with it. -/
def assignId (child : ℕ) (nodes : List (Option ℕ)) : ℕ × List (Option ℕ) :=
  match (assignLoop child 0 nodes).1 with
  | some id => (id, (assignLoop child 0 nodes).2)
  | none => (nodes.length, (assignLoop child 0 nodes).2 ++ [some child])

def create (d : TempFsData) (dir : ℕ) (type : NodeType) (name : NpkString) :
    Option (ℕ × TempFsData) :=
  (d.address dir).bind fun parent =>
    name.map fun name =>
      let child := d.heap.length
      let id := assignId child d.nodes
      (id.1 + 1, {
        heap := (d.heap.modify parent fun node => { node with children := node.children ++ [child] })
          ++ [⟨some parent, [], type, id.1, stringOfSpan name, 0⟩]
        nodes := id.2 })

/-- The loop of `TempFsFindChild`. -/
def findLoop (d : TempFsData) (name : List UInt8) : List ℕ → Option ℕ
  | [] => some npkInvalidHandle
  | a :: rest =>
      match d.heap[a]? with
      | none => none
      | some child => if child.name = name then some (child.id + 1) else d.findLoop name rest

def findChild (d : TempFsData) (dir : ℕ) (name : NpkString) : Option ℕ :=
  match name with
  | none => some npkInvalidHandle
  | some name =>
      if name = [] then some npkInvalidHandle
      else
        (d.node dir).bind fun node =>
          if name = dot then some dir
          else if name = dotDot then
            match node.parent with
            | none => some npkInvalidHandle
            | some parent => d.heap[parent]?.map (·.id + 1)
          else d.findLoop name node.children

def getAttribs (d : TempFsData) (handle : ℕ) : Option NpkFsAttribs :=
  (d.node handle).map fun node => ⟨node.size, node.name⟩

/-- `size` and `name` are the flags that select what is set. -/
def setAttribs (d : TempFsData) (handle : ℕ) (attribs : NpkFsAttribs) (size name : Bool) :
    Option TempFsData :=
  (d.address handle).map fun a =>
    { d with heap := d.heap.modify a fun node => { node with
      size := if size then attribs.size else node.size
      name := if name then stringOfSpan attribs.name else node.name } }

/-- The handles of the children. -/
def readDir (d : TempFsData) (dir : ℕ) : Option (List ℕ) :=
  (d.node dir).bind fun node => node.children.mapM fun a => d.heap[a]?.map (·.id + 1)

end TempFsData

/-! ### The history of a tempfs -/

/-- A call of `TempFsCreate` and the handle that it has returned. -/
structure Creation where
  dir : ℕ
  type : NodeType
  name : List UInt8
  handle : ℕ
deriving DecidableEq, Repr

/-- A tempfs with the calls of `TempFsCreate` that have built it. -/
structure TempFs where
  data : TempFsData
  created : List Creation
deriving DecidableEq, Repr

namespace TempFs

def init : TempFs := ⟨TempFsData.init, []⟩

def create (s : TempFs) (dir : ℕ) (type : NodeType) (name : List UInt8) : Option (ℕ × TempFs) :=
  (s.data.create dir type (some name)).map fun r =>
    (r.1, ⟨r.2, s.created ++ [⟨dir, type, name, r.1⟩]⟩)

/-- The parent, the type and the name for `TempFsCreate`. -/
structure CreateOp where
  dir : ℕ
  type : NodeType
  name : List UInt8
deriving DecidableEq, Repr

def step (s : TempFs) (op : CreateOp) : Option TempFs :=
  (s.create op.dir op.type op.name).map Prod.snd

/-- The handle of a node that exists. -/
def Exists (s : TempFs) (handle : ℕ) : Prop := 0 < handle ∧ handle ≤ s.data.nodes.length

instance (s : TempFs) (handle : ℕ) : Decidable (s.Exists handle) :=
  inferInstanceAs (Decidable (_ ∧ _))

/-- The parent exists. -/
def Valid (s : TempFs) (op : CreateOp) : Prop := s.Exists op.dir

instance (s : TempFs) (op : CreateOp) : Decidable (s.Valid op) :=
  inferInstanceAs (Decidable (s.Exists op.dir))

/-- The creations in a directory, in order. -/
def createdIn (created : List Creation) (dir : ℕ) : List Creation :=
  created.filter fun c => c.dir = dir

/-- The node at the address `i` that the creations should have built. -/
def nodeOf (created : List Creation) : ℕ → TempFsNode
  | 0 => ⟨none, (createdIn created 1).map (·.handle - 1), .directory, 0, [], 0⟩
  | i + 1 =>
      match created[i]? with
      | none => ⟨none, [], .file, 0, [], 0⟩
      | some c => ⟨some (c.dir - 1), (createdIn created (i + 2)).map (·.handle - 1), c.type, i + 1,
          stringOfSpan c.name, 0⟩

/-- **The invariant**: the data are what the creations determine. -/
structure Inv (s : TempFs) : Prop where
  nodes : s.data.nodes = (range (s.created.length + 1)).map some
  heap : s.data.heap = (range (s.created.length + 1)).map (nodeOf s.created)
  created : ∀ i c, s.created[i]? = some c → c.handle = i + 2 ∧ 0 < c.dir ∧ c.dir ≤ i + 1

variable {s s' : TempFs} {handle i : ℕ} {name : List UInt8}

lemma inv_init : Inv init where
  nodes := rfl
  heap := rfl
  created := by simp [init]

lemma Inv.exists_iff (h : Inv s) : s.Exists handle ↔ ∃ i, i ≤ s.created.length ∧ handle = i + 1 := by
  rw [Exists, h.nodes, length_map, length_range]
  constructor
  · rintro ⟨hpos, hle⟩
    exact ⟨handle - 1, by omega, by omega⟩
  · rintro ⟨i, hi, rfl⟩
    omega

section

variable (h : Inv s) (hi : i ≤ s.created.length)

include h hi

lemma Inv.address : s.data.address (i + 1) = some i := by
  rw [TempFsData.address, h.nodes, getElem?_map, getElem?_range (by omega)]
  rfl

lemma Inv.heap_getElem : s.data.heap[i]? = some (nodeOf s.created i) := by
  rw [h.heap, getElem?_map, getElem?_range (by omega)]
  rfl

lemma Inv.node : s.data.node (i + 1) = some (nodeOf s.created i) := by
  rw [TempFsData.node, h.address hi, bind_some, h.heap_getElem hi]

end

lemma children_nodeOf (created : List Creation) (hi : i ≤ created.length) :
    (nodeOf created i).children = (createdIn created (i + 1)).map (·.handle - 1) := by
  cases i with
  | zero => rfl
  | succ i =>
    rw [nodeOf, getElem?_eq_getElem (by omega)]

lemma id_nodeOf (created : List Creation) (hi : i ≤ created.length) :
    (nodeOf created i).id = i := by
  cases i with
  | zero => rfl
  | succ i =>
    rw [nodeOf, getElem?_eq_getElem (by omega)]

/-! ### Creation -/

lemma assignLoop_of_full (child n i : ℕ) (f : ℕ → ℕ) :
    TempFsData.assignLoop child i ((range n).map (some ∘ f)) =
      (none, (range n).map (some ∘ f)) := by
  induction n generalizing i f with
  | zero => rfl
  | succ n ih =>
    rw [range_succ_eq_map, map_cons, List.map_map]
    have hrest := ih (i + 1) (f ∘ Nat.succ)
    rw [← comp_assoc] at hrest
    rw [comp_apply, TempFsData.assignLoop, hrest]

/-- No slot of the table is free, so that the child gets the next one. -/
lemma Inv.assignId (h : Inv s) (child : ℕ) : TempFsData.assignId child s.data.nodes =
    (s.created.length + 1, s.data.nodes ++ [some child]) := by
  have hfull := assignLoop_of_full child (s.created.length + 1) 0 id
  rw [comp_id, ← h.nodes] at hfull
  rw [TempFsData.assignId, hfull]
  rw [h.nodes, length_map, length_range]

/-- The node that a creation adds to the children of a directory. -/
lemma createdIn_append (created : List Creation) (c : Creation) (dir : ℕ) :
    createdIn (created ++ [c]) dir = createdIn created dir ++ if c.dir = dir then [c] else [] := by
  rw [createdIn, createdIn]
  split_ifs with hc <;> simp [hc]

/-- A later creation changes the children of its directory. -/
lemma nodeOf_append (created : List Creation) (c : Creation) (hi : i ≤ created.length) :
    nodeOf (created ++ [c]) i =
      if c.dir = i + 1 then
        { nodeOf created i with children := (nodeOf created i).children ++ [c.handle - 1] }
      else nodeOf created i := by
  cases i with
  | zero =>
    rw [nodeOf, nodeOf, createdIn_append]
    split_ifs <;> simp
  | succ i =>
    rw [nodeOf, nodeOf, getElem?_append_left (by omega), getElem?_eq_getElem (by omega),
      createdIn_append]
    split_ifs <;> simp

section

variable (h : Inv s) {dir : ℕ} {c : Creation}
include h

/-- A new node has no children: its handle is that of no directory yet. -/
lemma Inv.createdIn_new (hlt : s.created.length + 1 < handle) :
    createdIn s.created handle = [] := by
  refine filter_eq_nil_iff.mpr fun c hc => ?_
  obtain ⟨i, hi, hget⟩ := getElem_of_mem hc
  have := (h.created i c (by rw [getElem?_eq_getElem hi, hget])).2.2
  simp
  omega

/-- **`TempFsCreate`** returns the next handle. -/
lemma Inv.create (type : NodeType) (name : List UInt8) (hdir : s.Exists dir) :
    ∃ s', s.create dir type name = some (s.created.length + 2, s') ∧ Inv s' ∧
      s'.created = s.created ++ [⟨dir, type, name, s.created.length + 2⟩] := by
  obtain ⟨p, hp, rfl⟩ := h.exists_iff.mp hdir
  have hheap : s.data.heap.length = s.created.length + 1 := by
    rw [h.heap, length_map, length_range]
  rw [create, TempFsData.create, h.address hp, bind_some, map_some,
    map_some]
  dsimp only
  rw [hheap, h.assignId]
  refine ⟨_, rfl, ⟨?_, ?_, ?_⟩, rfl⟩
  · simp only [length_append, length_singleton]
    rw [h.nodes, range_succ (n := s.created.length + 1), map_append]
    rfl
  · simp only [length_append, length_singleton]
    rw [range_succ, map_append]
    congr 1
    · refine ext_getElem? fun i => ?_
      rw [getElem?_modify, h.heap, getElem?_map, getElem?_map]
      by_cases hi : i < s.created.length + 1
      · rw [getElem?_range hi]
        simp only [map_some, nodeOf_append s.created _ (Nat.lt_succ_iff.mp hi),
          add_left_inj, Option.map_eq_map]
        split_ifs <;> rfl
      · rw [getElem?_eq_none (by simpa using hi)]
        rfl
    · rw [map_singleton, nodeOf, getElem?_concat_length]
      have hnew := h.createdIn_new (show s.created.length + 1 < s.created.length + 2 by omega)
      rw [createdIn_append, hnew]
      simp
      omega
  · intro i c hc
    rcases Nat.lt_or_ge i s.created.length with hi | hi
    · rw [getElem?_append_left hi] at hc
      exact h.created i c hc
    · rw [getElem?_append_right hi] at hc
      rw [getElem?_singleton] at hc
      split_ifs at hc with hzero
      cases hc
      exact ⟨by dsimp only; omega, Nat.succ_pos p, by dsimp only; omega⟩

lemma Inv.step {op : CreateOp} (hop : s.Valid op) : ∃ s', s.step op = some s' ∧ Inv s' := by
  obtain ⟨s', heq, hinv, -⟩ := h.create op.type op.name hop
  exact ⟨s', by rw [TempFs.step, heq]; rfl, hinv⟩

/-! ### Reading -/

lemma Inv.mem_createdIn (hc : c ∈ createdIn s.created dir) :
    ∃ i, s.created[i]? = some c ∧ c.handle = i + 2 ∧ c.dir = dir := by
  obtain ⟨hmem, hdir⟩ := mem_filter.mp hc
  obtain ⟨i, hget⟩ := mem_iff_getElem?.mp hmem
  exact ⟨i, hget, (h.created i c hget).1, by simpa using hdir⟩

/-- The node that a creation has made. -/
lemma Inv.heap_of_created (hc : s.created[i]? = some c) :
    s.data.heap[c.handle - 1]? = some (nodeOf s.created (i + 1)) ∧
      (nodeOf s.created (i + 1)).name = stringOfSpan c.name ∧
      (nodeOf s.created (i + 1)).id + 1 = c.handle ∧
      (nodeOf s.created (i + 1)).parent = some (c.dir - 1) := by
  have hlt : i < s.created.length := (List.getElem?_eq_some_iff.mp hc).1
  have hhandle := (h.created i c hc).1
  rw [hhandle, show i + 2 - 1 = i + 1 from rfl, h.heap_getElem (by omega), nodeOf, hc]
  exact ⟨rfl, rfl, rfl, rfl⟩

lemma Inv.heap_of_mem (d : ℕ) (c : Creation) (hc : c ∈ createdIn s.created d) : ∃ node,
    s.data.heap[c.handle - 1]? = some node ∧ node.name = stringOfSpan c.name ∧
      node.id + 1 = c.handle := by
  obtain ⟨i, hget, -⟩ := h.mem_createdIn hc
  obtain ⟨hheap, hname, hid, -⟩ := h.heap_of_created hget
  exact ⟨_, hheap, hname, hid⟩

/-- **`TempFsReadDir`** lists what was created in the directory. -/
lemma Inv.readDir (hdir : s.Exists handle) :
    s.data.readDir handle = some ((createdIn s.created handle).map Creation.handle) := by
  obtain ⟨p, hp, rfl⟩ := h.exists_iff.mp hdir
  rw [TempFsData.readDir, h.node hp, bind_some, children_nodeOf s.created hp, mapM_map]
  have hall := h.heap_of_mem (p + 1)
  generalize createdIn s.created (p + 1) = l at hall ⊢
  induction l with
  | nil => rfl
  | cons c l ih =>
    obtain ⟨node, hheap, -, hid⟩ := hall c mem_cons_self
    rw [mapM_cons, comp_apply, hheap, ih fun c hc => hall c (mem_cons_of_mem _ hc)]
    simp [hid]

/-- The handle of the first of some creations with a name, as it is stored. -/
def firstNamed (name : List UInt8) (l : List Creation) : ℕ :=
  match l.find? fun c => stringOfSpan c.name = name with
  | none => npkInvalidHandle
  | some c => c.handle

/-- **`TempFsFindChild`** returns the first creation in the directory with the name. -/
lemma Inv.findChild (hdir : s.Exists handle) (hname : name ≠ []) (hdot : name ≠ dot)
    (hdotDot : name ≠ dotDot) : s.data.findChild handle (some name) =
      some (firstNamed name (createdIn s.created handle)) := by
  obtain ⟨p, hp, rfl⟩ := h.exists_iff.mp hdir
  rw [TempFsData.findChild, if_neg hname, h.node hp, bind_some, if_neg hdot, if_neg hdotDot,
    children_nodeOf s.created hp]
  have hall := h.heap_of_mem (p + 1)
  generalize createdIn s.created (p + 1) = l at hall ⊢
  induction l with
  | nil => rfl
  | cons c l ih =>
    obtain ⟨node, hheap, hstored, hid⟩ := hall c mem_cons_self
    rw [map_cons, TempFsData.findLoop, hheap, firstNamed]
    dsimp only
    rw [hstored, hid]
    by_cases hc : stringOfSpan c.name = name
    · simp [hc]
    · rw [if_neg hc, ih fun c hc => hall c (mem_cons_of_mem _ hc), firstNamed]
      simp [hc]

/-! ### The tree of a tempfs -/

/-- The parent pointer of the node `i` names the node `j`. -/
def ParentOf (s : TempFs) (i j : ℕ) : Prop :=
  ∃ node, s.data.node (i + 1) = some node ∧ node.parent.isSome ∧
    node.parent = s.data.address (j + 1)

/-- How often the node `i` is among the children of the node `j`. -/
def childCount (s : TempFs) (j i : ℕ) : ℕ :=
  match s.data.node (j + 1), s.data.address (i + 1) with
  | some node, some a => node.children.count a
  | _, _ => 0

/-- **What the calls of `TempFsCreate` have built.** -/
structure Faithful (s : TempFs) : Prop where
  ids : ∀ i < s.data.nodes.length, ∃ node, s.data.node (i + 1) = some node ∧ node.id = i
  root : ∃ node, s.data.node 1 = some node ∧ node.parent = none
  child : ∀ i, 0 < i → i < s.data.nodes.length → ∃ j < s.data.nodes.length, s.ParentOf i j ∧
    ∀ k, s.childCount k i = if k = j then 1 else 0
  tree : ∀ i < s.data.nodes.length, Relation.ReflTransGen s.ParentOf i 0
  readDir : ∀ dir, s.Exists dir →
    s.data.readDir dir = some ((createdIn s.created dir).map Creation.handle)
  findChild : ∀ dir, s.Exists dir → ∀ name, name ≠ dot → name ≠ dotDot →
    s.data.findChild dir (some name) = some (if name = [] then npkInvalidHandle
      else firstNamed name (createdIn s.created dir))

lemma Inv.length : s.data.nodes.length = s.created.length + 1 := by
  rw [h.nodes, length_map, length_range]

lemma Inv.parentOf (hc : s.created[i]? = some c) : s.ParentOf (i + 1) (c.dir - 1) := by
  have hlt : i < s.created.length := (List.getElem?_eq_some_iff.mp hc).1
  obtain ⟨-, hpos, hle⟩ := h.created i c hc
  obtain ⟨-, -, -, hparent⟩ := h.heap_of_created hc
  refine ⟨_, h.node (by omega), by simp [hparent], ?_⟩
  rw [hparent, h.address (by omega)]

/-- Each handle was returned once. -/
lemma Inv.count_children (hc : s.created[i]? = some c) (k : ℕ) :
    ((createdIn s.created (k + 1)).map (·.handle - 1)).count (i + 1) =
      if k = c.dir - 1 then 1 else 0 := by
  have hnd : (s.created.map (·.handle - 1)).Nodup := by
    rw [nodup_iff_injective_getElem]
    intro m n hmn
    simp only [getElem_map] at hmn
    have hm : m.1 < s.created.length := by simpa using m.2
    have hn : n.1 < s.created.length := by simpa using n.2
    have := (h.created m.1 _ (getElem?_eq_getElem hm)).1
    have := (h.created n.1 _ (getElem?_eq_getElem hn)).1
    exact Fin.ext (by omega)
  obtain ⟨hhandle, hpos, -⟩ := h.created i c hc
  split_ifs with hk
  · refine count_eq_one_of_mem (hnd.sublist (filter_sublist.map _)) ?_
    refine mem_map.mpr ⟨c, mem_filter.mpr ⟨mem_of_getElem? hc, by simp; omega⟩, by omega⟩
  · refine count_eq_zero.mpr fun hin => ?_
    obtain ⟨b, hb, hbi⟩ := mem_map.mp hin
    obtain ⟨j, hj, hbj, hdir⟩ := h.mem_createdIn hb
    obtain rfl : j = i := by omega
    cases hc.symm.trans hj
    omega

lemma Inv.faithful : Faithful s where
  ids := by
    intro i hi
    rw [h.length] at hi
    exact ⟨_, h.node (by omega), id_nodeOf s.created (by omega)⟩
  root := ⟨_, h.node zero_le, rfl⟩
  child := by
    intro i hpos hi
    rw [h.length] at hi ⊢
    obtain ⟨i, rfl⟩ : ∃ j, i = j + 1 := ⟨i - 1, by omega⟩
    have hc : s.created[i]? = some s.created[i] := getElem?_eq_getElem (by omega)
    obtain ⟨-, hdir, hle⟩ := h.created i _ hc
    refine ⟨s.created[i].dir - 1, by omega, h.parentOf hc, fun k => ?_⟩
    rw [childCount, h.address (by omega)]
    by_cases hk : k ≤ s.created.length
    · rw [h.node hk, ← h.count_children hc, ← children_nodeOf s.created hk]
    · have hnone : s.data.node (k + 1) = none := by
        rw [TempFsData.node, TempFsData.address, h.nodes, getElem?_eq_none (by simp; omega)]
        rfl
      rw [hnone, if_neg (by omega)]
  tree := by
    intro i
    induction i using Nat.strong_induction_on with
    | _ i ih =>
      intro hi
      rw [h.length] at hi
      cases i with
      | zero => exact .refl
      | succ i =>
        have hc : s.created[i]? = some s.created[i] := getElem?_eq_getElem (by omega)
        obtain ⟨-, hdir, hle⟩ := h.created i _ hc
        exact .head (h.parentOf hc) (ih _ (by omega) (by rw [h.length]; omega))
  readDir := fun _ hdir => h.readDir hdir
  findChild := by
    intro dir hdir name hdot hdotDot
    split_ifs with hname
    · rw [hname]
      rfl
    · exact h.findChild hdir hname hdot hdotDot

end

/-- **Every sequence of calls of `TempFsCreate`**: names are compared as they are stored, and the
empty name is not found. -/
theorem create_faithful (ops : List CreateOp) (hops : Allowed step Valid init ops) :
    ∃ s, run step init ops = some s ∧ Faithful s := by
  obtain ⟨s, hrun, hinv⟩ := run_invariant Inv (fun s op h hop => h.step hop) inv_init hops
  exact ⟨s, hrun, hinv.faithful⟩

theorem create_faithful_nested :
    Allowed step Valid init [⟨1, .directory, [97]⟩, ⟨2, .file, [97]⟩, ⟨1, .file, [97]⟩] ∧
    ∃ s, run step init [⟨1, .directory, [97]⟩, ⟨2, .file, [97]⟩, ⟨1, .file, [97]⟩] = some s ∧
      Faithful s :=
  ⟨by decide, create_faithful _ (by decide)⟩

/-- A child that was created with the empty name, or with one that ends in a NUL, is not found by
this name. -/
theorem created_name_not_found :
    (∃ s, run step init [⟨1, .file, []⟩] = some s ∧ s.data.readDir 1 = some [2] ∧
      s.data.findChild 1 (some []) = some npkInvalidHandle) ∧
    ∃ s, run step init [⟨1, .file, [97, 0]⟩] = some s ∧ s.data.readDir 1 = some [2] ∧
      s.data.findChild 1 (some [97, 0]) = some npkInvalidHandle := by
  constructor <;> exact ⟨_, rfl, by decide, by decide⟩

end TempFs

end Northport.Filesystem
