/-
# The virtual file system (`filesystem/Filesystem.cpp`)

A node of the VFS is found through the cache of nodes; what it contains is known to the
driver of its file system only.  `FsDrivers` are the answers of the drivers, which do not
change during a call but for a new node that `create` adds.

The functions return the cache as it is after the call, when the handles that the function
has taken are released.  They return `none` when an assertion fires or a null pointer is
followed; `VfsGetPath` also when it has not ended after `fuel` steps.
-/
import Northport.Filesystem.TreeCache
import Northport.Syslib.Url

namespace Northport.Filesystem

open Lib Syslib

/-- The answers of the drivers: the type of their interface and the results of its functions,
which get the node and its data. -/
structure FsDrivers extends CacheDrivers where
  isFilesystem : ℕ → Bool
  getRoot : ℕ → ℕ
  mount : ℕ → Bool
  findChild : ℕ → ℕ → ℕ → NpkString → Option ℕ
  getAttribs : ℕ → ℕ → ℕ → Option (Option NpkFsAttribs)
  readDir : ℕ → ℕ → ℕ → Option (Option (List VfsId))

/-- Drivers with a state, which `create` may change. -/
structure FsWorld (W : Type) where
  drivers : W → FsDrivers
  create : W → ℕ → ℕ → ℕ → NodeType → NpkString → Option (ℕ × W)

structure VfsMountInfo where
  occludedDir : VfsId
  driverId : ℕ
  opts : MountOptions
deriving DecidableEq, Repr

structure NodeAttribs where
  type : NodeType
  size : ℕ
  name : List UInt8
deriving DecidableEq, Repr

/-- The loops at the beginning of `VfsCreate` and `VfsFindChild`. -/
def trimName (name : List UInt8) : List UInt8 := name.rdropWhile (· = 0)

/-- The directory that the root of a file system hides, from the list of mountpoints. -/
def occludedId (mountpoints : List VfsMountInfo) (driverId : ℕ) : Option VfsId :=
  match mountpoints.find? fun info => info.driverId = driverId with
  | none => none
  | some info => if info.occludedDir.driverId ≠ 0 then some info.occludedDir else none

namespace FsDrivers

variable (drivers : FsDrivers) (mountpoints : List VfsMountInfo) (t : TreeCache)

/-! ### Children and attributes -/

/-- The end of `VfsFindChild`: the driver of the directory in the slot `i` is asked. -/
def findIn (i : ℕ) (dirNode : CachedNode) (name : List UInt8) :
    Option (Option VfsId × TreeCache) :=
  (drivers.findChild dirNode.id.driverId dirNode.id.vnodeId dirNode.driverData (some name)).map
    fun found =>
      (if found = npkInvalidHandle then none else some ⟨dirNode.id.driverId, found⟩, t.release i)

/-- `VfsFindChild` for the parent of the root of a file system: the handle to the root in the slot
`i` is given up for one to the directory that it hides. -/
def findAbove (i : ℕ) (parentId : VfsId) (name : List UInt8) :
    Option (Option VfsId × TreeCache) :=
  (t.getVfsNode drivers.toCacheDrivers parentId false).bind fun r =>
    match r.1 with
    | none => some (none, r.2.release i)
    | some j =>
        (r.2.release i)[j]?.bind fun dirNode =>
          if !drivers.getApi dirNode.id.driverId then some (none, (r.2.release i).release j)
          else drivers.findIn (r.2.release i) j dirNode name

def vfsFindChild (dir : VfsId) (name : List UInt8) : Option (Option VfsId × TreeCache) :=
  if trimName name = [] then some (none, t)
  else
    (t.getVfsNode drivers.toCacheDrivers dir true).bind fun r =>
      match r.1 with
      | none => some (none, r.2)
      | some i =>
          r.2[i]?.bind fun dirNode =>
            if !drivers.getApi dirNode.id.driverId then some (none, r.2.release i)
            else if trimName name = dotDot ∧
                dir.vnodeId = drivers.getRoot dirNode.id.driverId then
              match occludedId mountpoints dirNode.id.driverId with
              | none => some (none, r.2.release i)
              | some parentId => drivers.findAbove r.2 i parentId (trimName name)
            else drivers.findIn r.2 i dirNode (trimName name)

/-- The end of `VfsGetAttribs`. -/
def attribsOf (i : ℕ) (vfsNode : CachedNode) : Option (Option NodeAttribs × TreeCache) :=
  (drivers.getAttribs vfsNode.id.driverId vfsNode.id.vnodeId vfsNode.driverData).map fun store =>
    (store.map fun store => ⟨vfsNode.type, store.size, stringOfSpan store.name⟩, t.release i)

/-- `VfsGetAttribs` for the root of a file system: the attributes of the directory that it hides. -/
def attribsAbove (i : ℕ) (occluded : VfsId) : Option (Option NodeAttribs × TreeCache) :=
  (t.getVfsNode drivers.toCacheDrivers occluded false).bind fun r =>
    match r.1 with
    | none => some (none, r.2.release i)
    | some j =>
        (r.2.release i)[j]?.bind fun vfsNode =>
          if !drivers.getApi vfsNode.id.driverId then some (none, (r.2.release i).release j)
          else drivers.attribsOf (r.2.release i) j vfsNode

def vfsGetAttribs (node : VfsId) : Option (Option NodeAttribs × TreeCache) :=
  (t.getVfsNode drivers.toCacheDrivers node false).bind fun r =>
    match r.1 with
    | none => some (none, r.2)
    | some i =>
        r.2[i]?.bind fun vfsNode =>
          if !drivers.getApi vfsNode.id.driverId then some (none, r.2.release i)
          else if node.vnodeId = drivers.getRoot vfsNode.id.driverId then
            match occludedId mountpoints vfsNode.id.driverId with
            | none => some (none, r.2.release i)
            | some occluded => drivers.attribsAbove r.2 i occluded
          else drivers.attribsOf r.2 i vfsNode

/-! ### Paths -/

/-- The string that the buffer of `VfsGetPath` holds in the end, from the names of a node and its
ancestors, in this order.  The slash behind the first name is overwritten by a NUL. -/
def pathOf (ancestorNames : List (List UInt8)) : List UInt8 :=
  (((47 : UInt8) :: (ancestorNames.reverse.map fun name => name ++ [47]).flatten).dropLast ++
    [0]).takeWhile (· ≠ 0)

/-- The loop of `VfsGetPath`; it has no result for a node that is its own parent. -/
def pathLoop : ℕ → TreeCache → VfsId → List (List UInt8) →
    Option (Option (List (List UInt8)) × TreeCache)
  | 0, _, _, _ => none
  | fuel + 1, t, id, ancestorNames =>
      (drivers.vfsGetAttribs mountpoints t id).bind fun r =>
        match r.1 with
        | none => some (some ancestorNames, r.2)
        | some attribs =>
            (drivers.vfsFindChild mountpoints r.2 id dotDot).bind fun r =>
              match r.1 with
              | none => some (some (ancestorNames ++ [attribs.name]), r.2)
              | some parent =>
                  if parent = id then some (none, r.2)
                  else pathLoop fuel r.2 parent (ancestorNames ++ [attribs.name])

def vfsGetPath (fuel : ℕ) (id : VfsId) : Option (List UInt8 × TreeCache) :=
  (drivers.pathLoop mountpoints fuel t id []).map fun r => ((r.1.map pathOf).getD [], r.2)

/-- The loop of `VfsLookup`: the handle to the selected node is in the slot `selectedNode`. -/
def lookupLoop (mem : List UInt8) (path : StringSpan) : ℕ → TreeCache → Option ℕ → StringSpan →
    Option (Option VfsId × TreeCache)
  | 0, _, _, _ => none
  | fuel + 1, t, selectedNode, segment =>
      match selectedNode with
      | none => if segment.size = 0 then none else some (none, t)
      | some i =>
          t[i]?.bind fun node =>
            if segment.size = 0 then some (some node.id, t.release i)
            else
              (drivers.vfsFindChild mountpoints t node.id (segment.chars mem)).bind fun r =>
                match r.1 with
                | none => some (none, r.2.release i)
                | some childId =>
                    (r.2.getVfsNode drivers.toCacheDrivers childId true).bind fun r =>
                      (Url.getNextSeg mem path segment).bind fun segment =>
                        lookupLoop mem path fuel (r.2.release i) r.1 segment

/-- `VfsLookup` of the first `size` bytes of the memory.  A segment takes at least one byte, so that
the loop ends or reads beyond the memory. -/
def vfsLookup (rootNodeId : VfsId) (mem : List UInt8) (size : ℕ) :
    Option (Option VfsId × TreeCache) :=
  if size = 0 then some (none, t)
  else
    mem[0]?.bind fun b =>
      if b ≠ 47 then some (none, t)
      else
        (Url.parse mem size).bind fun url =>
          (Url.getNextSeg mem url.path .empty).bind fun segment =>
            (t.getVfsNode drivers.toCacheDrivers rootNodeId true).bind fun r =>
              drivers.lookupLoop mountpoints mem url.path (mem.length + 1) r.2 r.1 segment

/-! ### Directories -/

def vfsReadDir (dir : VfsId) : Option (Option (List VfsId) × TreeCache) :=
  (t.getVfsNode drivers.toCacheDrivers dir true).bind fun r =>
    match r.1 with
    | none => some (none, r.2)
    | some i =>
        r.2[i]?.bind fun node =>
          if !drivers.getApi node.id.driverId then some (none, r.2.release i)
          else if node.type ≠ .directory then some (none, r.2.release i)
          else
            (drivers.readDir node.id.driverId node.id.vnodeId node.driverData).map fun entries =>
              (entries, r.2.release i)

/-- `MountingConditionsMet`. -/
def mountingConditionsMet (node : CachedNode) (fsDriverId : ℕ) : Option Bool :=
  if node.type ≠ .directory then some false
  else if node.bond ≠ .null then some false
  else if !drivers.getApi node.id.driverId then none
  else
    (drivers.readDir node.id.driverId node.id.vnodeId node.driverData).map fun entries =>
      entries = some [] ∧ drivers.isFilesystem fsDriverId

end FsDrivers

/-! ### The state of the VFS -/

/-- The globals of the VFS. -/
structure Vfs where
  cache : TreeCache
  mountpoints : List VfsMountInfo
  rootNodeId : VfsId
deriving DecidableEq, Repr

def treeCacheInitialSize : ℕ := 128

/-- `InitVfs`, with the id of the root tempfs. -/
def Vfs.init (drivers : FsDrivers) (rootFsId : ℕ) : Vfs where
  cache := initTreeCache treeCacheInitialSize
  mountpoints := [⟨.null, rootFsId, ⟨false, false⟩⟩]
  rootNodeId := ⟨rootFsId, drivers.getRoot rootFsId⟩

/-- The node in the slot becomes a link to the root of the file system. -/
def TreeCache.setLink (t : TreeCache) (i : ℕ) (bond : VfsId) : TreeCache :=
  t.modify i fun n => { n with type := .link, bond := bond }

namespace Vfs

/-- The end of `VfsMount`, when all conditions are met: the handle to the target is in the slot `i`. -/
def finishMount (drivers : FsDrivers) (fuel : ℕ) (s : Vfs) (t : TreeCache) (i : ℕ)
    (mountpoint : VfsId) (fsDriverId : ℕ) : Option (Bool × Vfs) :=
  let mountpoints := s.mountpoints ++ [⟨mountpoint, fsDriverId, ⟨false, false⟩⟩]
  (drivers.vfsGetPath mountpoints (t.setLink i ⟨fsDriverId, drivers.getRoot fsDriverId⟩) fuel
    mountpoint).map fun r => (true, { s with cache := r.2.release i, mountpoints := mountpoints })

def vfsMount (drivers : FsDrivers) (fuel : ℕ) (s : Vfs) (mountpoint : VfsId) (fsDriverId : ℕ) :
    Option (Bool × Vfs) :=
  (s.cache.getVfsNode drivers.toCacheDrivers mountpoint true).bind fun r =>
    match r.1 with
    | none => some (false, { s with cache := r.2 })
    | some i =>
        r.2[i]?.bind fun target =>
          if !drivers.getApi fsDriverId then some (false, { s with cache := r.2.release i })
          else
            (drivers.mountingConditionsMet target fsDriverId).bind fun met =>
              if !met then some (false, { s with cache := r.2.release i })
              else if !drivers.mount fsDriverId then
                some (false, { s with cache := r.2.release i })
              else s.finishMount drivers fuel r.2 i target.id fsDriverId

variable {W : Type}

/-- `VfsCreate`, with the state of the drivers after the call. -/
def vfsCreate (world : FsWorld W) (w : W) (s : Vfs) (dir : VfsId) (type : NodeType)
    (name : List UInt8) : Option (Option VfsId × Vfs × W) :=
  (s.cache.getVfsNode (world.drivers w).toCacheDrivers dir true).bind fun r =>
    match r.1 with
    | none => some (none, { s with cache := r.2 }, w)
    | some i =>
        r.2[i]?.bind fun parent =>
          if !(world.drivers w).getApi parent.id.driverId then
            some (none, { s with cache := r.2.release i }, w)
          else if parent.type ≠ .directory then some (none, { s with cache := r.2.release i }, w)
          else
            (world.create w parent.id.driverId parent.id.vnodeId parent.driverData type
              (some (trimName name))).map fun h =>
                (if h.1 = npkInvalidHandle then none else some ⟨parent.id.driverId, h.1⟩,
                  { s with cache := r.2.release i }, h.2)

end Vfs

/-! ### What the functions keep -/

/-- A property of the cache and the handles in use that lookups and releases keep. -/
structure TreeCache.KeptBy (drivers : CacheDrivers) (P : TreeCache → List ℕ → Prop) : Prop where
  lookup : ∀ {t t' : TreeCache} {handles : List ℕ} {id : VfsId} {r : Option ℕ},
    P t handles → Lookup drivers t id r t' → P t' (r.toList ++ handles)
  release : ∀ {t : TreeCache} {handles : List ℕ} {i : ℕ}, P t (i :: handles) →
    P (t.release i) handles
  perm : ∀ {t : TreeCache} {handles handles' : List ℕ}, P t handles → handles.Perm handles' →
    P t handles'

namespace TreeCache.KeptBy

variable {drivers : FsDrivers} {mountpoints : List VfsMountInfo} {P : TreeCache → List ℕ → Prop}
  {t t' : TreeCache} {handles : List ℕ} {i : ℕ} {id : VfsId} {name : List UInt8}

lemma getVfsNode {drivers : CacheDrivers} {traverseLinks : Bool} {r : Option ℕ}
    (hP : KeptBy drivers P) (hc : P t handles)
    (h : t.getVfsNode drivers id traverseLinks = some (r, t')) : P t' (r.toList ++ handles) := by
  rcases getVfsNode_cases h with ⟨hlookup, -⟩ | ⟨i, t₁, t₂, node, h₁, -, -, -, h₂, rfl⟩
  · exact hP.lookup hc hlookup
  · -- the handle to the link is released
    have hc₂ := hP.lookup (hP.lookup hc h₁) h₂
    exact hP.release (hP.perm hc₂ List.perm_middle)

section

variable (hP : KeptBy drivers.toCacheDrivers P)
include hP

lemma get {traverseLinks : Bool} (hc : P t handles) :
    Post (fun r => P r.2 (r.1.toList ++ handles))
      (t.getVfsNode drivers.toCacheDrivers id traverseLinks) :=
  fun _ h => hP.getVfsNode hc h

section

variable (hc : P t (i :: handles))
include hc

lemma findIn {dirNode : CachedNode} :
    Post (fun r => P r.2 handles) (drivers.findIn t i dirNode name) :=
  .map fun _ _ => hP.release hc

lemma attribsOf {vfsNode : CachedNode} :
    Post (fun r => P r.2 handles) (drivers.attribsOf t i vfsNode) :=
  .map fun _ _ => hP.release hc

/-- The handle to the slot `i` is given up for one to another slot. -/
lemma exchange {traverseLinks : Bool} :
    Post (fun r => P (r.2.release i) (r.1.toList ++ handles))
      (t.getVfsNode drivers.toCacheDrivers id traverseLinks) :=
  fun _ h => hP.release (hP.perm (hP.getVfsNode hc h) List.perm_middle)

lemma findAbove : Post (fun r => P r.2 handles) (drivers.findAbove t i id name) := by
  refine (hP.exchange hc).seq ?_
  rintro ⟨_ | j, t₁⟩ hc₁
  · exact .some hc₁
  · exact .bind fun dirNode _ => .ite (fun _ => .some (hP.release hc₁)) fun _ => hP.findIn hc₁

lemma attribsAbove : Post (fun r => P r.2 handles) (drivers.attribsAbove t i id) := by
  refine (hP.exchange hc).seq ?_
  rintro ⟨_ | j, t₁⟩ hc₁
  · exact .some hc₁
  · exact .bind fun vfsNode _ => .ite (fun _ => .some (hP.release hc₁)) fun _ => hP.attribsOf hc₁

end

lemma vfsFindChild (hc : P t handles) :
    Post (fun r => P r.2 handles) (drivers.vfsFindChild mountpoints t id name) := by
  refine .ite (fun _ => .some hc) fun _ => (hP.get hc).seq ?_
  rintro ⟨_ | i, t₁⟩ hc₁
  · exact .some hc₁
  · refine .bind fun dirNode _ => .ite (fun _ => .some (hP.release hc₁)) fun _ =>
      .ite (fun _ => ?_) fun _ => hP.findIn hc₁
    cases occludedId mountpoints dirNode.id.driverId with
    | none => exact .some (hP.release hc₁)
    | some parentId => exact hP.findAbove hc₁

lemma vfsGetAttribs (hc : P t handles) :
    Post (fun r => P r.2 handles) (drivers.vfsGetAttribs mountpoints t id) := by
  refine (hP.get hc).seq ?_
  rintro ⟨_ | i, t₁⟩ hc₁
  · exact .some hc₁
  · refine .bind fun vfsNode _ => .ite (fun _ => .some (hP.release hc₁)) fun _ =>
      .ite (fun _ => ?_) fun _ => hP.attribsOf hc₁
    cases occludedId mountpoints vfsNode.id.driverId with
    | none => exact .some (hP.release hc₁)
    | some occluded => exact hP.attribsAbove hc₁

variable {fuel : ℕ} {mem : List UInt8}

/-- By induction on the steps of the loop. -/
lemma pathLoop {ancestorNames : List (List UInt8)} (hc : P t handles) :
    Post (fun r => P r.2 handles) (drivers.pathLoop mountpoints fuel t id ancestorNames) := by
  induction fuel generalizing t id ancestorNames with
  | zero => exact .none
  | succ fuel ih =>
    refine (hP.vfsGetAttribs hc).seq ?_
    rintro ⟨_ | attribs, t₁⟩ hc₁
    · exact .some hc₁
    refine (hP.vfsFindChild hc₁).seq ?_
    rintro ⟨_ | parent, t₂⟩ hc₂
    · exact .some hc₂
    · exact .ite (fun _ => .some hc₂) fun _ => ih hc₂

lemma vfsGetPath (hc : P t handles) :
    Post (fun r => P r.2 handles) (drivers.vfsGetPath mountpoints t fuel id) :=
  .map (hP.pathLoop hc)

lemma lookupLoop {path segment : StringSpan} {selectedNode : Option ℕ}
    (hc : P t (selectedNode.toList ++ handles)) :
    Post (fun r => P r.2 handles)
      (drivers.lookupLoop mountpoints mem path fuel t selectedNode segment) := by
  induction fuel generalizing t selectedNode segment with
  | zero => exact .none
  | succ fuel ih =>
    cases selectedNode with
    | none => exact .ite (fun _ => .none) fun _ => .some hc
    | some i =>
      refine .bind fun node _ => .ite (fun _ => .some (hP.release hc)) fun _ =>
        (hP.vfsFindChild hc).seq ?_
      rintro ⟨_ | childId, t₁⟩ hc₁
      · exact .some (hP.release hc₁)
      · exact (hP.exchange hc₁).seq fun r hr => .bind fun segment' _ => ih hr

lemma vfsLookup {rootNodeId : VfsId} {size : ℕ} (hc : P t handles) :
    Post (fun r => P r.2 handles) (drivers.vfsLookup mountpoints t rootNodeId mem size) :=
  .ite (fun _ => .some hc) fun _ => .bind fun _ _ => .ite (fun _ => .some hc) fun _ =>
    .bind fun _ _ => .bind fun _ _ => (hP.get hc).seq fun _ hr => hP.lookupLoop hr

/-- A mount that fails. -/
lemma vfsMount_false {fsDriverId : ℕ} {s : Vfs} (hc : P s.cache handles) :
    Post (fun r => r.1 = false → ∃ t', r.2 = { s with cache := t' } ∧ P t' handles)
      (s.vfsMount drivers fuel id fsDriverId) := by
  refine (hP.get hc).seq ?_
  rintro ⟨_ | i, t₁⟩ hc₁
  · exact .some fun _ => ⟨t₁, rfl, hc₁⟩
  have hfail : ∃ t', ({ s with cache := t₁.release i } : Vfs) = { s with cache := t' } ∧
      P t' handles := ⟨_, rfl, hP.release hc₁⟩
  refine .bind fun target _ => .ite (fun _ => .some fun _ => hfail) fun _ => .bind fun met _ =>
    .ite (fun _ => .some fun _ => hfail) fun _ => .ite (fun _ => .some fun _ => hfail) fun _ => ?_
  exact .map fun _ _ h => nomatch h

end

/-- `VfsCreate` changes the drivers only by `create`. -/
lemma vfsCreate {W : Type} {world : FsWorld W} {w : W} {s : Vfs} {type : NodeType}
    (hP : KeptBy (world.drivers w).toCacheDrivers P) (hc : P s.cache handles) :
    Post (fun r => (∃ t', r.2.1 = { s with cache := t' } ∧ P t' handles) ∧
      (r.2.2 = w ∨ ∃ driverId dir data handle,
        world.create w driverId dir data type (some (trimName name)) = some (handle, r.2.2)))
      (s.vfsCreate world w id type name) := by
  refine (hP.get hc).seq ?_
  rintro ⟨_ | i, t₁⟩ hc₁
  · exact .some ⟨⟨t₁, rfl, hc₁⟩, .inl rfl⟩
  have hreleased := hP.release hc₁
  refine .bind fun parent _ => .ite (fun _ => .some ⟨⟨_, rfl, hreleased⟩, .inl rfl⟩) fun _ =>
    .ite (fun _ => .some ⟨⟨_, rfl, hreleased⟩, .inl rfl⟩) fun _ => ?_
  exact .map fun r hcreate => ⟨⟨_, rfl, hreleased⟩, .inr ⟨_, _, _, r.1, hcreate⟩⟩

end TreeCache.KeptBy

end Northport.Filesystem
