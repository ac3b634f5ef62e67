/-
# The VFS over file systems in memory

All drivers are tempfs instances.  A tree is built by `VfsCreate` and `VfsMount`, with any
lookups in between.  Whatever the tree is, if its names are plain, every file system is
mounted at most once and none on a root, then the path of a node leads back to it.
-/
import Northport.Filesystem.TempFs
import Northport.Filesystem.VfsMount
import Northport.Filesystem.VfsPaths

namespace Northport.Filesystem

open Lib Syslib TreeCache List Option Function TempFsData TempFs

/-! ### A world of file systems in memory -/

/-- The tempfs instances, by the ids of their drivers. -/
abbrev TempFsWorld := ℕ → Option TempFs

/-- The functions of `TempFs.cpp` behind the driver interface; nodes have no data. -/
def tempFsDrivers (w : TempFsWorld) : FsDrivers where
  getApi := fun driverId => (w driverId).isSome
  exitCache := fun _ _ _ => true
  enterCache := fun driverId id =>
    (w driverId).bind fun fs => (fs.data.enterCache id).map fun type => (type, 0)
  isFilesystem := fun driverId => (w driverId).isSome
  getRoot := fun _ => getRoot
  mount := fun _ => true
  findChild := fun driverId id _ name => (w driverId).bind fun fs => fs.data.findChild id name
  getAttribs := fun driverId id _ =>
    (w driverId).bind fun fs => (fs.data.getAttribs id).map some
  readDir := fun driverId id _ =>
    (w driverId).bind fun fs => (fs.data.readDir id).map fun l => some (l.map (⟨driverId, ·⟩))

def tempFsWorld : FsWorld TempFsWorld where
  drivers := tempFsDrivers
  create := fun w driverId id _ type name =>
    (w driverId).bind fun fs => name.bind fun name =>
      (fs.create id type name).map fun r => (r.1, update w driverId (some r.2))

/-- The tempfs instances and the VFS. -/
structure FsState where
  world : TempFsWorld
  vfs : Vfs

inductive FsOp where
  | create (dir : VfsId) (type : NodeType) (name : List UInt8)
  | mount (mountpoint : VfsId) (fsDriverId : ℕ) (fuel : ℕ)
  | lookup (mem : List UInt8) (size : ℕ)

namespace FsState

/-- Empty file systems, one of which is that of the root directory. -/
def init (fsIds : List ℕ) (rootFsId : ℕ) : FsState where
  world := fun driverId => if driverId ∈ fsIds then some TempFs.init else none
  vfs := Vfs.init (tempFsDrivers fun driverId =>
    if driverId ∈ fsIds then some TempFs.init else none) rootFsId

/-- `VfsLookup` in this state; with `drivers` that are asked for the nodes. -/
def lookup (s : FsState) (drivers : FsDrivers) (mem : List UInt8) (size : ℕ) :
    Option (Option VfsId × TreeCache) :=
  drivers.vfsLookup s.vfs.mountpoints s.vfs.cache s.vfs.rootNodeId mem size

def step (s : FsState) : FsOp → Option FsState
  | .create dir type name =>
      (s.vfs.vfsCreate tempFsWorld s.world dir type name).map fun r => ⟨r.2.2, r.2.1⟩
  | .mount mountpoint fsDriverId fuel =>
      (s.vfs.vfsMount (tempFsDrivers s.world) fuel mountpoint fsDriverId).map fun r =>
        ⟨s.world, r.2⟩
  | .lookup mem size =>
      (s.lookup (tempFsDrivers s.world) mem size).map fun r =>
        ⟨s.world, { s.vfs with cache := r.2 }⟩

end FsState

/-! ### The answers of a tempfs -/

/-- A name in a tree: it stands for itself in a URL, and is not `.` or `..`. -/
def ValidName (name : List UInt8) : Prop := Url.Plain name ∧ name ≠ dot ∧ name ≠ dotDot

instance (name : List UInt8) : Decidable (ValidName name) := inferInstanceAs (Decidable (_ ∧ _))

/-- All names of the tree are valid. -/
def ValidNames (w : TempFsWorld) : Prop :=
  ∀ driverId fs, w driverId = some fs → ∀ node ∈ fs.created, ValidName node.name

variable {w : TempFsWorld} {fs : TempFs} {handle : ℕ} {name : List UInt8} {type : NodeType}

/-- The handles that are accepted are those of nodes. -/
lemma TempFs.exists_of_node {node : TempFsNode} (hnode : fs.data.node handle = some node) :
    fs.Exists handle := by
  obtain ⟨a, haddress, -⟩ := bind_eq_some_iff.mp hnode
  cases handle with
  | zero => exact absurd haddress (by simp [address])
  | succ i =>
    refine ⟨Nat.succ_pos i, ?_⟩
    by_contra hle
    rw [address, getElem?_eq_none (by omega)] at haddress
    cases haddress

/-- **A child of a tempfs**: the first creation with the name. -/
lemma TempFs.Inv.child {dir k : ℕ} (h : fs.Inv) (hnames : ∀ node ∈ fs.created, ValidName node.name)
    (hname : name ≠ []) (hdot : name ≠ dot) (hdotDot : name ≠ dotDot)
    (hfind : fs.data.findChild dir (some name) = some k) (hk : k ≠ npkInvalidHandle) :
    Url.Plain name ∧ dir ≠ 0 ∧ k ≠ 1 ∧
      fs.data.findChild k (some dotDot) = some dir ∧
      ∃ size, fs.data.getAttribs k = some ⟨size, name⟩ := by
  have hdir : fs.Exists dir := by
    rw [TempFsData.findChild, if_neg hname] at hfind
    obtain ⟨node, hnode, -⟩ := bind_eq_some_iff.mp hfind
    exact exists_of_node hnode
  rw [h.findChild hdir hname hdot hdotDot] at hfind
  cases hfind
  rw [firstNamed] at hk ⊢
  cases hfirst : (createdIn fs.created dir).find? fun node => stringOfSpan node.name = name with
  | none =>
    rw [hfirst] at hk
    exact absurd rfl hk
  | some cr =>
    obtain ⟨i, hcr, hhandle, rfl⟩ := h.mem_createdIn (mem_of_find?_eq_some hfirst)
    have hvalid := hnames cr (mem_of_getElem? hcr)
    have heq : cr.name = name := by
      have := find?_some hfirst
      rw [stringOfSpan_plain hvalid.1] at this
      exact of_decide_eq_true this
    have hlt : i < fs.created.length := (List.getElem?_eq_some_iff.mp hcr).1
    obtain ⟨-, hpos, hle⟩ := h.created i cr hcr
    have hnode : fs.data.node cr.handle = some (nodeOf fs.created (i + 1)) := by
      rw [hhandle]
      exact h.node (by omega)
    obtain ⟨-, hstored, -, hparent⟩ := h.heap_of_created hcr
    dsimp only
    refine ⟨heq ▸ hvalid.1, by omega, by omega, ?_, (nodeOf fs.created (i + 1)).size, ?_⟩
    · rw [TempFsData.findChild, if_neg (by decide), hnode, bind_some, if_neg (by decide),
        if_pos rfl, hparent]
      dsimp only
      rw [h.heap_getElem (by omega), map_some, id_nodeOf fs.created (by omega),
        Nat.sub_add_cancel hpos]
    · rw [TempFsData.getAttribs, hnode, map_some, hstored, heq,
        stringOfSpan_plain (heq ▸ hvalid.1)]

lemma rootType_tempFsDrivers (hworld : ∀ driverId fs, w driverId = some fs → fs.Inv)
    {driverId data : ℕ} (h : (tempFsDrivers w).enterCache driverId 1 = some (type, data)) :
    type ≠ .link := by
  obtain ⟨fs, hfs, h⟩ := bind_eq_some_iff.mp h
  obtain ⟨type', htype, h⟩ := map_eq_some_iff.mp h
  cases h
  rw [enterCache, (hworld driverId fs hfs).node zero_le] at htype
  cases htype
  exact show NodeType.directory ≠ .link by decide

/-- **Tempfs instances are trees with plain names.** -/
lemma treeDrivers_tempFsDrivers (hworld : ∀ driverId fs, w driverId = some fs → fs.Inv)
    (hnames : ValidNames w) : TreeDrivers (tempFsDrivers w) where
  root _ := rfl
  rootType _ _ _ h := rootType_tempFsDrivers hworld h
  self := by
    intro driverId dir data k h
    obtain ⟨fs, -, h⟩ := bind_eq_some_iff.mp h
    obtain ⟨node, -, h⟩ := bind_eq_some_iff.mp h
    exact (some.inj h).symm
  child := by
    intro driverId dir data name k hname hdot hdotDot hfind hk
    obtain ⟨fs, hfs, hfind⟩ := bind_eq_some_iff.mp hfind
    have hbind : ∀ {α : Type} (f : TempFs → Option α), (w driverId).bind f = f fs := fun f => by
      rw [hfs, bind_some]
    obtain ⟨hplain, hdir, hk', hparent, size, hattribs⟩ := (hworld driverId fs hfs).child
      (hnames driverId fs hfs) hname hdot hdotDot hfind hk
    refine ⟨by simp [tempFsDrivers, hfs], hplain, hdotDot, hdir, ⟨hk, hk'⟩, fun _ => ?_,
      fun _ => ?_, fun _ => ⟨size, ?_⟩⟩
    · exact (hbind _).trans hfind
    · exact (hbind _).trans hparent
    · exact (hbind _).trans (by rw [hattribs]; rfl)

/-! ### Trees that are built -/

/-- Every file system is mounted at most once, the root file system never, and none on a root. -/
def MountedOnce (mountpoints : List VfsMountInfo) : Prop :=
  (mountpoints.map VfsMountInfo.driverId).Nodup ∧
    ∀ e ∈ mountpoints.tail, e.occludedDir.vnodeId ≠ getRoot

instance (mountpoints : List VfsMountInfo) : Decidable (MountedOnce mountpoints) :=
  inferInstanceAs (Decidable (_ ∧ _))

lemma TempFs.Inv.of_create {fs' : TempFs} {dir : ℕ} (h : fs.Inv)
    (hcreate : fs.create dir type name = some (handle, fs')) : fs'.Inv := by
  have hdir : fs.Exists dir := by
    obtain ⟨r, hr, -⟩ := map_eq_some_iff.mp hcreate
    obtain ⟨a, haddress, -⟩ := bind_eq_some_iff.mp hr
    cases dir with
    | zero => exact absurd haddress (by simp [TempFsData.address])
    | succ i =>
      refine ⟨Nat.succ_pos i, ?_⟩
      by_contra hle
      rw [TempFsData.address, getElem?_eq_none (by omega)] at haddress
      cases haddress
  obtain ⟨fs₁, heq, hinv, -⟩ := h.create type name hdir
  cases hcreate.symm.trans heq
  exact hinv

namespace FsState

/-- **The invariant** of the trees that are built. -/
structure Inv (fsIds : List ℕ) (rootFsId : ℕ) (s : FsState) : Prop where
  fs : ∀ driverId fs, s.world driverId = some fs → fs.Inv
  fsIds : ∀ driverId, (s.world driverId).isSome = decide (driverId ∈ fsIds)
  rootNodeId : s.vfs.rootNodeId = ⟨rootFsId, 1⟩
  table : ∃ opts rest, s.vfs.mountpoints = ⟨.null, rootFsId, opts⟩ :: rest ∧
    ∀ e ∈ rest, (s.world e.driverId).isSome = true
  sane : Sane s.vfs.mountpoints s.vfs.cache []

variable {fsIds : List ℕ} {rootFsId : ℕ} {s s' : FsState}

lemma inv_init (fsIds : List ℕ) (rootFsId : ℕ) : Inv fsIds rootFsId (init fsIds rootFsId) where
  fs := by
    intro driverId fs hfs
    obtain ⟨-, hfs⟩ := ite_none_right_eq_some.mp hfs
    exact some.inj hfs ▸ TempFs.inv_init
  fsIds := by
    intro driverId
    by_cases hmem : driverId ∈ fsIds <;> simp [init, hmem]
  rootNodeId := rfl
  table := ⟨_, [], rfl, by simp⟩
  sane := by
    refine ⟨CacheState.counted_init treeCacheInitialSize, fun j a ha => ?_⟩
    have hempty : a = .empty := eq_of_mem_replicate (mem_of_getElem? ha)
    rw [hempty]
    exact ⟨fun hne => absurd rfl hne, fun hid => absurd hid (by decide)⟩

/-- A creation changes one of the file systems. -/
lemma Inv.create {w : TempFsWorld} {driverId dir data handle : ℕ} {type : NodeType}
    {name : List UInt8} (h : Inv fsIds rootFsId s)
    (hcreate : tempFsWorld.create s.world driverId dir data type (some name) = some (handle, w)) :
    (∀ driverId fs, w driverId = some fs → fs.Inv) ∧
      ∀ driverId, (w driverId).isSome = (s.world driverId).isSome := by
  obtain ⟨fs, hfs, hmap⟩ := bind_eq_some_iff.mp hcreate
  obtain ⟨⟨handle', fs'⟩, hnew, heq⟩ := map_eq_some_iff.mp hmap
  cases heq
  constructor
  · intro driverId' fs₁ hfs₁
    by_cases hd : driverId' = driverId
    · subst hd
      rw [update_self] at hfs₁
      cases hfs₁
      exact (h.fs _ fs hfs).of_create hnew
    · rw [update_of_ne hd] at hfs₁
      exact h.fs driverId' fs₁ hfs₁
  · intro driverId'
    by_cases hd : driverId' = driverId
    · subst hd
      rw [update_self, hfs]
      rfl
    · rw [update_of_ne hd]

/-- A mount adds a link to the cache and an entry to the mountpoints. -/
lemma Inv.mount {fuel fs : ℕ} {m : VfsId} {vfs : Vfs} (h : Inv fsIds rootFsId s)
    (hmount : s.vfs.vfsMount (tempFsDrivers s.world) fuel m fs = some (true, vfs)) :
    Inv fsIds rootFsId ⟨s.world, vfs⟩ := by
  obtain ⟨i, t₁, t₂, target, hmounted⟩ := Vfs.mounted_of_eq hmount
  have hroot : ∀ driverId type data, (tempFsDrivers s.world).enterCache driverId 1 =
      some (type, data) → type ≠ .link := fun _ _ _ => rootType_tempFsDrivers h.fs
  have hc₁ := (Sane.keptBy hroot s.vfs.mountpoints).getVfsNode h.sane hmounted.get
  obtain ⟨entry, hentry⟩ : ∃ entry : VfsMountInfo, entry = ⟨target.id, fs, ⟨false, false⟩⟩ :=
    ⟨_, rfl⟩
  have htarget := (getVfsNode_found hmounted.get hmounted.slot).1
  have hlinked : Sane (s.vfs.mountpoints ++ [entry]) (t₁.setLink i ⟨fs, 1⟩) [i] := by
    refine ⟨hc₁.1.setLink i _, fun j b hb => ?_⟩
    obtain ⟨a, ha, rfl⟩ := slot_of_change hb
    split_ifs with hij
    · obtain rfl := some.inj (hmounted.slot.symm.trans (hij ▸ ha))
      refine ⟨fun _ => ⟨htarget, entry, by simp, by rw [hentry], by rw [hentry]⟩, fun _ hnull => ?_⟩
      exact absurd (congrArg VfsId.vnodeId hnull) Nat.one_ne_zero
    · obtain ⟨hbond, hplain⟩ := hc₁.2 j a ha
      refine ⟨fun hne => ?_, hplain⟩
      obtain ⟨hdriver, e, he, hdir, heq⟩ := hbond hne
      exact ⟨hdriver, e, mem_append_left _ he, hdir, heq⟩
  obtain ⟨path, hpath⟩ := hmounted.path
  have hc₂ := (Sane.keptBy hroot _).vfsGetPath hlinked _ hpath
  have hafter := hmounted.after
  rw [← hentry] at hafter
  obtain ⟨opts, rest, htable, hrest⟩ := h.table
  refine ⟨h.fs, h.fsIds, by rw [hafter]; exact h.rootNodeId, ⟨opts, rest ++ [entry], ?_, ?_⟩, ?_⟩
  · rw [hafter]
    rw [htable, cons_append]
  · obtain ⟨-, -, hfs, -⟩ := FsDrivers.conditions_of_met hmounted.met
    refine forall_mem_append.mpr ⟨hrest, forall_mem_singleton.mpr ?_⟩
    rw [hentry]
    exact hfs
  · rw [hafter]
    exact (Sane.keptBy hroot _).release hc₂

/-- **The step lemma.** -/
lemma Inv.step {op : FsOp} (h : Inv fsIds rootFsId s) (hstep : s.step op = some s') :
    Inv fsIds rootFsId s' := by
  have hroot : ∀ driverId type data, (tempFsDrivers s.world).enterCache driverId 1 =
      some (type, data) → type ≠ .link := fun _ _ _ => rootType_tempFsDrivers h.fs
  have hkept := Sane.keptBy hroot s.vfs.mountpoints
  cases op with
  | create dir type name =>
    obtain ⟨⟨r, vfs, w⟩, hcreate, rfl⟩ := map_eq_some_iff.mp hstep
    have hkept' : KeptBy (tempFsWorld.drivers s.world).toCacheDrivers _ := hkept
    obtain ⟨⟨t, rfl, hc⟩, hworld⟩ := hkept'.vfsCreate h.sane _ hcreate
    rcases hworld with rfl | ⟨driverId, dir', data, handle, hcreate⟩
    · exact { h with sane := hc }
    · obtain ⟨hfs, hsome⟩ := h.create hcreate
      obtain ⟨opts, rest, htable, hrest⟩ := h.table
      exact ⟨hfs, fun d => (hsome d).trans (h.fsIds d), h.rootNodeId,
        ⟨opts, rest, htable, fun e he => (hsome _).trans (hrest e he)⟩, hc⟩
  | mount m fs fuel =>
    obtain ⟨⟨ok, vfs⟩, hmount, rfl⟩ := map_eq_some_iff.mp hstep
    cases ok with
    | true => exact h.mount hmount
    | false =>
      obtain ⟨t, rfl, hc⟩ := hkept.vfsMount_false h.sane _ hmount rfl
      exact { h with sane := hc }
  | lookup mem size =>
    obtain ⟨⟨r, t⟩, hlookup, rfl⟩ := map_eq_some_iff.mp hstep
    exact { h with sane := hkept.vfsLookup h.sane _ hlookup }

/-- **The run lemma.** -/
lemma inv_of_run {ops : List FsOp} (hrun : run step (init fsIds rootFsId) ops = some s) :
    Inv fsIds rootFsId s := by
  have halways : Always step (Inv fsIds rootFsId) (init fsIds rootFsId) ops :=
    always_of_invariant (Inv fsIds rootFsId) (fun _ h => h) (fun _ _ _ h hstep => h.step hstep)
      (inv_init fsIds rootFsId) ops
  exact halways.of_run hrun

/-- The mountpoints of a tree. -/
lemma Inv.mountTable (h : Inv fsIds rootFsId s) (hroot : rootFsId ∈ fsIds) (hnull : rootFsId ≠ 0)
    (hmounts : MountedOnce s.vfs.mountpoints) :
    MountTable (tempFsDrivers s.world) s.vfs.mountpoints s.vfs.rootNodeId := by
  obtain ⟨opts, rest, htable, hrest⟩ := h.table
  rw [h.rootNodeId]
  refine ⟨hnull, rfl, by simp [tempFsDrivers, h.fsIds, hroot], ?_, fun e he hdir => ?_⟩
  · rw [htable, occludedId]
    simp [VfsId.null]
  · have hmem : e ∈ rest := by
      rw [htable] at he
      rcases mem_cons.mp he with rfl | he
      · exact absurd rfl hdir
      · exact he
    refine ⟨?_, hrest e hmem, hmounts.2 e (by rw [htable]; exact hmem)⟩
    have hfind : s.vfs.mountpoints.find? (fun info => info.driverId = e.driverId) = some e := by
      have hsome : (s.vfs.mountpoints.find? fun info => info.driverId = e.driverId).isSome :=
        find?_isSome.mpr ⟨e, he, by simp⟩
      obtain ⟨e', he'⟩ := isSome_iff_exists.mp hsome
      have hkey : e'.driverId = e.driverId := by simpa using find?_some he'
      rw [he', inj_on_of_nodup_map hmounts.1 (mem_of_find?_eq_some he') he hkey]
    rw [occludedId, hfind]
    exact if_pos hdir

end FsState

/-- **The path of a node leads back to it.**  For every tree that is built by `VfsCreate` and
`VfsMount`, with plain names, every file system mounted at most once and none on a root: if a lookup
that evicts no node returns the id of a node other than the root directory, then `VfsGetPath` of the
id ends, and the lookup of the path, whatever follows it in memory, returns the id. -/
theorem lookup_path {fsIds : List ℕ} {rootFsId : ℕ} (hroot : rootFsId ∈ fsIds) (hnull : rootFsId ≠ 0)
    {ops : List FsOp} {s : FsState}
    (hrun : run FsState.step (FsState.init fsIds rootFsId) ops = some s)
    (hnames : ValidNames s.world) (hmounts : MountedOnce s.vfs.mountpoints) {mem : List UInt8}
    {size : ℕ} {id : VfsId} {t : TreeCache}
    (hlookup : s.lookup (tempFsDrivers s.world).keeping mem size = some (some id, t))
    (hid : id ≠ s.vfs.rootNodeId) :
    s.lookup (tempFsDrivers s.world) mem size = some (some id, t) ∧ ∃ path t₁ n,
      (∀ fuel ≥ n, (tempFsDrivers s.world).vfsGetPath s.vfs.mountpoints t fuel id =
        some (path, t₁)) ∧
      ∀ rest, ∃ t₂, (tempFsDrivers s.world).vfsLookup s.vfs.mountpoints t₁ s.vfs.rootNodeId
        (path ++ 0 :: rest) path.length = some (some id, t₂) := by
  have hinv := FsState.inv_of_run hrun
  exact ⟨vfsLookup_of_keeping hlookup, vfsLookup_vfsGetPath
    (treeDrivers_tempFsDrivers hinv.fs hnames) (hinv.mountTable hroot hnull hmounts) hinv.sane
    hlookup hid⟩

/-! ### A file in a mounted file system -/

/-- The directory `a` of the root file system 1, on which the file system 2 with the file `b` is
mounted. -/
def nestedOps : List FsOp :=
  [.create ⟨1, 1⟩ .directory [97], .mount ⟨1, 2⟩ 2 4, .create ⟨1, 2⟩ .file [98]]

/-- The names, the mountpoints and the lookup of `/a/b`, as far as they can be computed. -/
def nestedCheck (s : FsState) : Bool :=
  ([1, 2].all fun d => ((s.world d).elim [] created).all fun node => ValidName node.name) &&
    MountedOnce s.vfs.mountpoints && s.vfs.rootNodeId = ⟨1, 1⟩ &&
    ((s.lookup (tempFsDrivers s.world).keeping [47, 97, 47, 98, 0] 4).map Prod.fst =
      some (some ⟨2, 2⟩))

theorem lookup_path_nested : ∃ s id t,
    run FsState.step (FsState.init [1, 2] 1) nestedOps = some s ∧ ValidNames s.world ∧
    MountedOnce s.vfs.mountpoints ∧
    s.lookup (tempFsDrivers s.world).keeping [47, 97, 47, 98, 0] 4 = some (some id, t) ∧
    id ≠ s.vfs.rootNodeId ∧
    s.lookup (tempFsDrivers s.world) [47, 97, 47, 98, 0] 4 = some (some id, t) ∧ ∃ path t₁ n,
      (∀ fuel ≥ n, (tempFsDrivers s.world).vfsGetPath s.vfs.mountpoints t fuel id =
        some (path, t₁)) ∧
      ∀ rest, ∃ t₂, (tempFsDrivers s.world).vfsLookup s.vfs.mountpoints t₁ s.vfs.rootNodeId
        (path ++ 0 :: rest) path.length = some (some id, t₂) := by
  have hcheck : (run FsState.step (FsState.init [1, 2] 1) nestedOps).any nestedCheck = true := by
    decide +kernel
  cases hrun : run FsState.step (FsState.init [1, 2] 1) nestedOps with
  | none =>
    rw [hrun] at hcheck
    cases hcheck
  | some s =>
    rw [hrun, any_some, nestedCheck, Bool.and_eq_true, Bool.and_eq_true,
      Bool.and_eq_true] at hcheck
    obtain ⟨⟨⟨hnames, hmounts⟩, hrootNode⟩, hlookup⟩ := hcheck
    obtain ⟨⟨r, t⟩, hlookup, hr⟩ := map_eq_some_iff.mp (of_decide_eq_true hlookup)
    obtain rfl : r = some ⟨2, 2⟩ := hr
    have hrootNode : s.vfs.rootNodeId = ⟨1, 1⟩ := of_decide_eq_true hrootNode
    have hmounts : MountedOnce s.vfs.mountpoints := of_decide_eq_true hmounts
    have hvalid : ValidNames s.world := by
      intro driverId fs hfs node hnode
      have hmem : driverId ∈ [1, 2] := by
        have := (FsState.inv_of_run hrun).fsIds driverId
        rw [hfs] at this
        exact of_decide_eq_true this.symm
      have hall := all_eq_true.mp hnames driverId hmem
      rw [hfs] at hall
      exact of_decide_eq_true (all_eq_true.mp hall node hnode)
    have hid : (⟨2, 2⟩ : VfsId) ≠ s.vfs.rootNodeId := by
      rw [hrootNode]
      decide
    exact ⟨s, ⟨2, 2⟩, t, rfl, hvalid, hmounts, hlookup, hid,
      lookup_path (by decide) (by decide) hrun hvalid hmounts hlookup hid⟩

end Northport.Filesystem
