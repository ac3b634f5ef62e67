/-
# The options of a mount (`Filesystem.cpp`, `FileCache.cpp`)

`VfsMount` appends an entry to the list of mountpoints, but it leaves the options of the entry at
their defaults.  The file cache asks for the options of a file system, and gets the defaults.
-/
import Northport.Filesystem.FileCache
import Northport.Filesystem.VfsMount

namespace Northport.Filesystem

open Lib Northport.RBTree List Option

def Vfs.vfsGetMountOptions (s : Vfs) (fsDriverId : ℕ) : Option MountOptions :=
  (s.mountpoints.find? fun info => info.driverId = fsDriverId).map (·.opts)

/-- `GetFileCache`: the index of the cache among those of all files, and their ids after the call. -/
def Vfs.getFileCache (s : Vfs) (caches : List VfsId) (id : VfsId) : Option ℕ × List VfsId :=
  match s.vfsGetMountOptions id.driverId with
  | none => (none, caches)
  | some mountOpts =>
    if mountOpts.uncachable then (none, caches)
    else
      match caches.findIdx? (· = id) with
      | some i => (some i, caches)
      | none => (some caches.length, caches ++ [id])

/-- The VFS, with the options that the successful mounts were called with. -/
structure Mounts where
  vfs : Vfs
  mounted : List (ℕ × MountOptions)

inductive MountsOp where
  | mount (drivers : FsDrivers) (fuel : ℕ) (mountpoint : VfsId) (fsDriverId : ℕ)
      (options : MountOptions)
  /-- Another function of the VFS.  It may change the cache of nodes, but not the mountpoints. -/
  | other (cache : TreeCache)

/-- The flag of the units that `GetFileCacheUnit` makes when the file system has these options. -/
def UnitsWritable (mountOpts : Option MountOptions) (writable : Bool) : Prop :=
  ∀ {P : Type} [DecidableEq P] {cache cache' : FileCache P} {r : UnitRequest P} {fileOffset : ℕ}
    {unit : P}, cache.units.Inv (nullLaws _) FileCacheUnit.physBase →
      r.newUnit ∉ cache.units.live → r.mountOpts = mountOpts →
        cache.createUnit fileOffset r = some (some unit, cache') →
          (cache'.unit unit).writable = writable

lemma unitsWritable (mountOpts : MountOptions) : UnitsWritable mountOpts mountOpts.writable := by
  intro P _ cache cache' r fileOffset unit htree hfresh hopts h
  rw [FileCache.createUnit, hopts] at h
  dsimp only at h
  split_ifs at h
  · cases h
  · obtain ⟨units, hinsert, -, -, hnew, -⟩ := LiveTree.insert_spec FileCache.fcuLess_eq
      ⟨1, true, r.physicalMem, fileOffset, mountOpts.writable⟩ htree hfresh
    rw [hinsert] at h
    cases h
    exact congrArg FileCacheUnit.writable hnew

namespace Mounts

/-- `InitVfs` mounts the root file system itself, without options. -/
def init (drivers : FsDrivers) (rootFsId : ℕ) : Mounts :=
  ⟨.init drivers rootFsId, [(rootFsId, ⟨false, false⟩)]⟩

def step (s : Mounts) : MountsOp → Option Mounts
  | .mount drivers fuel mountpoint fsDriverId options =>
    (s.vfs.vfsMount drivers fuel mountpoint fsDriverId).map fun r =>
      ⟨r.2, if r.1 then s.mounted ++ [(fsDriverId, options)] else s.mounted⟩
  | .other cache => some { s with vfs := { s.vfs with cache := cache } }

/-- **The options arrive** in `VfsGetMountOptions` and in the file cache. -/
structure OptionsArrive (s : Mounts) : Prop where
  options : ∀ e ∈ s.mounted, s.vfs.vfsGetMountOptions e.1 = some e.2
  others : ∀ fs, fs ∉ s.mounted.map Prod.fst → s.vfs.vfsGetMountOptions fs = none
  uncachable : ∀ e ∈ s.mounted, ∀ caches vnodeId,
    (s.vfs.getFileCache caches ⟨e.1, vnodeId⟩).1 = none ↔ e.2.uncachable = true
  writable : ∀ e ∈ s.mounted, UnitsWritable (s.vfs.vfsGetMountOptions e.1) e.2.writable

variable {s s' : Mounts}

lemma OptionsArrive.of_options (h : ∀ e ∈ s.mounted, s.vfs.vfsGetMountOptions e.1 = some e.2)
    (hnone : ∀ fs, fs ∉ s.mounted.map Prod.fst → s.vfs.vfsGetMountOptions fs = none) :
    s.OptionsArrive where
  options := h
  others := hnone
  uncachable e he caches vnodeId := by
    rw [Vfs.getFileCache, h e he]
    dsimp only
    split_ifs with hun
    · exact iff_of_true rfl hun
    · cases caches.findIdx? (· = ⟨e.1, vnodeId⟩) <;> simp [hun]
  writable e he := by
    rw [h e he]
    exact unitsWritable e.2

/-- The entries are those of the mounts, without their options. -/
def Entries (s : Mounts) : Prop :=
  s.vfs.mountpoints.map (fun info => (info.driverId, info.opts)) =
    s.mounted.map fun e => (e.1, ⟨false, false⟩)

lemma Entries.step {op : MountsOp} (h : s.Entries) (hstep : s.step op = some s') : s'.Entries := by
  cases op with
  | other cache =>
    cases hstep
    exact h
  | mount drivers fuel mountpoint fsDriverId options =>
    obtain ⟨⟨_ | _, vfs⟩, hmount, hstep⟩ := map_eq_some_iff.mp hstep
    · have hkept : TreeCache.KeptBy drivers.toCacheDrivers fun _ _ => True := by constructor <;> simp
      obtain ⟨t, rfl, -⟩ := @TreeCache.KeptBy.vfsMount_false _ _ [] _ hkept _ _ _ trivial _ hmount rfl
      cases hstep
      exact h
    · obtain ⟨i, t₁, t₂, target, hmounted⟩ := Vfs.mounted_of_eq hmount
      cases hstep
      rw [Entries, hmounted.after]
      simpa [Entries] using h

lemma Entries.vfsGetMountOptions (h : s.Entries) (fs : ℕ) : s.vfs.vfsGetMountOptions fs =
    (s.mounted.find? fun e => e.1 = fs).map fun _ => ⟨false, false⟩ := by
  have hfind := congrArg (fun l => (l.find? fun e => e.1 = fs).map Prod.snd) h
  simpa [Vfs.vfsGetMountOptions, Function.comp_def] using hfind

/-- **The options arrive exactly if** no mount was called with others than the defaults. -/
theorem optionsArrive_iff (drivers : FsDrivers) (rootFsId : ℕ) (ops : List MountsOp) :
    Always step (fun s => s.OptionsArrive ↔ ∀ e ∈ s.mounted, e.2 = ⟨false, false⟩)
      (init drivers rootFsId) ops := by
  refine always_of_invariant Entries (fun s hs => ⟨fun h e he => ?_, fun h => ?_⟩)
    (fun _ _ _ hs hstep => hs.step hstep) (s := init drivers rootFsId) rfl ops
  · obtain ⟨-, -, hopts⟩ := map_eq_some_iff.mp
      ((hs.vfsGetMountOptions e.1).symm.trans (h.options e he))
    exact hopts.symm
  · refine .of_options (fun e he => ?_) fun fs hfs => ?_
    · obtain ⟨e', he'⟩ := isSome_iff_exists.mp
        (find?_isSome (p := fun e' => e'.1 = e.1).mpr ⟨e, he, by simp⟩)
      rw [hs.vfsGetMountOptions, he', h e he]
      rfl
    · rw [hs.vfsGetMountOptions, find?_eq_none.mpr]
      · rfl
      · exact fun e he heq => hfs (mem_map.mpr ⟨e, he, of_decide_eq_true heq⟩)

/-- A file system is mounted writable, and its files are not. -/
theorem writable_lost : ∃ s, run step (init emptyDirs 1) [.mount emptyDirs 4 ⟨1, 2⟩ 2 ⟨true, false⟩] =
    some s ∧ s.mounted = [(1, ⟨false, false⟩), (2, ⟨true, false⟩)] ∧
      s.vfs.vfsGetMountOptions 2 = some ⟨false, false⟩ :=
  ⟨⟨mountedOnce, _⟩, by simp [run, step, init, vfsMount_mountedOnce], rfl, rfl⟩

end Mounts

end Northport.Filesystem
