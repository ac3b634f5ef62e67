/-
# What a mount leaves behind

`VfsMount` records the mount in two places: in the list of mountpoints and in the cached
copy of the node that it is mounted on, which becomes a link to the root of the file
system.  `GetVfsNode` follows the link only.  A lookup may evict the node, and when it
comes back into the cache it is an ordinary directory again.

After a successful mount, what is done on the mountpoint is done on the root of the file
system exactly as long as the mountpoint stays in the cache and there is room for the root.
-/
import Northport.Filesystem.CacheSlots

namespace Northport.Filesystem

open Lib List Option FsDrivers

/-! ### Successful mounts -/

/-- `MountingConditionsMet`. -/
lemma FsDrivers.conditions_of_met {drivers : FsDrivers} {fs : ℕ} {target : CachedNode}
    (h : drivers.mountingConditionsMet target fs = some true) :
    target.type = .directory ∧ target.bond = .null ∧ drivers.isFilesystem fs = true ∧
      drivers.readDir target.id.driverId target.id.vnodeId target.driverData = some (some []) := by
  rw [mountingConditionsMet] at h
  split_ifs at h with hdirectory hbond
  · cases h
  · cases h
  obtain ⟨entries, hread, hmet⟩ := map_eq_some_iff.mp h
  obtain ⟨rfl, hfs⟩ : entries = some [] ∧ drivers.isFilesystem fs = true := by simpa using hmet
  exact ⟨not_not.mp hdirectory, not_not.mp hbond, hfs, hread⟩

namespace Vfs

open TreeCache

variable {drivers : FsDrivers} {fuel fs : ℕ} {s s₀ : Vfs} {m : VfsId} {handles : List ℕ}

/-- **The steps of a successful mount**: the target is found in the slot `i`, the conditions are
met, it is made a link, and its path is looked up. -/
structure Mounted (drivers : FsDrivers) (fuel : ℕ) (s : Vfs) (m : VfsId) (fs : ℕ) (s₀ : Vfs)
    (i : ℕ) (t₁ t₂ : TreeCache) (target : CachedNode) : Prop where
  get : s.cache.getVfsNode drivers.toCacheDrivers m true = some (some i, t₁)
  slot : t₁[i]? = some target
  met : drivers.mountingConditionsMet target fs = some true
  path : ∃ path, drivers.vfsGetPath (s.mountpoints ++ [⟨target.id, fs, ⟨false, false⟩⟩])
    (t₁.setLink i ⟨fs, drivers.getRoot fs⟩) fuel target.id = some (path, t₂)
  after : s₀ = { s with
    cache := t₂.release i, mountpoints := s.mountpoints ++ [⟨target.id, fs, ⟨false, false⟩⟩] }

lemma mounted_of_eq (h : s.vfsMount drivers fuel m fs = some (true, s₀)) :
    ∃ i t₁ t₂ target, Mounted drivers fuel s m fs s₀ i t₁ t₂ target := by
  obtain ⟨⟨r, t₁⟩, hget, h⟩ := bind_eq_some_iff.mp h
  cases r with
  | none => cases h
  | some i =>
    obtain ⟨target, hslot, h⟩ := bind_eq_some_iff.mp h
    split at h
    · cases h
    obtain ⟨met, hmet, h⟩ := bind_eq_some_iff.mp h
    split_ifs at h with hfalse
    · cases h
    · cases h
    obtain rfl : met = true := by simpa using hfalse
    obtain ⟨⟨path, t₂⟩, hpath, h⟩ := map_eq_some_iff.mp h
    cases h
    exact ⟨i, t₁, t₂, target, hget, hslot, hmet, ⟨path, hpath⟩, rfl⟩

namespace Mounted

variable {i : ℕ} {t₁ t₂ : TreeCache} {target : CachedNode}

section

variable (h : Mounted drivers fuel s m fs s₀ i t₁ t₂ target)
include h

variable (hc : Counted s.cache handles)

include hc

lemma counted₁ :
    Counted t₁ (i :: handles) := hc.getVfsNode h.get

/-- The target is a link to the root of the file system, and stays it until the handle to it is
released. -/
lemma held :
    Counted t₂ (i :: handles) ∧ ∃ a, t₂[i]? = some a ∧ a.id = target.id ∧ a.type = .link ∧
      a.bond = ⟨fs, drivers.getRoot fs⟩ := by
  have hkept := Counted.keptBy_held (p := fun a => a.id = target.id ∧ a.type = .link ∧
      a.bond = ⟨fs, drivers.getRoot fs⟩) drivers.toCacheDrivers i
    fun a b hsame ha => ⟨hsame.1.trans ha.1, hsame.2.1.trans ha.2.1, hsame.2.2.trans ha.2.2⟩
  obtain ⟨path, hpath⟩ := h.path
  exact hkept.vfsGetPath
    ⟨(h.counted₁ hc).setLink i _, _, change_self h.slot _, rfl, rfl, rfl⟩ _ hpath

lemma counted : Counted s₀.cache handles := by
  rw [h.after]
  exact (h.held hc).1.release

lemma linked : Linked s₀.cache target.id ⟨fs, drivers.getRoot fs⟩ := by
  obtain ⟨-, a, ha, hid, htype, hbond⟩ := h.held hc
  obtain ⟨b, hb, h₁, h₂, h₃⟩ := link_release ha i
  rw [h.after]
  exact ⟨i, b, hb, h₁.trans hid, h₂.trans htype, h₃.trans hbond⟩

end

end Mounted

/-- The mountpoint is in the cache as a link already. -/
def IsLink (t : TreeCache) (m : VfsId) : Prop := ∃ a ∈ t, a.id = m ∧ a.type = .link

variable {i : ℕ} {t₁ t₂ : TreeCache} {target : CachedNode}

lemma nonnull_of_get {t : TreeCache} {d : CacheDrivers}
    (h : t.getVfsNode d m true = some (some i, t₁)) : m.driverId ≠ 0 ∧ m.vnodeId ≠ 0 := by
  rcases getVfsNode_cases h with ⟨hlookup, -⟩ | ⟨_, _, _, _, h₁, -⟩
  · exact ⟨hlookup.found.1, hlookup.found.2.1⟩
  · exact ⟨h₁.found.1, h₁.found.2.1⟩

variable (h : Mounted drivers fuel s m fs s₀ i t₁ t₂ target)

include h

/-- The target is the mountpoint itself if this is not a link. -/
lemma Mounted.target_id (hlink : ¬ IsLink s.cache m) : target.id = m := by
  rcases getVfsNode_cases h.get with ⟨hlookup, -⟩ | ⟨j, t, t', node, h₁, hnode, htype, -, h₂, rfl⟩
  · obtain ⟨-, -, b, hb, hid⟩ := hlookup.found
    obtain rfl := some.inj (h.slot.symm.trans hb)
    exact hid
  · rcases h₁.of_bond hnode h₂ with ⟨⟨⟩, -⟩ | ⟨-, -, a, ha, hid, hsame⟩
    exact absurd ⟨a, mem_of_getElem? ha, hid, hsame.2.1 ▸ htype⟩ hlink

/-- **The start**: a mountpoint that was a link already does not lead to the root. -/
lemma Mounted.not_isLink (hc : Counted s.cache handles) (hfs : fs ≠ 0)
    (hlinked : Linked s₀.cache m ⟨fs, drivers.getRoot fs⟩)
    (hopen : Open s₀.cache m ⟨fs, drivers.getRoot fs⟩) : ¬ IsLink s.cache m := by
  rintro ⟨a, hmem, hid, htype⟩
  obtain ⟨j, ha⟩ := mem_iff_getElem?.mp hmem
  obtain ⟨hm, -⟩ := nonnull_of_get h.get
  -- the target is what the link leads to
  have htarget : a.bond = target.id ∧ ∃ b, t₁[j]? = some b ∧ SameLink a b := by
    rcases getVfsNode_cases h.get with ⟨hlookup, -⟩ | ⟨k, t, t', node, h₁, hnode, -, -, h₂, rfl⟩
    · obtain ⟨-, -, b, hb, hbid⟩ := hlookup.found
      obtain rfl := some.inj (h.slot.symm.trans hb)
      rcases hlookup.slot h.slot with ⟨a', ha', hsame⟩ | ⟨-, hfind, -⟩
      · obtain ⟨rfl, rfl⟩ := hc.slot_eq ha hid ha' (hsame.1 ▸ hbid) hm
        rw [← hsame.2.1, (conditions_of_met h.met).1] at htype
        cases htype
      · exact absurd hid (find_eq_none hfind ha)
    · rcases h₁.of_bond hnode h₂ with ⟨⟨⟩, -⟩ | ⟨rfl, hfind, a', ha', hid', hsame⟩
      obtain rfl := some.inj (hfind.symm.trans (hc.find_eq ha hid hm))
      cases ha.symm.trans ha'
      obtain ⟨b, hb, hsame'⟩ := slot_release h.slot
      obtain ⟨-, -, b', hb', hbond⟩ := h₂.found
      cases hb.symm.trans hb'
      refine ⟨by rw [hsame'.1, hbond, hsame.2.2], ?_⟩
      -- the link is referred to during the second lookup
      have hheld : 0 < node.references :=
        some.inj ((change_self ha _).symm.trans hnode) ▸ Nat.succ_pos _
      obtain ⟨b₁, hb₁, hsame₁⟩ := (h₂.sameNode hnode hheld).link hnode
      obtain ⟨b₂, hb₂, hsame₂⟩ := link_release hb₁ k
      exact ⟨b₂, hb₂, hsame.trans (hsame₁.trans hsame₂)⟩
  obtain ⟨hbond, b, hb, hsame⟩ := htarget
  have hij : i ≠ j := by
    rintro rfl
    obtain rfl := some.inj (h.slot.symm.trans hb)
    rw [← hsame.2.1, (conditions_of_met h.met).1] at htype
    cases htype
  have hc₁ := (h.counted₁ hc).setLink i ⟨fs, drivers.getRoot fs⟩
  have hb₁ : (t₁.setLink i ⟨fs, drivers.getRoot fs⟩)[j]? = some b := by
    rw [setLink, getElem?_change, if_neg hij, hb]
  have hkept : KeptBy drivers.toCacheDrivers fun t handles => Counted t handles ∧
      ∀ (j : ℕ) (a : CachedNode), t[j]? = some a → a.id = m →
        a.bond = target.id ∨ a.bond = .null :=
    Counted.keptBy_slots (fun a b hsame hp hid => hsame.2.2 ▸ hp (hsame.1 ▸ hid))
      fun b _ hb _ _ => .inr hb
  obtain ⟨path, hpath⟩ := h.path
  obtain ⟨-, hbonds⟩ := hkept.vfsGetPath ⟨hc₁, fun k d hd hdid => by
    obtain ⟨rfl, rfl⟩ := hc₁.slot_eq hb₁ (hsame.1.trans hid) hd hdid hm
    exact .inl (hsame.2.2.trans hbond)⟩ _ hpath
  -- so the file system is mounted on its own root, which is no directory then
  obtain ⟨k, d, hd, hdid, -, hdbond⟩ := hlinked
  rw [h.after] at hd
  obtain ⟨d', hd', hsame'⟩ := slot_release hd
  have hroot : target.id = ⟨fs, drivers.getRoot fs⟩ := by
    rcases hbonds k d' hd' (hsame'.1 ▸ hdid) with hbond' | hbond'
    · rw [← hbond', ← hsame'.2.2, hdbond]
    · rw [← hsame'.2.2, hdbond] at hbond'
      exact absurd (congrArg VfsId.driverId hbond') hfs
  obtain ⟨l, e, he, heid, hetype, -⟩ := h.linked hc
  rcases hopen with ⟨l', e', he', heid', hetype'⟩ | ⟨hnone, -⟩
  · obtain ⟨rfl, rfl⟩ := (h.counted hc).slot_eq he (heid.trans hroot) he' heid' hfs
    cases hetype.symm.trans hetype'
  · exact find_eq_none hnone he (heid.trans hroot)

end Vfs

/-! ### What is done on the mountpoint -/

/-- **What is done on `m` is done on `root`**, as far as the drivers are asked.  The name `..` is
left out where it leads out of the file system. -/
structure ActsOn (drivers : FsDrivers) (m root : VfsId) (t : TreeCache) : Prop where
  node : ∃ j t' b, t.getVfsNode drivers.toCacheDrivers m true = some (some j, t') ∧
    t'[j]? = some b ∧ b.id = root
  findChild : ∀ (mountpoints : List VfsMountInfo) (name : List UInt8), trimName name ≠ [] →
    ¬ (trimName name = dotDot ∧ m.vnodeId = drivers.getRoot root.driverId) →
    ∃ data t', drivers.vfsFindChild mountpoints t m name =
      (drivers.findChild root.driverId root.vnodeId data (some (trimName name))).map fun found =>
        (if found = npkInvalidHandle then none else some ⟨root.driverId, found⟩, t')
  readDir : ∃ data t', drivers.vfsReadDir t m =
    (drivers.readDir root.driverId root.vnodeId data).map fun entries => (entries, t')
  create : ∀ (W : Type) (world : FsWorld W) (w : W) (s : Vfs) (type : NodeType)
    (name : List UInt8), world.drivers w = drivers → s.cache = t →
    ∃ data s', s.vfsCreate world w m type name =
      (world.create w root.driverId root.vnodeId data type (some (trimName name))).map fun h =>
        (if h.1 = npkInvalidHandle then none else some ⟨root.driverId, h.1⟩, s', h.2)

namespace TreeCache

variable {t : TreeCache} {handles : List ℕ} {m root : VfsId}

lemma Serves.actsOn {drivers : FsDrivers} (hdrivers : Serves drivers.toCacheDrivers root)
    {j : ℕ} {t' : TreeCache} {b : CachedNode}
    (hget : t.getVfsNode drivers.toCacheDrivers m true = some (some j, t'))
    (hb : t'[j]? = some b) (hid : b.id = root) (htype : b.type = .directory) :
    ActsOn drivers m root t where
  node := ⟨j, t', b, hget, hb, hid⟩
  findChild := by
    intro mountpoints name hname hdots
    refine ⟨b.driverData, t'.release j, ?_⟩
    rw [vfsFindChild, if_neg hname, hget, bind_some]
    dsimp only
    rw [hb, bind_some, hid, if_neg (by simp [hdrivers.api]), if_neg hdots]
    rw [findIn, hid]
  readDir := by
    refine ⟨b.driverData, t'.release j, ?_⟩
    rw [vfsReadDir, hget, bind_some]
    dsimp only
    rw [hb, bind_some, hid, if_neg (by simp [hdrivers.api]), if_neg (by simp [htype])]
  create := by
    rintro W world w s type name rfl rfl
    refine ⟨b.driverData, { s with cache := t'.release j }, ?_⟩
    rw [Vfs.vfsCreate, hget, bind_some]
    dsimp only
    rw [hb, bind_some, hid, if_neg (by simp [hdrivers.api]), if_neg (by simp [htype])]

/-- Drivers all of whose nodes are directories, and of these only the root can be read. -/
def plainDrivers (root : VfsId) : FsDrivers where
  getApi := fun _ => true
  exitCache := fun _ _ _ => true
  enterCache := fun _ _ => some (.directory, 0)
  isFilesystem := fun _ => true
  getRoot := fun _ => root.vnodeId
  mount := fun _ => true
  findChild := fun _ _ _ _ => some npkInvalidHandle
  getAttribs := fun _ _ _ => some none
  readDir := fun driverId vnodeId _ =>
    some (if (⟨driverId, vnodeId⟩ : VfsId) = root then some [] else none)

/-- **What is done on the mountpoint is done on the root**, whatever the drivers are, exactly if the
cache has the link and there is room for the root. -/
lemma Counted.actsOn_iff (hc : Counted t handles) (hm : m.driverId ≠ 0) (hm' : m.vnodeId ≠ 0) :
    (∀ drivers : FsDrivers, Serves drivers.toCacheDrivers root → ActsOn drivers m root t) ↔
      (root.driverId ≠ 0 ∧ root.vnodeId ≠ 0) ∧ (m ≠ root → Linked t m root) ∧ Open t m root := by
  constructor
  · intro hacts
    have hserves : Serves (plainDrivers root).toCacheDrivers root :=
      ⟨fun _ => rfl, fun _ _ _ => rfl, 0, rfl⟩
    -- the directory that `VfsReadDir` reads can only be the root
    obtain ⟨data, t', hread⟩ := (hacts _ hserves).readDir
    have hroot : (plainDrivers root).readDir root.driverId root.vnodeId data = some (some []) := by
      simp [plainDrivers]
    rw [hroot] at hread
    obtain ⟨⟨r, t₁⟩, hget, hread⟩ := bind_eq_some_iff.mp hread
    cases r with
    | none => cases hread
    | some j =>
      obtain ⟨b, hb, hread⟩ := bind_eq_some_iff.mp hread
      split_ifs at hread with hapi htype
      · cases hread
      · cases hread
      obtain ⟨entries, hentries, hread⟩ := map_eq_some_iff.mp hread
      cases hread
      have hid : b.id = root := by
        by_contra hne
        simp [plainDrivers, hne] at hentries
      obtain ⟨h₁, h₂, h₃, h₄⟩ := linked_of_getVfsNode hc hget hb hid (not_not.mp htype)
      exact ⟨⟨h₁, h₂⟩, h₃, h₄⟩
  · rintro ⟨⟨hdriver, hvnode⟩, hlink, hopen⟩ drivers hdrivers
    obtain ⟨j, t', b, hget, hb, hid, htype⟩ :=
      hdrivers.getVfsNode_root hm hm' hdriver hvnode hc hlink hopen
    exact hdrivers.actsOn hget hb hid htype

end TreeCache

/-! ### Later lookups -/

namespace CacheState

open TreeCache

variable {s s' : CacheState} {m root : VfsId}

/-- **The step lemma** for a node that stays in the cache. -/
lemma linked_step {op : CacheOp} (hc : Counted s.cache s.handles) (hm : m.driverId ≠ 0)
    (hlink : Linked s.cache m root) (hstep : s.step op = some s') {j : ℕ} {b : CachedNode}
    (hb : s'.cache[j]? = some b) (hid : b.id = m) : Linked s'.cache m root := by
  obtain ⟨i, a, ha, haid, htype, hbond⟩ := hlink
  have hsame : ∃ a', s.cache[j]? = some a' ∧ SameLink a' b := by
    cases op with
    | getVfsNode id traverseLinks drivers =>
      obtain ⟨⟨r, t⟩, hget, rfl⟩ := map_eq_some_iff.mp hstep
      rcases getVfsNode_slot hget hb with hsame | hfind
      · exact hsame
      · exact absurd (haid.trans hid.symm) (find_eq_none hfind ha)
    | copy k =>
      obtain ⟨-, hstep⟩ := ite_none_right_eq_some.mp hstep
      cases hstep
      exact slot_acquire hb
    | release k =>
      obtain ⟨-, hstep⟩ := ite_none_right_eq_some.mp hstep
      cases hstep
      exact slot_release hb
  obtain ⟨a', ha', hsame⟩ := hsame
  obtain ⟨rfl, rfl⟩ := hc.slot_eq ha haid ha' (hsame.1 ▸ hid) hm
  exact ⟨i, b, hb, hid, hsame.2.1.trans htype, hsame.2.2.trans hbond⟩

/-- **The condition on a later step**: the mountpoint stays in the cache, and so does the root, as a
directory, or there is room for it. -/
def Keeps (m root : VfsId) (s : CacheState) (op : CacheOp) : Prop :=
  ∀ s', s.step op = some s' →
    (m ≠ root → ∃ (j : ℕ) (b : CachedNode), s'.cache[j]? = some b ∧ b.id = m) ∧
      Open s'.cache m root

/-- What is done on the mountpoint is done on the root, whatever the drivers are. -/
def Holds (m root : VfsId) (s : CacheState) : Prop :=
  ∀ drivers : FsDrivers, Serves drivers.toCacheDrivers root → ActsOn drivers m root s.cache

end CacheState

open TreeCache CacheState in
/-- **After a successful mount**, and after every sequence of lookups, copies and releases of handles,
what is done on the mountpoint is done on the root of the file system exactly if the mountpoint
was not a link before, and it stays in the cache, with the root or with room for it. -/
theorem mount_holds_iff {drivers : FsDrivers} {fuel fs : ℕ} {s s₀ : Vfs} {m : VfsId}
    {handles : List ℕ} (hc : Counted s.cache handles)
    (hmount : s.vfsMount drivers fuel m fs = some (true, s₀)) (ops : List CacheOp) :
    Always CacheState.step (Holds m ⟨fs, drivers.getRoot fs⟩) ⟨s₀.cache, handles⟩ ops ↔
      (fs ≠ 0 ∧ drivers.getRoot fs ≠ 0) ∧
      (m ≠ ⟨fs, drivers.getRoot fs⟩ → ¬ Vfs.IsLink s.cache m) ∧
      Open s₀.cache m ⟨fs, drivers.getRoot fs⟩ ∧
      Allowed CacheState.step (Keeps m ⟨fs, drivers.getRoot fs⟩) ⟨s₀.cache, handles⟩ ops := by
  obtain ⟨i, t₁, t₂, target, h⟩ := Vfs.mounted_of_eq hmount
  obtain ⟨hm, hm'⟩ := Vfs.nonnull_of_get h.get
  obtain ⟨root, hroot⟩ : ∃ root : VfsId, root = ⟨fs, drivers.getRoot fs⟩ := ⟨_, rfl⟩
  have hc₀ : Counted s₀.cache handles := h.counted hc
  have hlinked : m ≠ root → (¬ Vfs.IsLink s.cache m) → Linked s₀.cache m root := by
    intro _ hnot
    rw [hroot, ← h.target_id hnot]
    exact h.linked hc
  have hstart : Holds m root ⟨s₀.cache, handles⟩ ↔ (fs ≠ 0 ∧ drivers.getRoot fs ≠ 0) ∧
      (m ≠ root → ¬ Vfs.IsLink s.cache m) ∧ Open s₀.cache m root := by
    rw [Holds, hc₀.actsOn_iff hm hm', hroot]
    refine and_congr_right fun hnull => and_congr_left fun hopen => ?_
    constructor
    · exact fun hlink hne => h.not_isLink hc hnull.1 (hlink hne) hopen
    · exact fun hnot hne => hroot ▸ hlinked (hroot ▸ hne) (hnot hne)
  rw [← hroot, ← and_assoc (a := m ≠ root → _), ← and_assoc, ← hstart]
  by_cases hholds : Holds m root ⟨s₀.cache, handles⟩
  · rw [and_iff_right hholds]
    refine always_iff_allowed (fun s => Counted s.cache s.handles) _ (fun s op hc hs => ?_)
      (fun s op s' hc _ hstep => (counted_step hc hstep).1) hc₀ hholds ops
    obtain ⟨hnull, hlink, -⟩ := (hc.actsOn_iff hm hm').mp hs
    refine forall_congr' fun s' => forall_congr' fun hstep => ?_
    rw [Holds, (counted_step hc hstep).1.actsOn_iff hm hm', and_iff_right hnull]
    refine and_congr_left fun _ => forall_congr' fun hne => ?_
    constructor
    · rintro ⟨j, b, hb, hid, -⟩
      exact ⟨j, b, hb, hid⟩
    · rintro ⟨j, b, hb, hid⟩
      exact linked_step hc hm (hlink hne) hstep hb hid
  · refine iff_of_false (fun halways => hholds ?_) (fun hand => hholds hand.1)
    cases ops with
    | nil => exact halways
    | cons op ops => exact halways.1

/-! ### A mountpoint that is evicted -/

/-- Drivers with empty directories only, whose roots have the handle 1. -/
def emptyDirs : FsDrivers where
  getApi := fun _ => true
  exitCache := fun _ _ _ => true
  enterCache := fun _ _ => some (.directory, 0)
  isFilesystem := fun _ => true
  getRoot := fun _ => 1
  mount := fun _ => true
  findChild := fun _ _ _ name => some (if name = some dotDot then 1 else npkInvalidHandle)
  getAttribs := fun _ _ _ => some (some ⟨0, [109]⟩)
  readDir := fun _ _ _ => some (some [])

/-- The VFS after the file system 2 has been mounted on the directory 2 of the root file system. -/
def mountedOnce : Vfs where
  cache := ⟨0, .link, 0, ⟨1, 2⟩, ⟨2, 1⟩, false⟩ :: ⟨0, .directory, 0, ⟨2, 1⟩, .null, false⟩ ::
    ⟨0, .directory, 0, ⟨1, 1⟩, .null, false⟩ :: replicate 125 .empty
  mountpoints := [⟨.null, 1, ⟨false, false⟩⟩, ⟨⟨1, 2⟩, 2, ⟨false, false⟩⟩]
  rootNodeId := ⟨1, 1⟩

lemma vfsMount_mountedOnce :
    (Vfs.init emptyDirs 1).vfsMount emptyDirs 4 ⟨1, 2⟩ 2 = some (true, mountedOnce) := by
  decide +kernel

/-- Nodes of the file system 3 are looked up, one after the other, and their handles released. -/
def lookAround (n : ℕ) : List CacheOp :=
  (range n).flatMap fun k =>
    [.getVfsNode ⟨3, k + 3⟩ true emptyDirs.toCacheDrivers, .release (k + 3)]

namespace TreeCache

/-- The first `k` slots are in use, and the mountpoint is in the first one. -/
structure Filled (k : ℕ) (t : TreeCache) : Prop where
  length : t.length = treeCacheInitialSize
  slot : ∀ (j : ℕ) (a : CachedNode), t[j]? = some a → a.references = 0 ∧ a.busy = false ∧
    (a.id.vnodeId = 0 ↔ k ≤ j) ∧ (a.id.driverId = 3 → a.id.vnodeId < k) ∧
    (a.id = ⟨1, 2⟩ → j = 0)

variable {t : TreeCache} {k l : ℕ}

lemma filled_mountedOnce : Filled 3 mountedOnce.cache := by
  refine ⟨rfl, fun j a ha => ?_⟩
  rcases j with _ | _ | _ | j
  iterate 3
    · cases ha
      decide
  · rw [eq_of_mem_replicate (mem_of_getElem? ha)]
    simp [CachedNode.empty, VfsId.null]

/-- A node that is not in the cache is entered into the first empty slot, or else into the first
one. -/
lemma Filled.getVfsNode (h : Filled k t) (hk : 0 < k)
    (hl : l = if k < treeCacheInitialSize then k else 0) :
    t.getVfsNode emptyDirs.toCacheDrivers ⟨3, k⟩ true =
      some (some l, t.set l ⟨1, .directory, 0, ⟨3, k⟩, .null, false⟩) := by
  have hsize : (0 : ℕ) < treeCacheInitialSize := by decide
  have hlt : l < t.length := by
    rw [h.length, hl]
    split_ifs with hfull
    · exact hfull
    · exact hsize
  have husable : ∀ j, j < t.length → t.Usable j := fun j hj =>
    ⟨t[j], getElem?_eq_getElem hj, (h.slot j _ (getElem?_eq_getElem hj)).1,
      (h.slot j _ (getElem?_eq_getElem hj)).2.1⟩
  have hempty : ∀ j, j < t.length → (t.isEmpty j = true ↔ k ≤ j) := by
    intro j hj
    rw [isEmpty, getElem?_eq_getElem hj, ← (h.slot j _ (getElem?_eq_getElem hj)).2.2.1]
    simp
  have hfind : t.find ⟨3, k⟩ = none := by
    cases hfind : t.find ⟨3, k⟩ with
    | none => rfl
    | some j =>
      obtain ⟨a, ha, hid⟩ := find_eq_some hfind
      have := (h.slot j a ha).2.2.2.1 (by rw [hid])
      rw [hid] at this
      exact absurd this (lt_irrefl k)
  have hchosen : t.chosen = some l := by
    refine chosen_eq (husable l hlt) fun j hj => ?_
    obtain ⟨slot, hslot, -⟩ := hj
    have hj := (List.getElem?_eq_some_iff.mp hslot).1
    have hl' := hempty l hlt
    have hj' := hempty j hj
    rw [h.length] at hj
    constructor
    · intro hjempty
      rw [hl', hl, if_pos (lt_of_le_of_lt (hj'.mp hjempty) hj)]
    · intro heq
      rw [heq, hj'] at hl'
      split_ifs at hl with hfull
      · rw [hl] at hl' ⊢
        exact hl'.mpr le_rfl
      · omega
  have henter : emptyDirs.enterCache 3 k = some (.directory, 0) := rfl
  have hdriver : (⟨3, k⟩ : VfsId).driverId ≠ 0 := Nat.succ_ne_zero 2
  obtain ⟨l', hl', heq⟩ := getVfsNodeInternal_enter hdriver hk.ne' hfind ⟨l, husable l hlt⟩
    (fun _ => rfl) (fun _ _ _ => rfl) henter
  cases hchosen.symm.trans hl'
  rw [TreeCache.getVfsNode, heq, bind_some]
  dsimp only
  rw [getElem?_set_self hlt]
  rfl

/-- **The step**: one more slot is in use. -/
lemma Filled.step (h : Filled k t) (hk : 0 < k) (hlt : k < treeCacheInitialSize) :
    ∃ t', run CacheState.step ⟨t, []⟩
      [.getVfsNode ⟨3, k⟩ true emptyDirs.toCacheDrivers, .release k] = some ⟨t', []⟩ ∧
        Filled (k + 1) t' := by
  refine ⟨t.set k ⟨0, .directory, 0, ⟨3, k⟩, .null, false⟩, ?_, by simp [h.length], ?_⟩
  · have hget := h.getVfsNode hk (if_pos hlt).symm
    have hrelease : release (t.set k ⟨1, .directory, 0, ⟨3, k⟩, .null, false⟩) k =
        t.set k ⟨0, .directory, 0, ⟨3, k⟩, .null, false⟩ := by
      refine ext_getElem? fun j => ?_
      rw [release, getElem?_change, getElem?_set, getElem?_set]
      split_ifs <;> rfl
    simp [run, CacheState.step, hget, hrelease]
  · intro j a ha
    rw [getElem?_set] at ha
    split_ifs at ha with hkj
    · cases ha
      refine ⟨rfl, rfl, ?_, fun _ => Nat.lt_succ_self k, fun hid => ?_⟩
      · show k = 0 ↔ k + 1 ≤ j
        omega
      · exact absurd (congrArg VfsId.driverId hid) (show (3 : ℕ) ≠ 1 by decide)
    · obtain ⟨h₁, h₂, h₃, h₄, h₅⟩ := h.slot j a ha
      exact ⟨h₁, h₂, by rw [h₃]; omega, fun hid => (h₄ hid).trans (Nat.lt_succ_self k), h₅⟩

/-- By induction on the number of lookups. -/
lemma filled_lookAround (n : ℕ) (hn : n ≤ 125) : ∃ t,
    run CacheState.step ⟨mountedOnce.cache, []⟩ (lookAround n) = some ⟨t, []⟩ ∧
      Filled (n + 3) t := by
  induction n with
  | zero => exact ⟨mountedOnce.cache, rfl, filled_mountedOnce⟩
  | succ n ih =>
    obtain ⟨t, hrun, hfilled⟩ := ih (by omega)
    obtain ⟨t', hstep, hfilled'⟩ := hfilled.step (by omega) (by rw [treeCacheInitialSize]; omega)
    refine ⟨t', ?_, hfilled'⟩
    rw [lookAround, range_succ, flatMap_append, run_append]
    rw [lookAround] at hrun
    rw [hrun, bind_some, flatMap_singleton, hstep]

end TreeCache

open TreeCache CacheState in
/-- **A mountpoint is evicted**: after 126 lookups the mountpoint is a plain directory again. -/
theorem mountpoint_evicted :
    (Vfs.init emptyDirs 1).vfsMount emptyDirs 4 ⟨1, 2⟩ 2 = some (true, mountedOnce) ∧
      ¬ Always CacheState.step (Holds ⟨1, 2⟩ ⟨2, 1⟩) ⟨mountedOnce.cache, []⟩
        (lookAround 125 ++ [.getVfsNode ⟨3, 128⟩ true emptyDirs.toCacheDrivers]) := by
  refine ⟨vfsMount_mountedOnce, fun halways => ?_⟩
  obtain ⟨t, hrun, hfilled⟩ := filled_lookAround 125 le_rfl
  have hget := hfilled.getVfsNode (by decide) (if_neg (by decide)).symm
  have hrun' : run CacheState.step ⟨mountedOnce.cache, []⟩
      (lookAround 125 ++ [.getVfsNode ⟨3, 128⟩ true emptyDirs.toCacheDrivers]) =
        some ⟨t.set 0 ⟨1, .directory, 0, ⟨3, 128⟩, .null, false⟩, [0]⟩ := by
    rw [run_append, hrun]
    simp [run, CacheState.step, hget]
  have hcounted : Counted mountedOnce.cache [] := by
    obtain ⟨i, t₁, t₂, target, h⟩ := Vfs.mounted_of_eq vfsMount_mountedOnce
    exact h.counted (counted_init 128)
  have hcounted' := (always_of_invariant (fun s => Counted s.cache s.handles) (fun _ h => h)
    (fun _ _ _ h hstep => (counted_step h hstep).1) (s := ⟨mountedOnce.cache, []⟩) hcounted
    _).of_run hrun'
  obtain ⟨-, hlink, -⟩ := (hcounted'.actsOn_iff (by decide) (by decide)).mp (halways.of_run hrun')
  obtain ⟨j, a, ha, hid, -⟩ := hlink (by decide)
  rw [getElem?_set] at ha
  split_ifs at ha with hj
  · cases ha
    cases hid
  · exact hj ((hfilled.slot j a ha).2.2.2.2 hid).symm

open TreeCache CacheState in
/-- A mount, and a lookup after it. -/
theorem mount_holds_iff_mountedOnce :
    Counted (Vfs.init emptyDirs 1).cache [] ∧
      (Vfs.init emptyDirs 1).vfsMount emptyDirs 4 ⟨1, 2⟩ 2 = some (true, mountedOnce) ∧
      (Always CacheState.step (Holds ⟨1, 2⟩ ⟨2, 1⟩) ⟨mountedOnce.cache, []⟩ (lookAround 1) ↔
        ((2 : ℕ) ≠ 0 ∧ (1 : ℕ) ≠ 0) ∧
        ((⟨1, 2⟩ : VfsId) ≠ ⟨2, 1⟩ → ¬ Vfs.IsLink (Vfs.init emptyDirs 1).cache ⟨1, 2⟩) ∧
        Open mountedOnce.cache ⟨1, 2⟩ ⟨2, 1⟩ ∧
        Allowed CacheState.step (Keeps ⟨1, 2⟩ ⟨2, 1⟩) ⟨mountedOnce.cache, []⟩ (lookAround 1)) :=
  ⟨counted_init 128, vfsMount_mountedOnce,
    mount_holds_iff (counted_init 128) vfsMount_mountedOnce (lookAround 1)⟩

end Northport.Filesystem
