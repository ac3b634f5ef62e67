/-
# The tree of the VFS, as the cache shows it

The nodes that a lookup can reach from the root directory are in the cache on the way to
them: a child is found by its name, and if it is a link in the cache, the way goes on at the
root of the file system that is mounted there.  `Reach` is this way.  As long as no node
leaves the cache it can be gone again, and `..` leads back.
-/
import Northport.Filesystem.CacheSlots

namespace Northport.Filesystem

open Lib Syslib List Option FsDrivers

namespace TreeCache

variable {drivers : CacheDrivers} {t t' t'' : TreeCache} {handles : List ℕ} {id x : VfsId}
  {i j : ℕ} {a b : CachedNode} {r : Option ℕ}

/-! ### Caches that only grow -/

/-- The nodes of the first cache are also in the second one, in the same slots. -/
def Grows (t t' : TreeCache) : Prop :=
  ∀ (j : ℕ) (a : CachedNode), t[j]? = some a → a.id.driverId ≠ 0 →
    ∃ b, t'[j]? = some b ∧ SameLink a b

lemma Grows.refl (t : TreeCache) : Grows t t := fun _ a ha _ => ⟨a, ha, rfl, rfl, rfl⟩

lemma Grows.trans (h : Grows t t') (h' : Grows t' t'') : Grows t t'' := by
  intro j a ha hid
  obtain ⟨b, hb, hsame⟩ := h j a ha hid
  obtain ⟨d, hd, hsame'⟩ := h' j b hb (hsame.1 ▸ hid)
  exact ⟨d, hd, hsame.trans hsame'⟩

lemma grows_acquire (t : TreeCache) (i : ℕ) : Grows t (t.acquire i) :=
  fun _ _ ha _ => link_acquire ha i

lemma grows_release (t : TreeCache) (i : ℕ) : Grows t (t.release i) :=
  fun _ _ ha _ => link_release ha i

/-- When the drivers let no node leave the cache, a lookup that ends does not evict one. -/
lemma Lookup.grows (hkeep : ∀ d n data, drivers.exitCache d n data = false)
    (h : Lookup drivers t id r t') : Grows t t' := by
  cases h with
  | null _ => exact .refl t
  | full _ _ _ _ => exact .refl t
  | hit i _ _ _ => exact grows_acquire t i
  | failed k slot driverData _ _ _ _ hslot _ =>
    intro j a ha _
    by_cases hkj : k = j
    · subst hkj
      cases hslot.symm.trans ha
      exact ⟨_, getElem?_set_slot hslot _, rfl, rfl, rfl⟩
    · exact ⟨a, by rw [getElem?_set_ne hkj, ha], rfl, rfl, rfl⟩
  | entered k slot type driverData _ _ _ _ hslot _ _ hexit =>
    intro j a ha hid
    have hkj : k ≠ j := by
      rintro rfl
      cases hslot.symm.trans ha
      have := hexit hid
      rw [hkeep] at this
      cases this
    exact ⟨a, by rw [getElem?_set_ne hkj, ha], rfl, rfl, rfl⟩

lemma getVfsNode_grows {traverseLinks : Bool}
    (hkeep : ∀ d n data, drivers.exitCache d n data = false)
    (h : t.getVfsNode drivers id traverseLinks = some (r, t')) : Grows t t' := by
  rcases getVfsNode_cases h with ⟨hlookup, -⟩ | ⟨i, t₁, t₂, node, h₁, -, -, -, h₂, rfl⟩
  · exact hlookup.grows hkeep
  · exact ((h₁.grows hkeep).trans (h₂.grows hkeep)).trans (grows_release t₂ i)

/-! ### Nodes in the cache -/

/-- The node is in the cache and is no link. -/
def IsPlain (t : TreeCache) (x : VfsId) : Prop :=
  (x.driverId ≠ 0 ∧ x.vnodeId ≠ 0) ∧
    ∃ (i : ℕ) (a : CachedNode), t[i]? = some a ∧ a.id = x ∧ a.type ≠ .link

lemma IsPlain.mono (h : IsPlain t x) (hgrows : Grows t t') : IsPlain t' x := by
  obtain ⟨hnull, i, a, ha, hid, htype⟩ := h
  obtain ⟨b, hb, hsame⟩ := hgrows i a ha (hid ▸ hnull.1)
  exact ⟨hnull, i, b, hb, hsame.1.trans hid, hsame.2.1 ▸ htype⟩

lemma Linked.mono {m root : VfsId} (h : Linked t m root) (hm : m.driverId ≠ 0)
    (hgrows : Grows t t') : Linked t' m root := by
  obtain ⟨i, a, ha, hid, htype, hbond⟩ := h
  obtain ⟨b, hb, hsame⟩ := hgrows i a ha (hid ▸ hm)
  exact ⟨i, b, hb, hsame.1.trans hid, hsame.2.1.trans htype, hsame.2.2.trans hbond⟩

/-- What a lookup that hits leaves behind. -/
structure Hit (t : TreeCache) (handles : List ℕ) (x : VfsId) (i : ℕ) (t' : TreeCache)
    (a : CachedNode) : Prop where
  slot : t'[i]? = some a
  id : a.id = x
  counted : Counted t' (i :: handles)
  grows : Grows t t'

variable (drivers) in
/-- `GetVfsNode` of a node in the cache. -/
lemma Counted.hit_false (hc : Counted t handles) (ha : t[i]? = some a) (hid : a.id = x)
    (hnull : x.driverId ≠ 0 ∧ x.vnodeId ≠ 0) : ∃ t' b,
      t.getVfsNode drivers x false = some (some i, t') ∧ Hit t handles x i t' b := by
  have hlt := (List.getElem?_eq_some_iff.mp ha).1
  refine ⟨t.acquire i, _, ?_, change_self ha _, hid, hc.acquire hlt, grows_acquire t i⟩
  rw [TreeCache.getVfsNode, getVfsNodeInternal_hit hnull.1 hnull.2 (hc.find_eq ha hid hnull.1),
    bind_some]
  dsimp only
  rw [TreeCache.acquire, change_self ha]
  rfl

variable (drivers) in
/-- `GetVfsNode` of a node in the cache that is no link. -/
lemma Counted.hit_plain (hc : Counted t handles) (hx : IsPlain t x) : ∃ i t' a,
    t.getVfsNode drivers x true = some (some i, t') ∧ Hit t handles x i t' a := by
  obtain ⟨hnull, i, a, ha, hid, htype⟩ := hx
  have hlt := (List.getElem?_eq_some_iff.mp ha).1
  exact ⟨i, t.acquire i, _, getVfsNode_of_plain
    (getVfsNodeInternal_hit hnull.1 hnull.2 (hc.find_eq ha hid hnull.1)) (change_self ha _) htype,
    change_self ha _, hid, hc.acquire hlt, grows_acquire t i⟩

variable (drivers) in
/-- `GetVfsNode` of a link in the cache to a node in the cache. -/
lemma Counted.hit_link {m : VfsId} (hc : Counted t handles) (hlink : Linked t m x)
    (hm : m.driverId ≠ 0 ∧ m.vnodeId ≠ 0) (hx : IsPlain t x) : ∃ i t' a,
    t.getVfsNode drivers m true = some (some i, t') ∧ Hit t handles x i t' a := by
  obtain ⟨l, d, hd, hdid, hdtype, hdbond⟩ := hlink
  have hlt := (List.getElem?_eq_some_iff.mp hd).1
  have hc₁ := hc.acquire hlt
  obtain ⟨hnull, i, a, ha, hid, htype⟩ := hx.mono (grows_acquire t l)
  have hlt' := (List.getElem?_eq_some_iff.mp ha).1
  have hc₂ := (hc₁.acquire hlt').perm (List.Perm.swap l i handles)
  have hget := getVfsNode_of_link
    (getVfsNodeInternal_hit hm.1 hm.2 (hc.find_eq hd hdid hm.1)) (change_self hd _) hdtype
    (show (t.acquire l).getVfsNodeInternal drivers d.bond = _ by
      rw [hdbond]
      exact getVfsNodeInternal_hit hnull.1 hnull.2 (hc₁.find_eq ha hid hnull.1))
  have hgrows : Grows (t.acquire l) (((t.acquire l).acquire i).release l) :=
    (grows_acquire _ i).trans (grows_release _ l)
  obtain ⟨b, hb, hsame⟩ := hgrows i a ha (hid ▸ hnull.1)
  exact ⟨i, _, b, hget, hb, hsame.1.trans hid, hc₂.release, (grows_acquire t l).trans hgrows⟩

variable (drivers) in
/-- The node `m` is taken while there is a handle to the node `x`, which is given back then. -/
lemma Hit.above {m : VfsId} {t₁ : TreeCache} (hhit : Hit t handles x j t₁ b) (ha : t[i]? = some a)
    (hid : a.id = m) (hm : m.driverId ≠ 0 ∧ m.vnodeId ≠ 0) : ∃ t₂ e,
      t₁.getVfsNode drivers m false = some (some i, t₂) ∧ (t₂.release j)[i]? = some e ∧ e.id = m ∧
        Grows t ((t₂.release j).release i) := by
  obtain ⟨a₁, ha₁, hsame⟩ := hhit.grows i a ha (hid ▸ hm.1)
  obtain ⟨t₂, d, hget, hhit'⟩ := hhit.counted.hit_false drivers ha₁ (hsame.1.trans hid) hm
  obtain ⟨e, he, hsame'⟩ := link_release hhit'.slot j
  exact ⟨t₂, e, hget, he, hsame'.1.trans hhit'.id,
    ((hhit.grows.trans hhit'.grows).trans (grows_release t₂ j)).trans (grows_release _ i)⟩

end TreeCache

/-! ### What is known of the file systems -/

/-- A child with its name, as its driver knows it. -/
structure Child (drivers : FsDrivers) (driverId dir : ℕ) (name : List UInt8) (k : ℕ) : Prop where
  api : drivers.getApi driverId = true
  plain : Url.Plain name
  notDots : name ≠ dotDot
  dirNull : dir ≠ npkInvalidHandle
  handle : k ≠ npkInvalidHandle ∧ k ≠ 1
  found : ∀ data, drivers.findChild driverId dir data (some name) = some k
  parent : ∀ data, drivers.findChild driverId k data (some dotDot) = some dir
  attribs : ∀ data, ∃ size, drivers.getAttribs driverId k data = some (some ⟨size, name⟩)

/-- Drivers all of whose file systems are trees with plain names, with the root 1. -/
structure TreeDrivers (drivers : FsDrivers) : Prop where
  root : ∀ driverId, drivers.getRoot driverId = 1
  rootType : ∀ driverId type data, drivers.enterCache driverId 1 = some (type, data) →
    type ≠ .link
  self : ∀ driverId dir data k, drivers.findChild driverId dir data (some dot) = some k → k = dir
  child : ∀ driverId dir data name k, name ≠ [] → name ≠ dot → name ≠ dotDot →
    drivers.findChild driverId dir data (some name) = some k → k ≠ npkInvalidHandle →
      Child drivers driverId dir name k

/-- The list of mountpoints: the root file system is mounted nowhere, and every other one in one
place, which is no root. -/
structure MountTable (drivers : FsDrivers) (mountpoints : List VfsMountInfo) (root : VfsId) :
    Prop where
  null : root.driverId ≠ 0
  vnode : root.vnodeId = 1
  api : drivers.getApi root.driverId = true
  rootFs : occludedId mountpoints root.driverId = none
  mounted : ∀ e ∈ mountpoints, e.occludedDir.driverId ≠ 0 →
    occludedId mountpoints e.driverId = some e.occludedDir ∧ drivers.getApi e.driverId = true ∧
      e.occludedDir.vnodeId ≠ 1

/-- A node has a bond only to the root of the file system that is mounted on it, and a root is no
link for its driver. -/
def SlotOf (mountpoints : List VfsMountInfo) (a : CachedNode) : Prop :=
  (a.bond ≠ .null → a.id.driverId ≠ 0 ∧
      ∃ e ∈ mountpoints, e.occludedDir = a.id ∧ a.bond = ⟨e.driverId, 1⟩) ∧
    (a.id.vnodeId = 1 → a.bond = .null → a.type ≠ .link)

/-- The cache of a VFS with these mountpoints. -/
def Sane (mountpoints : List VfsMountInfo) (t : TreeCache) (handles : List ℕ) : Prop :=
  TreeCache.Counted t handles ∧ ∀ (j : ℕ) (a : CachedNode), t[j]? = some a → SlotOf mountpoints a

open TreeCache

variable {drivers : FsDrivers} {mountpoints : List VfsMountInfo} {t t' : TreeCache}
  {handles : List ℕ} {root x y m : VfsId} {name : List UInt8} {names : List (List UInt8)}

lemma Sane.keptBy
    (hroot : ∀ driverId type data, drivers.enterCache driverId 1 = some (type, data) →
      type ≠ .link) (mountpoints : List VfsMountInfo) :
    KeptBy drivers.toCacheDrivers (Sane mountpoints) :=
  Counted.keptBy_slots
    (fun a b hsame ha => by rwa [SlotOf, hsame.1, hsame.2.1, hsame.2.2])
    fun b data hbond henter => ⟨fun hne => absurd hbond hne, fun hid _ =>
      hroot b.id.driverId b.type data (by rwa [hid] at henter)⟩

lemma trimName_plain (h : Url.Plain name) : trimName name = name := by
  rw [trimName, rdropWhile_eq_self_iff]
  intro hl hzero
  exact (h.2 _ (getLast_mem hl)).2.2.2.2.2 (of_decide_eq_true hzero)

lemma stringOfSpan_plain (h : Url.Plain name) : stringOfSpan name = name := by
  rw [stringOfSpan, if_neg]
  intro hlast
  exact (h.2 0 (mem_of_getLast? hlast)).2.2.2.2.2 rfl

/-! ### Children and parents of nodes in the cache -/

/-- `VfsFindChild` of `x` asks the driver of `y`. -/
def Finds (drivers : FsDrivers) (mountpoints : List VfsMountInfo) (t : TreeCache) (x : VfsId)
    (name : List UInt8) (y : VfsId) : Prop :=
  ∃ data t', Grows t t' ∧ drivers.vfsFindChild mountpoints t x name =
    (drivers.findChild y.driverId y.vnodeId data (some (trimName name))).map fun found =>
      (if found = npkInvalidHandle then none else some ⟨y.driverId, found⟩, t')

/-- `VfsGetAttribs` of `x` asks the driver of `y`. -/
def Describes (drivers : FsDrivers) (mountpoints : List VfsMountInfo) (t : TreeCache)
    (x y : VfsId) : Prop :=
  ∃ data type t', Grows t t' ∧ drivers.vfsGetAttribs mountpoints t x =
    (drivers.getAttribs y.driverId y.vnodeId data).map fun store =>
      (store.map fun store => ⟨type, store.size, stringOfSpan store.name⟩, t')

section

variable (hdrivers : TreeDrivers drivers) (hc : Sane mountpoints t handles)
include hdrivers hc

/-- `VfsFindChild` in a directory in the cache. -/
lemma Sane.vfsFindChild
    (hy : IsPlain t y) (hapi : drivers.getApi y.driverId = true) (hname : trimName name ≠ [])
    (hdots : ¬ (trimName name = dotDot ∧ y.vnodeId = 1)) :
    Finds drivers mountpoints t y name y := by
  obtain ⟨i, t₁, a, hget, hhit⟩ := hc.1.hit_plain drivers.toCacheDrivers hy
  refine ⟨a.driverData, t₁.release i, hhit.grows.trans (grows_release t₁ i), ?_⟩
  rw [FsDrivers.vfsFindChild, if_neg hname, hget, bind_some]
  dsimp only
  rw [hhit.slot, bind_some, hhit.id, if_neg (by simp [hapi]), hdrivers.root,
    if_neg hdots, findIn, hhit.id]

section

variable {a : CachedNode} {i : ℕ} (hx : IsPlain t x) (hapi : drivers.getApi x.driverId = true)
  (hroot : x.vnodeId = 1) (hoccluded : occludedId mountpoints x.driverId = some m)
  (hm : m.driverId ≠ 0 ∧ m.vnodeId ≠ 0) (hapi' : drivers.getApi m.driverId = true)
  (ha : t[i]? = some a) (hid : a.id = m)
include hx hapi hroot hoccluded hm hapi' ha hid

/-- `VfsFindChild` of the parent of the root of a file system that is mounted on `m`. -/
lemma Sane.vfsFindChild_above : Finds drivers mountpoints t x dotDot m := by
  obtain ⟨j, t₁, b, hget, hhit⟩ := hc.1.hit_plain drivers.toCacheDrivers hx
  obtain ⟨t₂, e, hget', he, heid, hgrows⟩ := hhit.above drivers.toCacheDrivers ha hid hm
  refine ⟨e.driverData, (t₂.release j).release i, hgrows, ?_⟩
  rw [FsDrivers.vfsFindChild, if_neg (by decide), hget, bind_some]
  dsimp only
  rw [hhit.slot, bind_some, hhit.id, if_neg (by simp [hapi]), hdrivers.root,
    if_pos ⟨by decide, hroot⟩, hoccluded]
  dsimp only
  rw [findAbove, hget', bind_some]
  dsimp only
  rw [he, bind_some, heid, if_neg (by simp [hapi']), findIn, heid]

/-- `VfsGetAttribs` of the root of a file system that is mounted on `m`. -/
lemma Sane.vfsGetAttribs_above : Describes drivers mountpoints t x m := by
  obtain ⟨hnull, j, b, hb, hbid, -⟩ := hx
  obtain ⟨t₁, b₁, hget, hhit⟩ := hc.1.hit_false drivers.toCacheDrivers hb hbid hnull
  obtain ⟨t₂, e, hget', he, heid, hgrows⟩ := hhit.above drivers.toCacheDrivers ha hid hm
  refine ⟨e.driverData, e.type, (t₂.release j).release i, hgrows, ?_⟩
  rw [vfsGetAttribs, hget, bind_some]
  dsimp only
  rw [hhit.slot, bind_some, hhit.id, if_neg (by simp [hapi]), hdrivers.root, if_pos hroot,
    hoccluded]
  dsimp only
  rw [attribsAbove, hget', bind_some]
  dsimp only
  rw [he, bind_some, heid, if_neg (by simp [hapi']), attribsOf, heid]

end

/-- `VfsFindChild` of the parent of the root directory. -/
lemma Sane.vfsFindChild_root
    (htable : MountTable drivers mountpoints root) (hroot : IsPlain t root) : ∃ t', Grows t t' ∧
      drivers.vfsFindChild mountpoints t root dotDot = some (none, t') := by
  obtain ⟨i, t₁, a, hget, hhit⟩ := hc.1.hit_plain drivers.toCacheDrivers hroot
  refine ⟨t₁.release i, hhit.grows.trans (grows_release t₁ i), ?_⟩
  rw [FsDrivers.vfsFindChild, if_neg (by decide), hget, bind_some]
  dsimp only
  rw [hhit.slot, bind_some, hhit.id, if_neg (by simp [htable.api]), hdrivers.root,
    if_pos ⟨by decide, htable.vnode⟩, htable.rootFs]

/-- `VfsGetAttribs` of a node in the cache that is no root. -/
lemma Sane.vfsGetAttribs
    (hx : IsPlain t x) (hapi : drivers.getApi x.driverId = true) (hroot : x.vnodeId ≠ 1) :
    Describes drivers mountpoints t x x := by
  obtain ⟨hnull, i, a, ha, hid, -⟩ := hx
  obtain ⟨t₁, b, hget, hhit⟩ := hc.1.hit_false drivers.toCacheDrivers ha hid hnull
  refine ⟨b.driverData, b.type, t₁.release i, hhit.grows.trans (grows_release t₁ i), ?_⟩
  rw [FsDrivers.vfsGetAttribs, hget, bind_some]
  dsimp only
  rw [hhit.slot, bind_some, hhit.id, if_neg (by simp [hapi]), hdrivers.root, if_neg hroot,
    attribsOf, hhit.id]

/-- `VfsGetAttribs` of the root directory. -/
lemma Sane.vfsGetAttribs_root
    (htable : MountTable drivers mountpoints root) (hroot : IsPlain t root) : ∃ t', Grows t t' ∧
      drivers.vfsGetAttribs mountpoints t root = some (none, t') := by
  obtain ⟨hnull, i, a, ha, hid, -⟩ := hroot
  obtain ⟨t₁, b, hget, hhit⟩ := hc.1.hit_false drivers.toCacheDrivers ha hid hnull
  refine ⟨t₁.release i, hhit.grows.trans (grows_release t₁ i), ?_⟩
  rw [FsDrivers.vfsGetAttribs, hget, bind_some]
  dsimp only
  rw [hhit.slot, bind_some, hhit.id, if_neg (by simp [htable.api]), hdrivers.root,
    if_pos htable.vnode, htable.rootFs]

end

/-! ### The way from the root directory -/

/-- **The node `x` is reached by the names**, through nodes that are in the cache. -/
inductive Reach (drivers : FsDrivers) (root : VfsId) (t : TreeCache) :
    List (List UInt8) → VfsId → Prop
  | root : IsPlain t root → Reach drivers root t [] root
  | child {names : List (List UInt8)} {y : VfsId} {name : List UInt8} {k : ℕ} :
      Reach drivers root t names y → Child drivers y.driverId y.vnodeId name k →
      IsPlain t ⟨y.driverId, k⟩ → Reach drivers root t (names ++ [name]) ⟨y.driverId, k⟩
  | mount {names : List (List UInt8)} {y : VfsId} {name : List UInt8} {k fs : ℕ} :
      Reach drivers root t names y → Child drivers y.driverId y.vnodeId name k →
      Linked t ⟨y.driverId, k⟩ ⟨fs, 1⟩ → IsPlain t ⟨fs, 1⟩ →
      Reach drivers root t (names ++ [name]) ⟨fs, 1⟩

lemma Reach.plain (h : Reach drivers root t names x) : IsPlain t x := by
  cases h with
  | root h => exact h
  | child _ _ h => exact h
  | mount _ _ _ h => exact h

lemma Reach.mono (h : Reach drivers root t names x) (hgrows : Grows t t') :
    Reach drivers root t' names x := by
  induction h with
  | root h => exact .root (h.mono hgrows)
  | child _ hchild h ih => exact .child ih hchild (h.mono hgrows)
  | mount hy hchild hlink h ih =>
    exact .mount ih hchild (hlink.mono hy.plain.1.1 hgrows) (h.mono hgrows)

lemma reach_nil (h : Reach drivers root t [] x) : x = root := by
  generalize hall : ([] : List (List UInt8)) = all at h
  cases h with
  | root _ => rfl
  | child _ _ _ => exact absurd hall (by simp)
  | mount _ _ _ _ => exact absurd hall (by simp)

/-- The last step of the way: to a child, or to the root of a file system that is mounted on it. -/
lemma Reach.last (h : Reach drivers root t (names ++ [name]) x) : ∃ y k,
    Reach drivers root t names y ∧ Child drivers y.driverId y.vnodeId name k ∧ IsPlain t x ∧
      (x = ⟨y.driverId, k⟩ ∨ ∃ fs, x = ⟨fs, 1⟩ ∧ Linked t ⟨y.driverId, k⟩ ⟨fs, 1⟩) := by
  generalize hall : names ++ [name] = all at h
  cases h with
  | root _ => exact absurd hall (by simp)
  | @child names' y name' k hy hchild hplain =>
    obtain ⟨rfl, ⟨⟩⟩ := append_inj' hall rfl
    exact ⟨y, k, hy, hchild, hplain, .inl rfl⟩
  | @mount names' y name' k fs hy hchild hlink hplain =>
    obtain ⟨rfl, ⟨⟩⟩ := append_inj' hall rfl
    exact ⟨y, k, hy, hchild, hplain, .inr ⟨fs, rfl, hlink⟩⟩

lemma Reach.names_plain (h : Reach drivers root t names x) : ∀ name ∈ names, Url.Plain name := by
  induction names using reverseRecOn generalizing x with
  | nil => simp
  | append_singleton names name ih =>
    obtain ⟨y, k, hy, hchild, -⟩ := h.last
    exact forall_mem_append.mpr ⟨ih hy, forall_mem_singleton.mpr hchild.plain⟩

/-- Where a file system is mounted, if a link leads to its root. -/
lemma Sane.mounted_of_linked {fs : ℕ} (hc : Sane mountpoints t handles)
    (htable : MountTable drivers mountpoints root) (hlink : Linked t m ⟨fs, 1⟩) :
    occludedId mountpoints fs = some m ∧ drivers.getApi fs = true := by
  obtain ⟨i, a, ha, hid, -, hbond⟩ := hlink
  obtain ⟨hdriver, e, he, hdir, hbond'⟩ := (hc.2 i a ha).1 (by
    rw [hbond]
    intro heq
    exact absurd (congrArg VfsId.vnodeId heq) Nat.one_ne_zero)
  obtain rfl : fs = e.driverId := congrArg VfsId.driverId (hbond.symm.trans hbond')
  obtain ⟨h₁, h₂, -⟩ := htable.mounted e he (hdir ▸ hdriver)
  exact ⟨by rw [h₁, hdir, hid], h₂⟩

lemma Reach.api (h : Reach drivers root t names x) (hc : Sane mountpoints t handles)
    (htable : MountTable drivers mountpoints root) : drivers.getApi x.driverId = true := by
  cases h with
  | root _ => exact htable.api
  | child _ hchild _ => exact hchild.api
  | mount _ _ hlink _ => exact (hc.mounted_of_linked htable hlink).2

section

variable (hdrivers : TreeDrivers drivers) (htable : MountTable drivers mountpoints root)

include hdrivers htable

/-- **One step back**: the name is that of the node, and `..` leads to the node before. -/
lemma Reach.up {name : List UInt8} (hc : Sane mountpoints t handles)
    (h : Reach drivers root t (names ++ [name]) x) : ∃ y, Reach drivers root t names y ∧
      (∃ t', Grows t t' ∧ drivers.vfsFindChild mountpoints t x dotDot = some (some y, t')) ∧
      ∃ attribs t', attribs.name = name ∧ Grows t t' ∧
        drivers.vfsGetAttribs mountpoints t x = some (some attribs, t') := by
  obtain ⟨y, k, hy, hchild, hplain, hx⟩ := h.last
  -- in both cases the driver of the child is asked
  have hasked : Finds drivers mountpoints t x dotDot ⟨y.driverId, k⟩ ∧
      Describes drivers mountpoints t x ⟨y.driverId, k⟩ := by
    rcases hx with rfl | ⟨fs, rfl, hlink⟩
    · exact ⟨hc.vfsFindChild hdrivers hplain hchild.api (show trimName dotDot ≠ [] by decide)
        fun hroot => hchild.handle.2 hroot.2,
        hc.vfsGetAttribs hdrivers hplain hchild.api hchild.handle.2⟩
    · obtain ⟨hoccluded, hapi⟩ := hc.mounted_of_linked htable hlink
      obtain ⟨i, a, ha, hid, -⟩ := hlink
      have hm := And.intro hy.plain.1.1 hchild.handle.1
      exact ⟨hc.vfsFindChild_above hdrivers hplain hapi rfl hoccluded hm hchild.api ha hid,
        hc.vfsGetAttribs_above hdrivers hplain hapi rfl hoccluded hm hchild.api ha hid⟩
  obtain ⟨⟨data, t₁, hgrows₁, hfind⟩, data', type, t₂, hgrows₂, hget⟩ := hasked
  obtain ⟨size, hattribs⟩ := hchild.attribs data'
  refine ⟨y, hy, ⟨t₁, hgrows₁, ?_⟩, ⟨type, size, stringOfSpan name⟩, t₂,
    stringOfSpan_plain hchild.plain, hgrows₂, by rw [hget, hattribs]; rfl⟩
  have hparent : drivers.findChild y.driverId k data (some (trimName dotDot)) = _ :=
    hchild.parent data
  rw [hfind, hparent, map_some, if_neg hchild.dirNull]

/-- A node that is reached is not its own parent: else the way to it would have no beginning. -/
lemma Reach.not_own_parent (hc : Sane mountpoints t handles) (h : Reach drivers root t names x) :
    drivers.vfsFindChild mountpoints t x dotDot ≠ some (some x, t') := by
  induction names using reverseRecOn generalizing x with
  | nil =>
    obtain rfl := reach_nil h
    obtain ⟨t₁, -, heq⟩ := hc.vfsFindChild_root hdrivers htable h.plain
    rw [heq]
    simp
  | append_singleton names name ih =>
    obtain ⟨y, hy, ⟨t₁, -, heq⟩, -⟩ := h.up hdrivers htable hc
    intro hself
    obtain ⟨hyx, -⟩ := Prod.mk.inj (some.inj (heq.symm.trans hself))
    cases hyx
    exact ih hy hself

/-! ### The path of a node -/

/-- **`VfsGetPath` collects the names**, by induction on the way. -/
lemma Reach.pathLoop (hc : Sane mountpoints t []) (h : Reach drivers root t names x)
    (acc : List (List UInt8)) : ∃ t', Grows t t' ∧ Sane mountpoints t' [] ∧
      ∀ fuel, drivers.pathLoop mountpoints (fuel + names.length + 1) t x acc =
        some (some (acc ++ names.reverse), t') := by
  have hkept := Sane.keptBy hdrivers.rootType mountpoints
  induction names using reverseRecOn generalizing x t acc with
  | nil =>
    obtain rfl := reach_nil h
    obtain ⟨t', hgrows, heq⟩ := hc.vfsGetAttribs_root hdrivers htable h.plain
    refine ⟨t', hgrows, hkept.vfsGetAttribs hc _ heq, fun fuel => ?_⟩
    rw [pathLoop, heq]
    simp
  | append_singleton names name ih =>
    obtain ⟨-, -, -, attribs, t₁, hname, hgrows₁, hattribs⟩ := h.up hdrivers htable hc
    have hc₁ := hkept.vfsGetAttribs hc _ hattribs
    have h₁ := h.mono hgrows₁
    obtain ⟨y, hy, ⟨t₂, hgrows₂, hparent⟩, -⟩ := h₁.up hdrivers htable hc₁
    have hc₂ := hkept.vfsFindChild hc₁ _ hparent
    have hne : y ≠ x := by
      rintro rfl
      exact h₁.not_own_parent hdrivers htable hc₁ hparent
    obtain ⟨t', hgrows, hc', heq⟩ := ih hc₂ (hy.mono hgrows₂) (acc ++ [name])
    refine ⟨t', (hgrows₁.trans hgrows₂).trans hgrows, hc', fun fuel => ?_⟩
    rw [show fuel + (names ++ [name]).length + 1 = (fuel + names.length + 1) + 1 by simp; omega,
      pathLoop, hattribs, bind_some]
    dsimp only
    rw [hparent, bind_some]
    dsimp only
    rw [if_neg hne, hname, heq]
    simp

end

/-- The buffer of `VfsGetPath` holds a plain path. -/
lemma pathOf_plain (hnames : ∀ name ∈ names, Url.Plain name) :
    pathOf names.reverse = Url.joined names := by
  have hjoin : ∀ names : List (List UInt8), (47 : UInt8) :: (names.map fun name =>
      name ++ [47]).flatten = Url.joined names ++ [47] := by
    intro names
    induction names with
    | nil => rfl
    | cons name names ih =>
      rw [map_cons, flatten_cons, Url.joined_cons, cons_append, append_assoc,
        append_assoc, cons.injEq]
      exact ⟨rfl, congrArg _ ih⟩
  rw [pathOf, reverse_reverse, hjoin, dropLast_concat,
    takeWhile_append_of_pos]
  · simp
  · intro b hb
    have hzero : (0 : UInt8) ∉ Url.joined names := Url.not_mem_joined hnames (by decide)
    simp only [ne_eq, decide_not, Bool.not_eq_eq_eq_not, Bool.not_true, decide_eq_false_iff_not]
    rintro rfl
    exact hzero hb

end Northport.Filesystem
