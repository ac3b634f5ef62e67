/-
# Mounts on top of mounts

`VfsMount` resolves its target first, so a second mount on the same directory is a mount on
the root of the first file system, and mounts form chains.  `GetVfsNode` follows one bond
only.  The log of the mounts says where the chain of an id ends; the end is what
`GetVfsNode` returns exactly as long as no chain has more than one link, the driver of every
root can enter it and does not call it a link, and no mountpoint has been evicted.
-/
import Northport.Filesystem.VfsMount

namespace Northport.Filesystem

open Lib TreeCache Option List

/-! ### Sequences of mounts -/

/-- The VFS, and the successful mounts so far, the last one first: the directory, and the root of
the file system. -/
structure MountState where
  vfs : Vfs
  log : List (VfsId × VfsId)
deriving DecidableEq, Repr

structure MountOp where
  mountpoint : VfsId
  fsDriverId : ℕ
  fuel : ℕ

/-- The directory that `VfsMount` mounts on: the one it appends to the list of mountpoints. -/
def Vfs.lastMounted (s : Vfs) : VfsId := (s.mountpoints.getLast?.map (·.occludedDir)).getD .null

namespace MountState

section

variable (drivers : FsDrivers)

def init (rootFsId : ℕ) : MountState := ⟨.init drivers rootFsId, []⟩

/-- A successful call of `VfsMount`. -/
def step (s : MountState) (op : MountOp) : Option MountState :=
  (s.vfs.vfsMount drivers op.fuel op.mountpoint op.fsDriverId).bind fun r =>
    if r.1 then
      some ⟨r.2, (r.2.lastMounted, ⟨op.fsDriverId, drivers.getRoot op.fsDriverId⟩) :: s.log⟩
    else none

/-- **The end of a chain**: `top` is reached from `id` by the roots that are mounted last, and
nothing is mounted on it. -/
def Top (log : List (VfsId × VfsId)) (id top : VfsId) : Prop :=
  Relation.ReflTransGen (fun a b => log.lookup a = some b) id top ∧ log.lookup top = none

/-- **Every id is resolved to the end of its chain**: a directory on which a file system is mounted
is resolved, and whatever an id is resolved to is no link and the end of its chain. -/
structure Resolves (s : MountState) : Prop where
  mounted : ∀ id root, s.log.lookup id = some root → ∃ (j : ℕ) (t' : TreeCache) (b : CachedNode),
    s.vfs.cache.getVfsNode drivers.toCacheDrivers id true = some (some j, t') ∧ t'[j]? = some b
  top : ∀ (id : VfsId) (j : ℕ) (t' : TreeCache) (b : CachedNode),
    s.vfs.cache.getVfsNode drivers.toCacheDrivers id true = some (some j, t') →
      t'[j]? = some b → b.type ≠ .link ∧ Top s.log id b.id

/-- The root is not null, and its driver can enter it, but not as a link. -/
def Enterable (root : VfsId) : Prop :=
  root.driverId ≠ 0 ∧ root.vnodeId ≠ 0 ∧
    ∃ type data, drivers.enterCache root.driverId root.vnodeId = some (type, data) ∧ type ≠ .link

/-- **The condition on a mount**: the directory is not the root of a mounted file system, nothing is
mounted on the root of the new one, which can be entered, and all mountpoints are in the cache. -/
def Clean (s : MountState) (op : MountOp) : Prop :=
  ∀ s', s.step drivers op = some s' →
    (∀ id, s.log.lookup id ≠ some s'.vfs.lastMounted) ∧
    s'.log.lookup ⟨op.fsDriverId, drivers.getRoot op.fsDriverId⟩ = none ∧
    Enterable drivers ⟨op.fsDriverId, drivers.getRoot op.fsDriverId⟩ ∧
    ∀ id root, id ≠ s'.vfs.lastMounted → s.log.lookup id = some root →
      Linked s'.vfs.cache id root

end

end MountState

/-! ### What is known of the cache -/

/-- Drivers that are always there, and let nodes leave the cache. -/
structure Served (drivers : FsDrivers) : Prop where
  api : ∀ driverId, drivers.getApi driverId = true
  exit : ∀ driverId vnodeId data, drivers.exitCache driverId vnodeId data = true

namespace TreeCache

variable {drivers : FsDrivers} {t t' : TreeCache} {handles : List ℕ} {log : List (VfsId × VfsId)}
  {id root : VfsId} {i j : ℕ} {a b : CachedNode}

/-- A node is as its driver entered it, or a link of the log. -/
def Origin (drivers : FsDrivers) (log : List (VfsId × VfsId)) (a : CachedNode) : Prop :=
  (a.bond = .null ∧ ∃ data, drivers.enterCache a.id.driverId a.id.vnodeId = some (a.type, data)) ∨
    a.type = .link ∧ log.lookup a.id = some a.bond

/-- The cache of a VFS in which only `VfsMount` has been called. -/
structure Tracked (drivers : FsDrivers) (log : List (VfsId × VfsId)) (t : TreeCache)
    (handles : List ℕ) : Prop where
  counted : Counted t handles
  size : t.length = treeCacheInitialSize
  quiet : ∀ (j : ℕ) (a : CachedNode), t[j]? = some a → a.busy = false
  origin : ∀ (j : ℕ) (a : CachedNode), t[j]? = some a → a.id.driverId ≠ 0 → Origin drivers log a

lemma origin_of_sameLink (h : SameLink a b) (ha : Origin drivers log a) : Origin drivers log b := by
  obtain ⟨hid, htype, hbond⟩ := h
  rw [Origin, hid, htype, hbond]
  exact ha

/-- A change of a slot that keeps its lock. -/
lemma quiet_of_change {f : CachedNode → CachedNode} (hf : ∀ a, (f a).busy = a.busy)
    (hquiet : ∀ (j : ℕ) (a : CachedNode), t[j]? = some a → a.busy = false)
    (hb : (t.modify i f)[j]? = some b) : b.busy = false := by
  obtain ⟨a, ha, rfl⟩ := slot_of_change hb
  split_ifs
  · rw [hf, hquiet j a ha]
  · exact hquiet j a ha

lemma Tracked.keptBy (hdrivers : Served drivers) (log : List (VfsId × VfsId)) :
    KeptBy drivers.toCacheDrivers (Tracked drivers log) where
  lookup := by
    rintro t t' handles id r hc h
    refine ⟨h.counted hc.counted, ?_, fun j b hb => ?_, fun j b hb hid => ?_⟩
    · cases h <;> simp [hc.size, acquire]
    · cases h with
      | null _ => exact hc.quiet j b hb
      | full _ _ _ _ => exact hc.quiet j b hb
      | hit i _ _ _ => exact quiet_of_change (by simp) hc.quiet hb
      | failed k slot driverData _ _ _ _ _ hapi => simp [hdrivers.api] at hapi
      | entered k slot type driverData _ _ _ _ hslot _ _ _ =>
        rcases slot_of_set hb with ⟨-, rfl⟩ | ⟨-, hb⟩
        · rfl
        · exact hc.quiet j b hb
    · rcases h.slot hb with ⟨a, ha, hsame⟩ | ⟨rfl, -, hbond, -, -, hdata⟩
      · exact origin_of_sameLink hsame (hc.origin j a ha (hsame.1 ▸ hid))
      · exact .inl ⟨hbond, hdata⟩
  release := by
    rintro t handles i hc
    refine ⟨hc.counted.release, by simp [release, hc.size],
      fun j b hb => quiet_of_change (by simp) hc.quiet hb, fun j b hb hid => ?_⟩
    obtain ⟨a, ha, hsame⟩ := slot_release hb
    exact origin_of_sameLink hsame (hc.origin j a ha (hsame.1 ▸ hid))
  perm hc hperm := { hc with counted := hc.counted.perm hperm }

/-- With at most one handle in use there is room for another node. -/
lemma Tracked.usable (hc : Tracked drivers log t handles) (hone : handles.length ≤ 1) :
    ∃ k, t.Usable k := by
  have hfree : ∀ k < 2, k ∉ handles → t.Usable k := by
    intro k hk hnot
    have hlt : k < t.length := by
      rw [hc.size, treeCacheInitialSize]
      omega
    have hslot := getElem?_eq_getElem hlt
    exact ⟨_, hslot, (hc.counted.count k _ hslot).trans (count_eq_zero.mpr hnot),
      hc.quiet k _ hslot⟩
  by_cases hzero : 0 ∈ handles
  · refine ⟨1, hfree 1 (by omega) fun hone' => ?_⟩
    obtain ⟨i, rfl⟩ := length_eq_one_iff.mp (hone.antisymm (length_pos_of_mem hzero))
    simp only [mem_singleton] at hzero hone'
    omega
  · exact ⟨0, hfree 0 (by omega) hzero⟩

/-- A lookup succeeds, if the driver can enter the node. -/
lemma Tracked.lookup (hdrivers : Served drivers) (hc : Tracked drivers log t handles)
    (hone : handles.length ≤ 1) (hdriver : id.driverId ≠ 0) (hvnode : id.vnodeId ≠ 0)
    (henter : t.find id = none →
      ∃ type data, drivers.enterCache id.driverId id.vnodeId = some (type, data)) :
    ∃ j t', t.getVfsNodeInternal drivers.toCacheDrivers id = some (some j, t') := by
  cases hfind : t.find id with
  | some i => exact ⟨i, _, getVfsNodeInternal_hit hdriver hvnode hfind⟩
  | none =>
    obtain ⟨type, data, henter⟩ := henter hfind
    obtain ⟨k, -, heq⟩ := getVfsNodeInternal_enter hdriver hvnode hfind (hc.usable hone)
      hdrivers.api hdrivers.exit henter
    exact ⟨k, _, heq⟩

end TreeCache

namespace MountState

variable {drivers : FsDrivers} {s s' : MountState}

/-- **The invariant** of all sequences of mounts. -/
structure Inv (drivers : FsDrivers) (s : MountState) : Prop where
  tracked : Tracked drivers s.log s.vfs.cache []
  dirs : ∀ id root, s.log.lookup id = some root → id.driverId ≠ 0 ∧ id.vnodeId ≠ 0

/-- No chain has more than one link, and all links are there. -/
structure Clear (drivers : FsDrivers) (s : MountState) : Prop where
  linked : ∀ id root, s.log.lookup id = some root → Linked s.vfs.cache id root
  apart : ∀ id root, s.log.lookup id = some root → s.log.lookup root = none
  plain : ∀ id root, s.log.lookup id = some root → Enterable drivers root

/-- A link that the lookup of an id has found is one of the log. -/
lemma Inv.linked_of_lookup (hs : Inv drivers s) {id : VfsId} {i j : ℕ} {t₁ t₂ : TreeCache}
    {node : CachedNode} (h₁ : Lookup drivers.toCacheDrivers s.vfs.cache id (some i) t₁)
    (hnode : t₁[i]? = some node) (htype : node.type = .link)
    (h₂ : Lookup drivers.toCacheDrivers t₁ node.bond (some j) t₂) :
    s.log.lookup id = some node.bond ∧ Linked s.vfs.cache id node.bond := by
  rcases h₁.of_bond hnode h₂ with ⟨⟨⟩, -⟩ | ⟨rfl, -, a, ha, haid, hanode⟩
  refine ⟨?_, i, a, ha, haid, hanode.2.1 ▸ htype, hanode.2.2.symm⟩
  obtain ⟨hdriver, -, -⟩ := h₁.found
  obtain ⟨hroot, -, -⟩ := h₂.found
  rcases hs.tracked.origin i a ha (haid ▸ hdriver) with ⟨hnull, -⟩ | ⟨-, hlog⟩
  · rw [hanode.2.2, hnull] at hroot
    exact absurd rfl hroot
  · rw [← haid, hlog, hanode.2.2]

section

variable (hdrivers : Served drivers) (hs : Inv drivers s)

include hdrivers hs

/-- **If every id is resolved, the links are as they should be.** -/
lemma Inv.link_of_resolves (h : Resolves drivers s) {id root : VfsId}
    (hlog : s.log.lookup id = some root) :
    Linked s.vfs.cache id root ∧ s.log.lookup root = none ∧ Enterable drivers root := by
  obtain ⟨j, t', b, hget, hb⟩ := h.mounted id root hlog
  obtain ⟨hnotlink, -, hend⟩ := h.top id j t' b hget hb
  rcases getVfsNode_cases hget with ⟨hlookup, -⟩ |
    ⟨i, t₁, t₂, node, h₁, hnode, htype, -, h₂, rfl⟩
  · -- a directory that is returned itself is not the end of the chain
    obtain ⟨-, -, b', hb', hid⟩ := hlookup.found
    cases hb.symm.trans hb'
    rw [hid, hlog] at hend
    cases hend
  · obtain ⟨b₂, hb₂, hsame⟩ := slot_release hb
    obtain ⟨hroot, hroot', b₂', hb₂', hbid⟩ := h₂.found
    cases hb₂.symm.trans hb₂'
    obtain ⟨hlog', hlinked⟩ := hs.linked_of_lookup h₁ hnode htype h₂
    cases hlog.symm.trans hlog'
    rw [hsame.1, hbid] at hend
    rw [hsame.2.1] at hnotlink
    have hkept := Tracked.keptBy hdrivers s.log
    have horigin := (hkept.lookup (hkept.lookup hs.tracked h₁) h₂).origin j b₂ hb₂ (hbid ▸ hroot)
    obtain ⟨-, data, henter⟩ := horigin.resolve_right fun hlink => hnotlink hlink.1
    rw [hbid] at henter
    exact ⟨hlinked, hend, hroot, hroot', _, data, henter, hnotlink⟩

/-- The two lookups of a link. -/
lemma Inv.getVfsNode_linked {id root : VfsId} (hlink : Linked s.vfs.cache id root)
    (hid : id.driverId ≠ 0 ∧ id.vnodeId ≠ 0) (henter : Enterable drivers root) :
    ∃ (j : ℕ) (t' : TreeCache) (b : CachedNode),
      s.vfs.cache.getVfsNode drivers.toCacheDrivers id true = some (some j, t') ∧
        t'[j]? = some b := by
  obtain ⟨i, a, ha, haid, htype, hbond⟩ := hlink
  obtain ⟨hroot, hroot', type, data, henter, -⟩ := henter
  have hfind := hs.tracked.counted.find_eq ha haid hid.1
  have hhit : s.vfs.cache.getVfsNodeInternal drivers.toCacheDrivers id =
      some (some i, s.vfs.cache.acquire i) := getVfsNodeInternal_hit hid.1 hid.2 hfind
  have hc := (Tracked.keptBy hdrivers s.log).lookup hs.tracked (lookup_of_eq hhit)
  obtain ⟨j, t', heq⟩ := hc.lookup hdrivers (by simp) hroot hroot' fun _ => ⟨type, data, henter⟩
  obtain ⟨-, -, b, hb, -⟩ := (lookup_of_eq heq).found
  obtain ⟨b', hb', -⟩ := link_release hb i
  exact ⟨j, _, b', getVfsNode_of_link hhit (change_self ha _) htype (hbond ▸ heq), hb'⟩

/-- **If the links are as they should be, every id is resolved.** -/
lemma Clear.resolves (h : Clear drivers s) : Resolves drivers s := by
  refine ⟨fun id root hlog => ?_, fun id j t' b hget hb => ?_⟩
  · exact hs.getVfsNode_linked hdrivers (h.linked id root hlog) (hs.dirs id root hlog)
      (h.plain id root hlog)
  rcases getVfsNode_cases hget with ⟨hlookup, hplain⟩ |
    ⟨i, t₁, t₂, node, h₁, hnode, htype, -, h₂, rfl⟩
  · -- what is not a link is the end of its chain
    have hnotlink := hplain j b rfl rfl hb
    obtain ⟨hdriver, -, b', hb', hid⟩ := hlookup.found
    cases hb.symm.trans hb'
    refine ⟨hnotlink, hid ▸ .refl, ?_⟩
    by_contra hsome
    obtain ⟨root, hlog⟩ := ne_none_iff_exists'.mp hsome
    rw [hid] at hlog
    obtain ⟨k, d, hd, hdid, hdtype, -⟩ := h.linked id root hlog
    rcases hlookup.slot hb with ⟨a, ha, hsame⟩ | ⟨-, hfind, -⟩
    · obtain ⟨rfl, rfl⟩ := hs.tracked.counted.slot_eq hd hdid ha (hsame.1 ▸ hid) hdriver
      exact hnotlink (hsame.2.1.trans hdtype)
    · exact absurd hdid (find_eq_none hfind hd)
  · obtain ⟨b₂, hb₂, hsame⟩ := slot_release hb
    obtain ⟨hroot, -, b₂', hb₂', hbid⟩ := h₂.found
    cases hb₂.symm.trans hb₂'
    obtain ⟨hlog, -⟩ := hs.linked_of_lookup h₁ hnode htype h₂
    have hend := h.apart id node.bond hlog
    obtain ⟨-, -, type, data, henter, hne⟩ := h.plain id node.bond hlog
    have hkept := Tracked.keptBy hdrivers s.log
    have hplain : b₂.type ≠ .link := by
      rcases (hkept.lookup (hkept.lookup hs.tracked h₁) h₂).origin j b₂ hb₂ (hbid ▸ hroot) with
        ⟨-, data', henter'⟩ | ⟨-, hlog'⟩
      · rw [hbid, henter] at henter'
        exact (Prod.mk.inj (some.inj henter')).1 ▸ hne
      · rw [hbid, hend] at hlog'
        cases hlog'
    rw [hsame.1, hbid]
    exact ⟨hsame.2.1 ▸ hplain, .single hlog, hend⟩

end

/-! ### Whole sequences -/

lemma inv_init (drivers : FsDrivers) (rootFsId : ℕ) : Inv drivers (init drivers rootFsId) where
  tracked := by
    have hempty : ∀ (j : ℕ) (a : CachedNode),
        (initTreeCache treeCacheInitialSize)[j]? = some a → a = .empty := fun j a ha =>
      eq_of_mem_replicate (mem_of_getElem? ha)
    refine ⟨CacheState.counted_init treeCacheInitialSize, length_replicate,
      fun j a ha => ?_, fun j a ha hid => ?_⟩
    · rw [hempty j a ha]
      rfl
    · rw [hempty j a ha] at hid
      exact absurd rfl hid
  dirs _ _ hlog := absurd hlog (by simp [init])

/-- **The step lemma**: the invariant, and what the step adds to the log. -/
lemma Inv.step {op : MountOp} (hdrivers : Served drivers) (hs : Inv drivers s)
    (hstep : s.step drivers op = some s') : Inv drivers s' ∧
      s'.log = (s'.vfs.lastMounted, ⟨op.fsDriverId, drivers.getRoot op.fsDriverId⟩) :: s.log ∧
      Linked s'.vfs.cache s'.vfs.lastMounted ⟨op.fsDriverId, drivers.getRoot op.fsDriverId⟩ := by
  obtain ⟨⟨ok, s₀⟩, hmount, hstep⟩ := bind_eq_some_iff.mp hstep
  obtain ⟨rfl, hstep⟩ := ite_none_right_eq_some.mp hstep
  cases hstep
  obtain ⟨i, t₁, t₂, target, h⟩ := Vfs.mounted_of_eq hmount
  have hlast : s₀.lastMounted = target.id := by
    rw [h.after]
    simp [Vfs.lastMounted]
  set root : VfsId := ⟨op.fsDriverId, drivers.getRoot op.fsDriverId⟩
  have hc₁ := (Tracked.keptBy hdrivers s.log).getVfsNode hs.tracked h.get
  have htarget := getVfsNode_found h.get h.slot
  have hsetLink : Tracked drivers ((target.id, root) :: s.log) (t₁.setLink i root) [i] := by
    refine ⟨hc₁.counted.setLink i root, by simp [setLink, hc₁.size], fun j b hb => ?_,
      fun j b hb hid => ?_⟩
    · exact quiet_of_change (by simp) hc₁.quiet hb
    · obtain ⟨a, ha, rfl⟩ := slot_of_change hb
      split_ifs at hid ⊢ with hij
      · obtain rfl := some.inj (h.slot.symm.trans (hij ▸ ha))
        exact .inr ⟨rfl, by simp⟩
      · have hne : a.id ≠ target.id := by
          intro heq
          exact hij (hc₁.counted.slot_eq h.slot rfl ha heq htarget.1).1
        refine (hc₁.origin j a ha hid).imp_right (And.imp_right fun hlog => ?_)
        rw [lookup_cons, beq_false_of_ne hne]
        exact hlog
  obtain ⟨path, hpath⟩ := h.path
  have hc₂ := (Tracked.keptBy hdrivers _).vfsGetPath hsetLink _ hpath
  refine ⟨⟨?_, fun id root' hlog => ?_⟩, rfl, ?_⟩
  · rw [hlast, h.after]
    exact (Tracked.keptBy hdrivers _).release hc₂
  · rw [hlast, lookup_cons] at hlog
    split at hlog
    · rename_i hbeq
      obtain rfl := beq_iff_eq.mp hbeq
      exact htarget
    · exact hs.dirs id root' hlog
  · rw [hlast]
    exact h.linked hs.tracked.counted

/-- A step keeps the links as they should be exactly under the condition. -/
lemma Inv.clear_iff {op : MountOp} (hdrivers : Served drivers) (hs : Inv drivers s)
    (hclear : Clear drivers s) :
    (∀ s', s.step drivers op = some s' → Clear drivers s') ↔ Clean drivers s op := by
  refine forall_congr' fun s' => forall_congr' fun hstep => ?_
  obtain ⟨-, hlog, hlinked⟩ := hs.step hdrivers hstep
  have hself : s'.log.lookup s'.vfs.lastMounted =
      some ⟨op.fsDriverId, drivers.getRoot op.fsDriverId⟩ := by
    rw [hlog]
    simp
  have hother : ∀ id, id ≠ s'.vfs.lastMounted → s'.log.lookup id = s.log.lookup id := by
    intro id hne
    rw [hlog, lookup_cons, beq_false_of_ne hne]
  constructor
  · intro h
    refine ⟨fun id hid => ?_, h.apart _ _ hself, h.plain _ _ hself, fun id root hne hid => ?_⟩
    · by_cases hne : id = s'.vfs.lastMounted
      · have := hclear.apart _ _ (hne ▸ hid)
        rw [← hne, hid] at this
        cases this
      · have := h.apart id _ (by rw [hother id hne, hid])
        rw [hself] at this
        cases this
    · exact h.linked id root (by rw [hother id hne, hid])
  · rintro ⟨hroots, hend, hplain, hkept⟩
    refine ⟨fun id root hid => ?_, fun id root hid => ?_, fun id root hid => ?_⟩ <;>
      by_cases hne : id = s'.vfs.lastMounted
    · cases hself.symm.trans (hne ▸ hid)
      exact hne ▸ hlinked
    · exact hkept id root hne (by rw [← hother id hne, hid])
    · cases hself.symm.trans (hne ▸ hid)
      exact hend
    · rw [hother id hne] at hid
      rw [hother root fun heq => hroots id (heq ▸ hid)]
      exact hclear.apart id root hid
    · cases hself.symm.trans (hne ▸ hid)
      exact hplain
    · exact hclear.plain id root (by rw [← hother id hne, hid])

/-- **For every sequence of successful mounts**, every id is resolved to the end of its chain in all
states exactly if no mount is made on the root of a mounted file system, or of a file system on whose
root one is mounted or whose root cannot be entered, and all mountpoints stay in the cache. -/
theorem chains_resolve_iff (hdrivers : Served drivers) (rootFsId : ℕ) (ops : List MountOp) :
    Always (step drivers) (Resolves drivers) (init drivers rootFsId) ops ↔
      Allowed (step drivers) (Clean drivers) (init drivers rootFsId) ops := by
  have hiff : ∀ s, Inv drivers s → (Resolves drivers s ↔ Clear drivers s) := fun s hs =>
    ⟨fun h => ⟨fun _ _ hlog => (hs.link_of_resolves hdrivers h hlog).1,
      fun _ _ hlog => (hs.link_of_resolves hdrivers h hlog).2.1,
      fun _ _ hlog => (hs.link_of_resolves hdrivers h hlog).2.2⟩, fun h => h.resolves hdrivers hs⟩
  have hclear : Clear drivers (init drivers rootFsId) := by
    refine ⟨?_, ?_, ?_⟩ <;> exact fun id root hlog => absurd hlog (by simp [init])
  refine always_iff_allowed (Inv drivers) _ (fun s op hs h => ?_)
    (fun s op s' hs _ hstep => (hs.step hdrivers hstep).1) (inv_init drivers rootFsId)
    ((hiff _ (inv_init drivers rootFsId)).mpr hclear) ops
  rw [← hs.clear_iff hdrivers ((hiff s hs).mp h)]
  exact forall_congr' fun s' => forall_congr' fun hstep => hiff s' (hs.step hdrivers hstep).1

end MountState

/-! ### A mount on a mount -/

open MountState in
/-- **A chain of two links**: when a file system is mounted on a directory on which another one is
mounted, the id of the directory is resolved to a link. -/
theorem stacked_mounts : ¬ Always (MountState.step emptyDirs) (Resolves emptyDirs)
    (init emptyDirs 1) [⟨⟨1, 2⟩, 2, 4⟩, ⟨⟨1, 2⟩, 3, 4⟩] := by
  intro halways
  have hlink : ((run (MountState.step emptyDirs) (init emptyDirs 1)
      [⟨⟨1, 2⟩, 2, 4⟩, ⟨⟨1, 2⟩, 3, 4⟩]).map fun s =>
        (s.vfs.cache.getVfsNode emptyDirs.toCacheDrivers ⟨1, 2⟩ true).map fun r =>
          (r.1, r.2[1]?.map (·.type))) = some (some (some 1, some .link)) := by
    decide +kernel
  obtain ⟨s, hrun, hlink⟩ := map_eq_some_iff.mp hlink
  obtain ⟨⟨r, t⟩, hget, hlink⟩ := map_eq_some_iff.mp hlink
  obtain ⟨rfl, hlink⟩ := Prod.mk.inj hlink
  obtain ⟨b, hb, htype⟩ := map_eq_some_iff.mp hlink
  exact ((halways.of_run hrun).top ⟨1, 2⟩ 1 t b hget hb).1 htype

open MountState in
/-- Two mounts on different directories. -/
theorem chains_resolve_iff_emptyDirs : Served emptyDirs ∧
    (Always (MountState.step emptyDirs) (Resolves emptyDirs) (init emptyDirs 1)
        [⟨⟨1, 2⟩, 2, 4⟩, ⟨⟨1, 3⟩, 3, 4⟩] ↔
      Allowed (MountState.step emptyDirs) (Clean emptyDirs) (init emptyDirs 1)
        [⟨⟨1, 2⟩, 2, 4⟩, ⟨⟨1, 3⟩, 3, 4⟩]) :=
  ⟨⟨fun _ => rfl, fun _ _ _ => rfl⟩,
    chains_resolve_iff ⟨fun _ => rfl, fun _ _ _ => rfl⟩ 1 _⟩

end Northport.Filesystem
