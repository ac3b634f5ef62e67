/-
# The slots of the cache under lookups and mounts

What is in a slot of the cache after a lookup was there before, or it is the node that has
been looked up; and a lookup succeeds when the node is in the cache or a slot can be used.
-/
import Northport.Filesystem.Vfs

namespace Northport.Filesystem

open List Option

namespace TreeCache

variable {drivers : CacheDrivers} {t t' : TreeCache} {handles : List ℕ} {id m root : VfsId}
  {i j : ℕ} {a b : CachedNode} {r : Option ℕ} {t₂ : TreeCache} {traverseLinks : Bool}
  {p : CachedNode → Prop}

/-! ### The slots after a lookup -/

/-- The same node, as far as links go. -/
def SameLink (a b : CachedNode) : Prop := b.id = a.id ∧ b.type = a.type ∧ b.bond = a.bond

lemma SameLink.trans {d : CachedNode} (h : SameLink a b) (h' : SameLink b d) : SameLink a d :=
  ⟨h'.1.trans h.1, h'.2.1.trans h.2.1, h'.2.2.trans h.2.2⟩

/-- A change that keeps the links. -/
lemma sameLink_of_change {f : CachedNode → CachedNode} (hf : ∀ a, SameLink a (f a))
    (hb : (t.modify i f)[j]? = some b) : ∃ a, t[j]? = some a ∧ SameLink a b := by
  obtain ⟨a, ha, rfl⟩ := slot_of_change hb
  split_ifs
  · exact ⟨a, ha, hf a⟩
  · exact ⟨a, ha, rfl, rfl, rfl⟩

lemma slot_release (hb : (t.release i)[j]? = some b) : ∃ a, t[j]? = some a ∧ SameLink a b :=
  sameLink_of_change (by simp [SameLink]) hb

lemma slot_acquire (hb : (t.acquire i)[j]? = some b) : ∃ a, t[j]? = some a ∧ SameLink a b :=
  sameLink_of_change (by simp [SameLink]) hb

lemma SameNode.link (h : SameNode t t' i) (ha : t[i]? = some a) :
    ∃ b, t'[i]? = some b ∧ SameLink a b := by
  obtain ⟨a', b, ha', hb, h₁, h₂, -, h₃⟩ := h
  cases ha.symm.trans ha'
  exact ⟨b, hb, h₁, h₂, h₃⟩

lemma link_acquire (ha : t[j]? = some a) (i : ℕ) : ∃ b, (t.acquire i)[j]? = some b ∧ SameLink a b :=
  (sameNode_acquire (List.getElem?_eq_some_iff.mp ha).1 i).link ha

lemma link_release (ha : t[j]? = some a) (i : ℕ) : ∃ b, (t.release i)[j]? = some b ∧ SameLink a b :=
  (sameNode_release (List.getElem?_eq_some_iff.mp ha).1 i).link ha

/-- What is in a slot after `GetVfsNodeInternal` was there before, or it is the node that has been
looked up. -/
lemma Lookup.slot (h : Lookup drivers t id r t') (hb : t'[j]? = some b) :
    (∃ a, t[j]? = some a ∧ SameLink a b) ∨
      b.id = id ∧ t.find id = none ∧ b.bond = .null ∧ id.driverId ≠ 0 ∧ r = some j ∧
        ∃ data, drivers.enterCache id.driverId id.vnodeId = some (b.type, data) := by
  cases h with
  | null _ => exact .inl ⟨b, hb, rfl, rfl, rfl⟩
  | full _ _ _ _ => exact .inl ⟨b, hb, rfl, rfl, rfl⟩
  | hit i _ _ _ => exact .inl (slot_acquire hb)
  | failed k slot driverData _ _ _ _ hslot _ =>
    rcases slot_of_set hb with ⟨rfl, rfl⟩ | ⟨-, hb⟩
    · exact .inl ⟨slot, hslot, rfl, rfl, rfl⟩
    · exact .inl ⟨b, hb, rfl, rfl, rfl⟩
  | entered k slot type driverData hdriver _ hfind _ hslot _ henter _ =>
    rcases slot_of_set hb with ⟨rfl, rfl⟩ | ⟨-, hb⟩
    · exact .inr ⟨rfl, hfind, rfl, hdriver, rfl, driverData, henter⟩
    · exact .inl ⟨b, hb, rfl, rfl, rfl⟩

/-- The slot that a lookup returns holds the node. -/
lemma Lookup.found (h : Lookup drivers t id (some j) t') :
    id.driverId ≠ 0 ∧ id.vnodeId ≠ 0 ∧ ∃ b, t'[j]? = some b ∧ b.id = id := by
  cases h with
  | hit i hdriver hvnode hfind =>
    obtain ⟨a, ha, rfl⟩ := find_eq_some hfind
    exact ⟨hdriver, hvnode, _, change_self ha _, rfl⟩
  | entered k slot type driverData hdriver hvnode _ _ hslot _ _ _ =>
    exact ⟨hdriver, hvnode, _, getElem?_set_slot hslot _, rfl⟩

/-- A node that has just been entered has no bond, so a link that leads somewhere was found in the
cache. -/
lemma Lookup.of_bond {node : CachedNode} (h : Lookup drivers t id (some i) t')
    (hnode : t'[i]? = some node) (h₂ : Lookup drivers t' node.bond r t₂) : (r = none ∧ t₂ = t') ∨
      t' = t.acquire i ∧ t.find id = some i ∧ ∃ a, t[i]? = some a ∧ a.id = id ∧ SameLink a node := by
  cases h with
  | hit i hdriver hvnode hfind =>
    obtain ⟨a, ha, hid⟩ := find_eq_some hfind
    obtain ⟨a', ha', hsame⟩ := slot_acquire hnode
    cases ha.symm.trans ha'
    exact .inr ⟨rfl, hfind, a, ha, hid, hsame⟩
  | entered k slot type driverData _ _ _ _ hslot _ _ _ =>
    cases (getElem?_set_slot hslot _).symm.trans hnode
    cases h₂ with
    | null _ => exact .inl ⟨rfl, rfl⟩
    | hit _ hdriver _ _ => exact absurd rfl hdriver
    | full hdriver _ _ _ => exact absurd rfl hdriver
    | failed _ _ _ hdriver _ _ _ _ _ => exact absurd rfl hdriver
    | entered _ _ _ _ hdriver _ _ _ _ _ _ _ => exact absurd rfl hdriver

lemma find_acquire (t : TreeCache) (i : ℕ) (id : VfsId) : (t.acquire i).find id = t.find id := by
  have hids : (t.acquire i).map (·.id) = t.map (·.id) := by
    refine ext_getElem? fun j => ?_
    rw [getElem?_map, getElem?_map, acquire, getElem?_change]
    split_ifs
    · rw [Option.map_map]
      rfl
    · rfl
  have hfind : ∀ t : TreeCache, t.find id = (t.map (·.id)).findIdx? fun n => n = id := by
    intro t
    rw [findIdx?_map]
    rfl
  rw [hfind, hfind, hids]

/-- The same of a lookup for which a slot has been acquired. -/
lemma Lookup.slot_acquired (h : Lookup drivers (t.acquire i) id r t') (hb : t'[j]? = some b) :
    (∃ a, t[j]? = some a ∧ SameLink a b) ∨ b.id = id ∧ t.find id = none ∧
      ∃ data, drivers.enterCache id.driverId id.vnodeId = some (b.type, data) := by
  rcases h.slot hb with ⟨a', ha', hsame'⟩ | ⟨hid, hfind, -, -, -, hdata⟩
  · obtain ⟨a, ha, hsame⟩ := slot_acquire ha'
    exact .inl ⟨a, ha, hsame.trans hsame'⟩
  · exact .inr ⟨hid, find_acquire t i id ▸ hfind, hdata⟩

/-- **What is in a slot after `GetVfsNode`** was there before, or it is a node that was not in the
cache before. -/
lemma getVfsNode_slot (h : t.getVfsNode drivers id traverseLinks = some (r, t'))
    (hb : t'[j]? = some b) : (∃ a, t[j]? = some a ∧ SameLink a b) ∨ t.find b.id = none := by
  have hone : ∀ {id : VfsId} {r : Option ℕ} {t' : TreeCache} {b : CachedNode},
      Lookup drivers t id r t' → t'[j]? = some b →
        (∃ a, t[j]? = some a ∧ SameLink a b) ∨ t.find b.id = none := by
    intro id r t' b h hb
    rcases h.slot hb with hsame | ⟨rfl, hfind, -⟩
    · exact .inl hsame
    · exact .inr hfind
  rcases getVfsNode_cases h with ⟨hlookup, -⟩ | ⟨i, t₁, t₂, node, h₁, hnode, -, -, h₂, rfl⟩
  · exact hone hlookup hb
  · obtain ⟨b', hb', hsame⟩ := slot_release hb
    rcases h₁.of_bond hnode h₂ with ⟨-, rfl⟩ | ⟨rfl, -, -⟩
    · rcases hone h₁ hb' with ⟨a, ha, hsame'⟩ | hfind
      · exact .inl ⟨a, ha, hsame'.trans hsame⟩
      · exact .inr (hsame.1 ▸ hfind)
    · rcases h₂.slot_acquired hb' with ⟨a, ha, hsame'⟩ | ⟨hid, hfind, -⟩
      · exact .inl ⟨a, ha, hsame'.trans hsame⟩
      · exact .inr (by rw [hsame.1, hid, hfind])

/-- The node that `GetVfsNode` finds has an id. -/
lemma getVfsNode_found (h : t.getVfsNode drivers id traverseLinks = some (some j, t'))
    (hb : t'[j]? = some b) : b.id.driverId ≠ 0 ∧ b.id.vnodeId ≠ 0 := by
  rcases getVfsNode_cases h with ⟨hlookup, -⟩ | ⟨i, t₁, t₂, node, -, -, -, -, h₂, rfl⟩
  · obtain ⟨hdriver, hvnode, b', hb', rfl⟩ := hlookup.found
    cases hb.symm.trans hb'
    exact ⟨hdriver, hvnode⟩
  · obtain ⟨b₁, hb₁, hsame⟩ := slot_release hb
    obtain ⟨hdriver, hvnode, b', hb', hid⟩ := h₂.found
    cases hb₁.symm.trans hb'
    rw [hsame.1, hid]
    exact ⟨hdriver, hvnode⟩

/-! ### Lookups that succeed -/

/-- Drivers that do what they should: there is a driver for every node, it lets nodes leave the
cache, and the root is a directory. -/
structure Serves (drivers : CacheDrivers) (root : VfsId) : Prop where
  api : ∀ driverId, drivers.getApi driverId = true
  exit : ∀ driverId vnodeId data, drivers.exitCache driverId vnodeId data = true
  root : ∃ data, drivers.enterCache root.driverId root.vnodeId = some (.directory, data)

/-- The root is in the cache as a directory, or can be entered without evicting the mountpoint. -/
def Open (t : TreeCache) (m root : VfsId) : Prop :=
  (∃ (j : ℕ) (b : CachedNode), t[j]? = some b ∧ b.id = root ∧ b.type = .directory) ∨
    t.find root = none ∧ ∃ (k : ℕ) (b : CachedNode), t[k]? = some b ∧ b.references = 0 ∧
      b.busy = false ∧ b.id ≠ m

/-- The mountpoint is in the cache as a link to the root. -/
def Linked (t : TreeCache) (m root : VfsId) : Prop :=
  ∃ (i : ℕ) (a : CachedNode), t[i]? = some a ∧ a.id = m ∧ a.type = .link ∧ a.bond = root

lemma Counted.find_eq (hc : Counted t handles) (ha : t[i]? = some a) (hid : a.id = id)
    (hnull : id.driverId ≠ 0) : t.find id = some i := by
  cases hfind : t.find id with
  | none => exact absurd hid (find_eq_none hfind ha)
  | some j =>
    obtain ⟨b, hb, hbid⟩ := find_eq_some hfind
    have hne : b.id ≠ .null := by
      rintro heq
      rw [← hbid, heq] at hnull
      exact hnull rfl
    exact congrArg some (hc.unique j i b a hb ha (hbid.trans hid.symm) hne)

lemma Counted.slot_eq (hc : Counted t handles) (ha : t[i]? = some a) (haid : a.id = id)
    (hb : t[j]? = some b) (hbid : b.id = id) (hnull : id.driverId ≠ 0) : i = j ∧ a = b := by
  obtain rfl := some.inj ((hc.find_eq ha haid hnull).symm.trans (hc.find_eq hb hbid hnull))
  exact ⟨rfl, some.inj (ha.symm.trans hb)⟩

/-- `GetVfsNodeInternal` of a node that is in the cache. -/
lemma getVfsNodeInternal_hit (hdriver : id.driverId ≠ 0) (hvnode : id.vnodeId ≠ 0)
    (hfind : t.find id = some i) : t.getVfsNodeInternal drivers id = some (some i, t.acquire i) := by
  rw [getVfsNodeInternal, if_neg (by simp [hdriver, hvnode]), hfind]

/-- `GetVfsNodeInternal` of a node that is not in the cache, when a slot can be used. -/
lemma getVfsNodeInternal_enter {type : NodeType} {data : ℕ} (hdriver : id.driverId ≠ 0)
    (hvnode : id.vnodeId ≠ 0) (hfind : t.find id = none) (husable : ∃ k, t.Usable k)
    (hapi : ∀ driverId, drivers.getApi driverId = true)
    (hexit : ∀ driverId vnodeId data, drivers.exitCache driverId vnodeId data = true)
    (henter : drivers.enterCache id.driverId id.vnodeId = some (type, data)) :
    ∃ k, t.chosen = some k ∧ t.getVfsNodeInternal drivers id =
      some (some k, t.set k ⟨1, type, data, id, .null, false⟩) := by
  obtain ⟨-, hchosen, hnone, -⟩ := t.chooseLoop_eq
  cases hk : t.chosen with
  | none =>
    obtain ⟨k, hk'⟩ := husable
    exact absurd hk' (hnone hk k)
  | some k =>
    obtain ⟨slot, hslot, -⟩ := hchosen k hk
    refine ⟨k, rfl, ?_⟩
    rw [getVfsNodeInternal_chosen hdriver hvnode hfind hk hslot, replace]
    simp [hapi, hexit, enter, henter]

/-- `GetVfsNode` of a node that is no link. -/
lemma getVfsNode_of_plain (h : t.getVfsNodeInternal drivers id = some (some j, t'))
    (hb : t'[j]? = some b) (htype : b.type ≠ .link) :
    t.getVfsNode drivers id true = some (some j, t') := by
  rw [getVfsNode, h, bind_some]
  dsimp only
  rw [hb]
  dsimp only
  rw [if_neg fun hlink => htype hlink.2]

/-- `GetVfsNode` of a link. -/
lemma getVfsNode_of_link (h : t.getVfsNodeInternal drivers id = some (some i, t'))
    (ha : t'[i]? = some a) (htype : a.type = .link)
    (h₂ : t'.getVfsNodeInternal drivers a.bond = some (r, t₂)) :
    t.getVfsNode drivers id true = some (r, t₂.release i) := by
  rw [getVfsNode, h, bind_some]
  dsimp only
  rw [ha]
  dsimp only
  rw [if_pos ⟨rfl, htype⟩, h₂]
  rfl

/-- `GetVfsNodeInternal` of the root. -/
lemma Serves.lookup_root (hdrivers : Serves drivers root) (hdriver : root.driverId ≠ 0)
    (hvnode : root.vnodeId ≠ 0) (hc : Counted t handles)
    (hroom : (∃ (j : ℕ) (b : CachedNode), t[j]? = some b ∧ b.id = root ∧ b.type = .directory) ∨
      t.find root = none ∧ ∃ k, t.Usable k) :
    ∃ j t' b, t.getVfsNodeInternal drivers root = some (some j, t') ∧ t'[j]? = some b ∧
      b.id = root ∧ b.type = .directory := by
  rcases hroom with ⟨j, b, hb, hid, htype⟩ | ⟨hfind, husable⟩
  · exact ⟨j, _, _, getVfsNodeInternal_hit hdriver hvnode (hc.find_eq hb hid hdriver),
      change_self hb _, hid, htype⟩
  · obtain ⟨data, henter⟩ := hdrivers.root
    obtain ⟨k, hk, heq⟩ := getVfsNodeInternal_enter hdriver hvnode hfind husable hdrivers.api
      hdrivers.exit henter
    obtain ⟨slot, hslot, -⟩ := t.chooseLoop_eq.2.1 k hk
    exact ⟨k, _, _, heq, getElem?_set_slot hslot _, rfl, rfl⟩

/-- **The mountpoint leads to the root.** -/
lemma Serves.getVfsNode_root (hdrivers : Serves drivers root) (hm : m.driverId ≠ 0)
    (hm' : m.vnodeId ≠ 0) (hdriver : root.driverId ≠ 0) (hvnode : root.vnodeId ≠ 0)
    (hc : Counted t handles) (hlink : m ≠ root → Linked t m root) (hopen : Open t m root) :
    ∃ j t' b, t.getVfsNode drivers m true = some (some j, t') ∧ t'[j]? = some b ∧
      b.id = root ∧ b.type = .directory := by
  by_cases hmroot : m = root
  · subst hmroot
    have hroom : (∃ (j : ℕ) (b : CachedNode), t[j]? = some b ∧ b.id = m ∧ b.type = .directory) ∨
        t.find m = none ∧ ∃ k, t.Usable k :=
      hopen.imp_right fun ⟨hfind, k, b, hb, hfree, hbusy, _⟩ => ⟨hfind, k, b, hb, hfree, hbusy⟩
    obtain ⟨j, t', b, heq, hb, hid, htype⟩ := hdrivers.lookup_root hdriver hvnode hc hroom
    exact ⟨j, t', b, getVfsNode_of_plain heq hb (by simp [htype]), hb, hid, htype⟩
  · obtain ⟨i, a, ha, hid, htype, hbond⟩ := hlink hmroot
    have hfind := hc.find_eq ha hid hm
    have hlt := (List.getElem?_eq_some_iff.mp ha).1
    -- the slot of the mountpoint is referred to while the root is looked up
    have hroom : (∃ (j : ℕ) (b : CachedNode), (t.acquire i)[j]? = some b ∧ b.id = root ∧
        b.type = .directory) ∨ (t.acquire i).find root = none ∧ ∃ k, (t.acquire i).Usable k := by
      rcases hopen with ⟨j, b, hb, hbid, hbtype⟩ | ⟨hfind, k, b, hb, hfree, hbusy, hne⟩
      · obtain ⟨b₁, hb₁, h₁, h₂, -⟩ := link_acquire hb i
        exact .inl ⟨j, b₁, hb₁, h₁.trans hbid, h₂.trans hbtype⟩
      · refine .inr ⟨by rw [find_acquire, hfind], k, b, ?_, hfree, hbusy⟩
        rw [acquire, getElem?_change, if_neg, hb]
        rintro rfl
        cases ha.symm.trans hb
        exact hne hid
    obtain ⟨j, t', b, heq, hb, hbid, hbtype⟩ :=
      hdrivers.lookup_root hdriver hvnode (hc.acquire hlt) hroom
    obtain ⟨b₁, hb₁, h₁, h₂, -⟩ := link_release hb i
    refine ⟨j, t'.release i, b₁, ?_, hb₁, h₁.trans hbid, h₂.trans hbtype⟩
    exact getVfsNode_of_link (getVfsNodeInternal_hit hm hm' hfind) (change_self ha _) htype
      (hbond ▸ heq)

/-- **If the mountpoint leads to the root**, then through a link in the cache. -/
lemma linked_of_getVfsNode (hc : Counted t handles) (h : t.getVfsNode drivers m true = some (some j, t'))
    (hb : t'[j]? = some b) (hid : b.id = root) (htype : b.type = .directory) :
    root.driverId ≠ 0 ∧ root.vnodeId ≠ 0 ∧ (m ≠ root → Linked t m root) ∧ Open t m root := by
  have hroom : ∀ {t t' : TreeCache} {id : VfsId} {b : CachedNode}, Lookup drivers t id (some j) t' →
      t'[j]? = some b → b.type = .directory →
      (∃ a, t[j]? = some a ∧ a.id = id ∧ a.type = .directory) ∨ t.find id = none ∧ t.Usable j := by
    intro t t' id b h hb htype
    cases h with
    | hit i _ _ hfind =>
      obtain ⟨a, ha, hid⟩ := find_eq_some hfind
      obtain ⟨a', ha', hsame⟩ := slot_acquire hb
      cases ha.symm.trans ha'
      exact .inl ⟨a, ha, hid, hsame.2.1 ▸ htype⟩
    | entered k slot type driverData _ _ hfind hchosen hslot _ _ _ =>
      exact .inr ⟨hfind, t.chooseLoop_eq.2.1 j hchosen⟩
  rcases getVfsNode_cases h with ⟨hlookup, -⟩ | ⟨i, t₁, t₂, node, h₁, hnode, hlink, -, h₂, rfl⟩
  · obtain ⟨hdriver, hvnode, b', hb', hid'⟩ := hlookup.found
    cases hb.symm.trans hb'
    obtain rfl : m = root := hid'.symm.trans hid
    refine ⟨hdriver, hvnode, fun hne => absurd rfl hne, ?_⟩
    rcases hroom hlookup hb htype with ⟨a, ha, haid, hatype⟩ | ⟨hfind, slot, hslot, hfree, hbusy⟩
    · exact .inl ⟨j, a, ha, haid, hatype⟩
    · exact .inr ⟨hfind, j, slot, hslot, hfree, hbusy, find_eq_none hfind hslot⟩
  · obtain ⟨b₁, hb₁, hsame⟩ := slot_release hb
    obtain ⟨hdriver, hvnode, b₂, hb₂, hbond⟩ := h₂.found
    cases hb₁.symm.trans hb₂
    have hbond : node.bond = root := hbond.symm.trans (hsame.1.symm.trans hid)
    rw [hbond] at hdriver hvnode h₂
    obtain ⟨hm, -, -⟩ := h₁.found
    rcases h₁.of_bond hnode (hbond ▸ h₂) with ⟨⟨⟩, -⟩ | ⟨rfl, hfind, a, ha, haid, hanode⟩
    refine ⟨hdriver, hvnode, fun _ => ⟨i, a, ha, haid, hanode.2.1 ▸ hlink, hanode.2.2 ▸ hbond⟩, ?_⟩
    rcases hroom h₂ hb₁ (hsame.2.1 ▸ htype) with
      ⟨a₁, ha₁, ha₁id, ha₁type⟩ | ⟨hfind₁, slot, hslot, hfree, hbusy⟩
    · obtain ⟨a₀, ha₀, hsame₀⟩ := slot_acquire ha₁
      exact .inl ⟨j, a₀, ha₀, hsame₀.1 ▸ ha₁id, hsame₀.2.1 ▸ ha₁type⟩
    · rw [find_acquire] at hfind₁
      rw [acquire, getElem?_change] at hslot
      split_ifs at hslot with hij
      · obtain ⟨a', -, rfl⟩ := map_eq_some_iff.mp hslot
        exact absurd hfree (Nat.succ_ne_zero _)
      · refine .inr ⟨hfind₁, j, slot, hslot, hfree, hbusy, fun hmid => hij ?_⟩
        have hjfind := hc.find_eq hslot hmid hm
        exact some.inj (hfind.symm.trans hjfind)

/-! ### The slots after a mount -/

lemma Counted.setLink (hc : Counted t handles) (i : ℕ) (bond : VfsId) :
    Counted (t.setLink i bond) handles :=
  hc.change (by simp) (by simp) (fun _ _ => rfl) hc.inside

/-- **The frame of a handle**: what is known of the id, the type and the bond of a node that someone
else refers to is kept. -/
lemma Counted.keptBy_held (drivers : CacheDrivers) (i : ℕ) (hp : ∀ a b, SameLink a b → p a → p b) :
    KeptBy drivers fun t handles => Counted t (i :: handles) ∧ ∃ a, t[i]? = some a ∧ p a where
  lookup := by
    rintro t t' handles id r ⟨hc, a, ha, hpa⟩ h
    have hpos : 0 < a.references := by
      rw [hc.count i a ha, count_cons_self]
      omega
    obtain ⟨b, hb, hsame⟩ := (h.sameNode ha hpos).link ha
    exact ⟨(h.counted hc).perm perm_middle, b, hb, hp a b hsame hpa⟩
  release := by
    rintro t handles j ⟨hc, a, ha, hpa⟩
    obtain ⟨b, hb, hsame⟩ := link_release ha j
    exact ⟨(hc.perm (Perm.swap j i handles)).release, b, hb, hp a b hsame hpa⟩
  perm := by
    rintro t handles handles' ⟨hc, hheld⟩ hperm
    exact ⟨hc.perm (hperm.cons i), hheld⟩

/-- **What is known of the nodes in all slots** is kept if it holds of nodes as they are entered. -/
lemma Counted.keptBy_slots {drivers : CacheDrivers} (hp : ∀ a b, SameLink a b → p a → p b)
    (hnew : ∀ b data, b.bond = .null →
      drivers.enterCache b.id.driverId b.id.vnodeId = some (b.type, data) → p b) :
    KeptBy drivers fun t handles => Counted t handles ∧
      ∀ (j : ℕ) (a : CachedNode), t[j]? = some a → p a where
  lookup := by
    rintro t t' handles id r ⟨hc, hall⟩ h
    refine ⟨h.counted hc, fun j b hb => ?_⟩
    rcases h.slot hb with ⟨a, ha, hsame⟩ | ⟨rfl, -, hbond, -, -, data, henter⟩
    · exact hp a b hsame (hall j a ha)
    · exact hnew b data hbond henter
  release := by
    rintro t handles i ⟨hc, hall⟩
    refine ⟨hc.release, fun j b hb => ?_⟩
    obtain ⟨a, ha, hsame⟩ := slot_release hb
    exact hp a b hsame (hall j a ha)
  perm h hperm := ⟨h.1.perm hperm, h.2⟩

end TreeCache

end Northport.Filesystem
