/-
# Lookups that fail, and nodes that leave the cache

A lookup that finds no driver returns no node, but it has chosen a slot by then.  When
the slot had a node, its driver is told by `exit_cache`, with the id of the driver where
the handle of the node should be.
-/
import Northport.Filesystem.TreeCache

namespace Northport.Filesystem

open Option List

namespace TreeCache

variable {drivers : CacheDrivers} {t : TreeCache} {id : VfsId} {k : ℕ} {slot : CachedNode}

/-- The calls of `exit_cache` that `GetVfsNodeInternal` makes: the id of the driver, and the two
arguments. -/
def exitCacheCalls (drivers : CacheDrivers) (t : TreeCache) (id : VfsId) : List (ℕ × ℕ × ℕ) :=
  if id.driverId = 0 ∨ id.vnodeId = 0 then []
  else
    match t.find id with
    | some _ => []
    | none =>
        ((t.chooseLoop t.length 0 none).1.bind (t[·]?)).elim [] fun store =>
          if store.id.driverId ≠ 0 ∧ drivers.getApi store.id.driverId = true then
            [(store.id.driverId, store.id.driverId, store.driverData)]
          else []

/-- **A lookup that fails changes nothing, and a node that is evicted is announced once.** -/
def Orderly (drivers : CacheDrivers) (t : TreeCache) (id : VfsId) : Prop :=
  ∀ (r : Option ℕ) (t' : TreeCache), t.getVfsNodeInternal drivers id = some (r, t') →
    (r = none → t' = t) ∧ ∀ (j : ℕ) (a b : CachedNode), t[j]? = some a → t'[j]? = some b →
      a.id.driverId ≠ 0 → b.id ≠ a.id →
        t.exitCacheCalls drivers id = [(a.id.driverId, a.id.vnodeId, a.driverData)]

/-- **The condition**: if a slot has to be chosen, there are drivers for its node and for the new
one, and the handle of a node that leaves the cache is the id of its driver. -/
def Announced (drivers : CacheDrivers) (t : TreeCache) (id : VfsId) : Prop :=
  ∀ (k : ℕ) (slot : CachedNode), id.driverId ≠ 0 → id.vnodeId ≠ 0 → t.find id = none →
    t.chosen = some k → t[k]? = some slot →
      if slot.id.driverId = 0 then drivers.getApi id.driverId = true
      else drivers.getApi slot.id.driverId = true ∧
        (drivers.exitCache slot.id.driverId slot.id.driverId slot.driverData = true →
          drivers.getApi id.driverId = true ∧
            ((drivers.enterCache id.driverId id.vnodeId).isSome →
              slot.id.driverId = slot.id.vnodeId))

lemma exitCacheCalls_chosen (hdriver : id.driverId ≠ 0) (hvnode : id.vnodeId ≠ 0)
    (hfind : t.find id = none) (hchosen : t.chosen = some k) (hslot : t[k]? = some slot) :
    t.exitCacheCalls drivers id =
      if slot.id.driverId ≠ 0 ∧ drivers.getApi slot.id.driverId = true then
        [(slot.id.driverId, slot.id.driverId, slot.driverData)] else [] := by
  rw [chosen] at hchosen
  rw [exitCacheCalls, if_neg (by simp [hdriver, hvnode]), hfind]
  rw [hchosen, bind_some, hslot, elim_some]

/-- The lock of the slot that was chosen is not given back. -/
lemma set_busy_ne (husable : t.Usable k) (hslot : t[k]? = some slot) (data : ℕ) :
    t.set k { slot with busy := true, driverData := data } ≠ t := by
  intro heq
  obtain ⟨slot', hslot', -, hbusy⟩ := husable
  cases hslot.symm.trans hslot'
  have hset := getElem?_set_slot hslot { slot with busy := true, driverData := data }
  rw [heq, hslot] at hset
  rw [some.inj hset] at hbusy
  cases hbusy

lemma Orderly.announced (h : Orderly drivers t id) : Announced drivers t id := by
  intro k slot hdriver hvnode hfind hchosen hslot
  have heq : t.getVfsNodeInternal drivers id = _ :=
    getVfsNodeInternal_chosen hdriver hvnode hfind hchosen hslot
  have hfails : ∀ data, t.getVfsNodeInternal drivers id ≠
      some (none, t.set k { slot with busy := true, driverData := data }) := fun data hnone =>
    set_busy_ne (t.chooseLoop_eq.2.1 k hchosen) hslot data ((h none _ hnone).1 rfl)
  rw [replace, set_set] at heq
  split_ifs with hold
  · rw [if_neg (not_not.mpr hold)] at heq
    by_contra hapi
    rw [if_pos (by simpa using hapi)] at heq
    exact hfails slot.driverData heq
  rw [if_pos hold] at heq
  have hapi : drivers.getApi slot.id.driverId = true := by
    by_contra hapi
    rw [if_pos (by simpa using hapi)] at heq
    exact hfails slot.driverData heq
  rw [if_neg (by simp [hapi])] at heq
  refine ⟨hapi, fun hexit => ?_⟩
  rw [if_neg (by simp [hexit])] at heq
  have hnew : drivers.getApi id.driverId = true := by
    by_contra hnew
    rw [if_pos (by simpa using hnew)] at heq
    exact hfails 0 heq
  refine ⟨hnew, fun henter => ?_⟩
  obtain ⟨r, hr⟩ := isSome_iff_exists.mp henter
  rw [if_neg (by simp [hnew]), enter, hr, map_some, set_set] at heq
  -- the node of the slot is evicted
  have hcalls := (h _ _ heq).2 k slot _ hslot (getElem?_set_slot hslot _) hold
    (find_eq_none hfind hslot).symm
  rw [exitCacheCalls_chosen hdriver hvnode hfind hchosen hslot, if_pos ⟨hold, hapi⟩] at hcalls
  exact congrArg (·.2.1) (singleton_inj.mp hcalls)

/-- **A lookup is orderly exactly under the condition.** -/
theorem orderly_iff (drivers : CacheDrivers) (t : TreeCache) (id : VfsId) :
    Orderly drivers t id ↔ Announced drivers t id := by
  constructor
  · exact Orderly.announced
  · intro h r t' heq
    have hstays : ∀ {j : ℕ} {a b : CachedNode} {p : Prop}, t[j]? = some a → t[j]? = some b →
        b.id ≠ a.id → p := fun ha hb hne =>
      absurd (congrArg CachedNode.id (some.inj (hb.symm.trans ha))) hne
    cases lookup_of_eq heq with
    | null _ => exact ⟨fun _ => rfl, fun j a b ha hb _ => hstays ha hb⟩
    | full _ _ _ _ => exact ⟨fun _ => rfl, fun j a b ha hb _ => hstays ha hb⟩
    | hit i _ _ _ =>
      refine ⟨(nomatch ·), fun j a b ha hb _ hne => absurd ?_ hne⟩
      obtain ⟨a', ha', rfl⟩ := slot_of_change hb
      cases ha.symm.trans ha'
      split_ifs <;> rfl
    | failed k slot data hdriver hvnode hfind hchosen hslot hapi =>
      have hcond := h k slot hdriver hvnode hfind hchosen hslot
      rw [getVfsNodeInternal_chosen hdriver hvnode hfind hchosen hslot, replace] at heq
      split_ifs at hcond with hold
      · simp [hold, hcond] at hapi
      · have hnew : drivers.getApi id.driverId = false := hapi.resolve_right (by simp [hcond.1])
        rw [if_pos hold, if_neg (by simp [hcond.1])] at heq
        have hexit : drivers.exitCache slot.id.driverId slot.id.driverId slot.driverData = true := by
          by_contra hexit
          rw [if_pos (by simpa using hexit)] at heq
          cases heq
        simp [(hcond.2 hexit).1] at hnew
    | entered k slot type data hdriver hvnode hfind hchosen hslot hapi henter hexit =>
      refine ⟨(nomatch ·), fun j a b ha hb hold hne => ?_⟩
      rcases slot_of_set hb with ⟨rfl, rfl⟩ | ⟨-, hb⟩
      · cases hslot.symm.trans ha
        have hcond := h k slot hdriver hvnode hfind hchosen hslot
        rw [if_neg hold] at hcond
        rw [exitCacheCalls_chosen hdriver hvnode hfind hchosen hslot, if_pos ⟨hold, hcond.1⟩,
          ← (hcond.2 (hexit hold)).2 (by simp [henter])]
      · exact hstays ha hb hne

/-- Drivers of empty files. -/
def emptyFiles : CacheDrivers := ⟨fun _ => true, fun _ _ _ => true, fun _ _ => some (.file, 0)⟩

/-- **The wrong node is announced**: when the node 2 of the driver 1 is evicted, the driver is told
that its node 1 leaves the cache. -/
theorem wrong_node_announced :
    ¬ Orderly emptyFiles [⟨0, .file, 7, ⟨1, 2⟩, .null, false⟩] ⟨1, 3⟩ := by
  intro h
  have hcalls := (h (some 0) [⟨1, .file, 0, ⟨1, 3⟩, .null, false⟩] (by decide)).2 0 _ _ rfl rfl
    (by decide) (by decide)
  exact absurd hcalls (by decide)

end TreeCache

end Northport.Filesystem
