/-
# The cache of VFS nodes (`filesystem/TreeCache.cpp`)

The cache is an array of slots.  A node that is not in it is entered into a slot that
nobody refers to: an empty one if there is one, otherwise the first one, whose node leaves
the cache.  The handles that the callers have are counted in the slots; which handles
there are is kept beside the cache.

What the drivers answer during a lookup is a parameter of the lookup.  A function returns
`none` when an assertion fires.
-/
import Northport.Filesystem.FsDriver
import Northport.Lib.Post
import Northport.Lib.Run

namespace Northport.Filesystem

open Lib List Option

/-! ### The cache -/

/-- A slot: a node, and the lock `busy`. -/
structure CachedNode where
  references : ℕ
  type : NodeType
  driverData : ℕ
  id : VfsId
  bond : VfsId
  busy : Bool
deriving DecidableEq, Repr

/-- What the drivers answer: whether there is a driver with an id (`GetApi`), and the results of
its functions `exit_cache` and `enter_cache`, which may fire an assertion. -/
structure CacheDrivers where
  getApi : ℕ → Bool
  exitCache : ℕ → ℕ → ℕ → Bool
  enterCache : ℕ → ℕ → Option (NodeType × ℕ)

abbrev TreeCache := List CachedNode

/-- `new(&store.node) VfsNode()`. -/
def CachedNode.empty : CachedNode := ⟨0, .file, 0, .null, .null, false⟩

/-- `InitTreeCache`. -/
def initTreeCache (size : ℕ) : TreeCache := replicate size .empty

namespace TreeCache

/-- A handle to the slot `i` is taken. -/
def acquire (t : TreeCache) (i : ℕ) : TreeCache :=
  t.modify i fun n => { n with references := n.references + 1 }

/-- A handle to the slot `i` is released; there is no destructor. -/
def release (t : TreeCache) (i : ℕ) : TreeCache :=
  t.modify i fun n => { n with references := n.references - 1 }

def setBusy (t : TreeCache) (i : ℕ) (busy : Bool) : TreeCache :=
  t.modify i fun n => { n with busy := busy }

/-- The first loop of `GetVfsNodeInternal`. -/
def find (t : TreeCache) (id : VfsId) : Option ℕ := t.findIdx? fun n => n.id = id

/-- The slot `i` is empty. -/
def isEmpty (t : TreeCache) (i : ℕ) : Bool := t[i]?.all fun n => n.id.vnodeId = 0

/-- One turn of the second loop at a slot that nobody refers to: whether it becomes the candidate. -/
def tryTake (t : TreeCache) (i : ℕ) (slot : CachedNode) : Option ℕ → Option ℕ × TreeCache
  | none => if slot.busy then (none, t) else (some i, t.setBusy i true)
  | some j =>
      if !t.isEmpty j ∧ slot.id.vnodeId = 0 ∧ !slot.busy then
        (some i, (t.setBusy i true).setBusy j false)
      else (some j, t)

/-- The second loop of `GetVfsNodeInternal`, with `n` slots left from `i` on. -/
def chooseLoop : ℕ → ℕ → Option ℕ → TreeCache → Option ℕ × TreeCache
  | 0, _, allocIndex, t => (allocIndex, t)
  | n + 1, i, allocIndex, t =>
      match t[i]? with
      | none => (allocIndex, t)
      | some slot =>
          if slot.references ≠ 0 then chooseLoop n (i + 1) allocIndex t
          else if (t.tryTake i slot allocIndex).1.any t.isEmpty then t.tryTake i slot allocIndex
          else chooseLoop n (i + 1) (t.tryTake i slot allocIndex).1 (t.tryTake i slot allocIndex).2

/-- `GetVfsNodeInternal` once there is a driver for the node: it is entered into the slot. -/
def enter (drivers : CacheDrivers) (t : TreeCache) (id : VfsId) (k : ℕ) :
    Option (Option ℕ × TreeCache) :=
  (drivers.enterCache id.driverId id.vnodeId).map fun r =>
    (some k, t.set k ⟨1, r.1, r.2, id, .null, false⟩)

/-- `GetVfsNodeInternal` from where the slot `k` has been chosen and locked. -/
def replace (drivers : CacheDrivers) (t : TreeCache) (id : VfsId) (k : ℕ) (store : CachedNode) :
    Option (Option ℕ × TreeCache) :=
  if store.id.driverId ≠ 0 then
    if !drivers.getApi store.id.driverId then some (none, t)
    else if !drivers.exitCache store.id.driverId store.id.driverId store.driverData then none
    else
      -- the old node stays in the slot when there is no driver for the new one
      if !drivers.getApi id.driverId then some (none, t.set k { store with driverData := 0 })
      else enter drivers (t.set k { store with driverData := 0 }) id k
  else if !drivers.getApi id.driverId then some (none, t)
  else enter drivers t id k

/-- `GetVfsNodeInternal`: the slot that the handle which is returned refers to. -/
def getVfsNodeInternal (drivers : CacheDrivers) (t : TreeCache) (id : VfsId) :
    Option (Option ℕ × TreeCache) :=
  if id.driverId = 0 ∨ id.vnodeId = 0 then some (none, t)
  else
    match t.find id with
    | some i => some (some i, t.acquire i)
    | none =>
        match t.chooseLoop t.length 0 none with
        | (none, t) => some (none, t)
        | (some k, t) => t[k]?.bind (t.replace drivers id k)

/-- `GetVfsNode`; of a link, the handle to the link itself is released at the end. -/
def getVfsNode (drivers : CacheDrivers) (t : TreeCache) (id : VfsId) (traverseLinks : Bool) :
    Option (Option ℕ × TreeCache) :=
  (t.getVfsNodeInternal drivers id).bind fun
    | (none, t) => some (none, t)
    | (some i, t) =>
        match t[i]? with
        | none => none
        | some node =>
            if traverseLinks ∧ node.type = .link then
              (t.getVfsNodeInternal drivers node.bond).map fun r => (r.1, r.2.release i)
            else some (some i, t)

end TreeCache

/-! ### Runs -/

/-- The cache, and the slots that the handles in use refer to. -/
structure CacheState where
  cache : TreeCache
  handles : List ℕ
deriving DecidableEq, Repr

inductive CacheOp where
  | getVfsNode (id : VfsId) (traverseLinks : Bool) (drivers : CacheDrivers)
  | copy (slot : ℕ)
  | release (slot : ℕ)

namespace CacheState

def init (size : ℕ) : CacheState := ⟨initTreeCache size, []⟩

/-- Handles are copied and released only while they exist. -/
def step (s : CacheState) : CacheOp → Option CacheState
  | .getVfsNode id traverseLinks drivers =>
      (s.cache.getVfsNode drivers id traverseLinks).map fun r => ⟨r.2, r.1.toList ++ s.handles⟩
  | .copy i => if i ∈ s.handles then some ⟨s.cache.acquire i, i :: s.handles⟩ else none
  | .release i => if i ∈ s.handles then some ⟨s.cache.release i, s.handles.erase i⟩ else none

end CacheState

namespace TreeCache

variable {drivers : CacheDrivers} {t t' : TreeCache} {id : VfsId} {i j k : ℕ} {slot : CachedNode}
  {handles : List ℕ} {b : CachedNode} {f : CachedNode → CachedNode} {r : Option ℕ}
  {handles' : List ℕ} {traverseLinks : Bool}

/-! ### The choice of a slot -/

/-- A slot that may be chosen. -/
def Usable (t : TreeCache) (i : ℕ) : Prop :=
  ∃ slot, t[i]? = some slot ∧ slot.references = 0 ∧ slot.busy = false

/-- The lock of the candidate is held. -/
def lock (t : TreeCache) : Option ℕ → TreeCache
  | none => t
  | some k => t.setBusy k true

lemma getElem?_change (t : TreeCache) (i j : ℕ) (f : CachedNode → CachedNode) :
    (t.modify i f)[j]? = if i = j then t[j]?.map f else t[j]? := by
  rw [getElem?_modify]
  split_ifs <;> simp

/-- What is in a slot after the slot `i` was changed. -/
lemma slot_of_change (hb : (t.modify i f)[j]? = some b) :
    ∃ a, t[j]? = some a ∧ b = if i = j then f a else a := by
  rw [getElem?_modify] at hb
  obtain ⟨a, ha, rfl⟩ := map_eq_some_iff.mp hb
  exact ⟨a, ha, rfl⟩

/-- What is in a slot after the slot `k` was overwritten. -/
lemma slot_of_set {new : CachedNode} (hb : (t.set k new)[j]? = some b) :
    (k = j ∧ b = new) ∨ k ≠ j ∧ t[j]? = some b := by
  rw [getElem?_set] at hb
  split_ifs at hb with hkj hlt
  · exact .inl ⟨hkj, (some.inj hb).symm⟩
  · exact .inr ⟨hkj, hb⟩

lemma change_self (ha : t[i]? = some a) (f : CachedNode → CachedNode) :
    (t.modify i f)[i]? = some (f a) := by
  rw [getElem?_change, if_pos rfl, ha, map_some]

lemma getElem?_set_slot (hslot : t[k]? = some slot) (new : CachedNode) :
    (t.set k new)[k]? = some new :=
  getElem?_set_self (List.getElem?_eq_some_iff.mp hslot).1

lemma lock_of_ne {a : Option ℕ} (h : a ≠ some i) : (t.lock a)[i]? = t[i]? := by
  cases a with
  | none => rfl
  | some k => rw [lock, setBusy, getElem?_change, if_neg (fun heq => h (by rw [heq]))]

lemma isEmpty_lock (t : TreeCache) (a : Option ℕ) (i : ℕ) : (t.lock a).isEmpty i = t.isEmpty i := by
  cases a with
  | none => rfl
  | some k =>
    rw [isEmpty, isEmpty, lock, setBusy, getElem?_change]
    split_ifs <;> cases t[i]? <;> rfl

/-- The slot `k` is at least as good as the slot `j`: an empty slot is better than another one, and
an earlier one is better than a later one. -/
def Preferred (t : TreeCache) (k j : ℕ) : Prop :=
  (t.isEmpty j = true → t.isEmpty k = true) ∧ (t.isEmpty k = t.isEmpty j → k ≤ j)

/-- What is known of the candidate before the slot `i` is looked at. -/
structure Candidate (t : TreeCache) (i : ℕ) (a : Option ℕ) : Prop where
  usable : ∀ k ∈ a, k < i ∧ t.Usable k
  noCandidate : a = none → ∀ j < i, ¬ t.Usable j
  best : ∀ k ∈ a, ∀ j < i, t.Usable j → t.Preferred k j

/-- The candidate stays the same. -/
lemma Candidate.succ {a : Option ℕ} (h : Candidate t i a) (hnone : a = none → ¬ t.Usable i)
    (hbest : ∀ k ∈ a, t.Usable i → t.Preferred k i) : Candidate t (i + 1) a := by
  refine ⟨fun k hk => ⟨(h.usable k hk).1.trans (Nat.lt_succ_self i), (h.usable k hk).2⟩,
    fun ha j hj => ?_, fun k hk j hj => ?_⟩
  · rcases Nat.lt_succ_iff_lt_or_eq.mp hj with hj | rfl
    · exact h.noCandidate ha j hj
    · exact hnone ha
  · rcases Nat.lt_succ_iff_lt_or_eq.mp hj with hj | rfl
    · exact h.best k hk j hj
    · exact hbest k hk

/-- One turn of the loop at a slot that nobody refers to. -/
lemma Candidate.turn {a : Option ℕ} (h : Candidate t i a) (hslot : t[i]? = some slot)
    (hfree : slot.references = 0) : ∃ a', (t.lock a).tryTake i slot a = (a', t.lock a') ∧
      Candidate t (i + 1) a' := by
  have hi : t.Usable i ↔ slot.busy = false := by
    constructor
    · rintro ⟨slot', hslot', -, hbusy⟩
      cases hslot.symm.trans hslot'
      exact hbusy
    · exact fun hbusy => ⟨slot, hslot, hfree, hbusy⟩
  have hempty : t.isEmpty i = true ↔ slot.id.vnodeId = 0 := by
    rw [isEmpty, hslot]
    simp
  have hlast : ∀ j < i + 1, j < i ∨ j = i := fun j hj => Nat.lt_succ_iff_lt_or_eq.mp hj
  cases a with
  | none =>
    rw [tryTake]
    cases hbusy : slot.busy with
    | true => exact ⟨none, rfl, h.succ (by simp [hi, hbusy]) (by simp)⟩
    | false =>
      refine ⟨some i, rfl, ?_, by simp, ?_⟩
      · rintro k hk
        cases hk
        exact ⟨Nat.lt_succ_self _, hi.mpr hbusy⟩
      · rintro k hk j hj hj'
        cases hk
        rcases hlast j hj with hj | rfl
        · exact absurd hj' (h.noCandidate rfl j hj)
        · exact ⟨id, fun _ => le_rfl⟩
  | some k =>
    obtain ⟨hki, store, hstore, -, hstoreBusy⟩ := h.usable k rfl
    rw [tryTake, isEmpty_lock]
    by_cases htake : t.isEmpty k = false ∧ slot.id.vnodeId = 0 ∧ slot.busy = false
    · -- the lock goes over to the empty slot
      rw [if_pos (by simpa using htake)]
      refine ⟨some i, ?_, ?_, by simp, ?_⟩
      · have hunlock : ((t.lock (some k)).setBusy i true).setBusy k false = t.setBusy i true := by
          refine ext_getElem? fun j => ?_
          simp only [lock, setBusy, getElem?_change]
          by_cases hkj : k = j
          · have hij : i ≠ j := by omega
            rw [if_pos hkj, if_neg hij, if_pos hkj, if_neg hij, ← hkj, hstore, ← hstoreBusy]
            rfl
          · rw [if_neg hkj, if_neg hkj]
        rw [hunlock]
        rfl
      · rintro _ hk
        cases hk
        exact ⟨Nat.lt_succ_self _, hi.mpr htake.2.2⟩
      · rintro _ hk j hj hj'
        cases hk
        refine ⟨fun _ => hempty.mpr htake.2.1, fun heq => ?_⟩
        rcases hlast j hj with hj | rfl
        · -- an empty slot before this one would have been the candidate
          have := (h.best k rfl j hj hj').1 (heq ▸ hempty.mpr htake.2.1)
          rw [htake.1] at this
          cases this
        · exact le_rfl
    · rw [if_neg (by simpa using htake)]
      refine ⟨some k, rfl, h.succ (by simp) ?_⟩
      rintro _ hk hi'
      cases hk
      refine ⟨fun hj => ?_, fun _ => hki.le⟩
      by_contra hfull
      exact htake ⟨by simpa using hfull, hempty.mp hj, hi.mp hi'⟩

/-- **The choice of a slot**: the best one that nobody refers to. -/
lemma Candidate.chooseLoop {a : Option ℕ} {n : ℕ} (h : Candidate t i a) (hn : i + n = t.length) :
    ∃ a', (t.lock a).chooseLoop n i a = (a', t.lock a') ∧ (∀ k ∈ a', t.Usable k) ∧
      (a' = none → ∀ j, ¬ t.Usable j) ∧ ∀ k ∈ a', ∀ j, t.Usable j → t.Preferred k j := by
  induction n generalizing i a with
  | zero =>
    have hlt : ∀ j, t.Usable j → j < i := by
      rintro j ⟨slot, hslot, -⟩
      have := (List.getElem?_eq_some_iff.mp hslot).1
      omega
    exact ⟨a, rfl, fun k hk => (h.usable k hk).2, fun ha j hj => h.noCandidate ha j (hlt j hj) hj,
      fun k hk j hj => h.best k hk j (hlt j hj) hj⟩
  | succ n ih =>
    have hne : a ≠ some i := fun heq => absurd (h.usable i heq).1 (lt_irrefl i)
    have hslot : t[i]? = some t[i] := getElem?_eq_getElem (by omega)
    rw [chooseLoop, lock_of_ne hne, hslot]
    dsimp only
    by_cases hfree : t[i].references = 0
    · rw [if_neg (not_not.mpr hfree)]
      obtain ⟨a', hturn, h'⟩ := h.turn hslot hfree
      rw [hturn]
      split_ifs with hempty
      · obtain ⟨k, rfl⟩ : ∃ k, a' = some k := by
          cases a' with
          | none => simp at hempty
          | some k => exact ⟨k, rfl⟩
        rw [any_some, isEmpty_lock] at hempty
        refine ⟨some k, rfl, fun k' hk' => (h'.usable k' hk').2, by simp, fun k' hk' j hj => ?_⟩
        cases hk'
        -- the slots that have not been looked at come later
        by_cases hji : j < i + 1
        · exact h'.best k rfl j hji hj
        · exact ⟨fun _ => hempty, fun _ => by have := (h'.usable k rfl).1; omega⟩
      · exact ih h' (by omega)
    · rw [if_pos hfree]
      have hnot : ¬ t.Usable i := by
        rintro ⟨slot, hslot', hzero, -⟩
        cases hslot.symm.trans hslot'
        exact hfree hzero
      exact ih (h.succ (fun _ => hnot) fun _ _ hi => absurd hi hnot) (by omega)

/-- The slot that the second loop ends with. -/
def chosen (t : TreeCache) : Option ℕ := (t.chooseLoop t.length 0 none).1

lemma chooseLoop_eq (t : TreeCache) : t.chooseLoop t.length 0 none = (t.chosen, t.lock t.chosen) ∧
    (∀ k ∈ t.chosen, t.Usable k) ∧ (t.chosen = none → ∀ j, ¬ t.Usable j) ∧
      ∀ k ∈ t.chosen, ∀ j, t.Usable j → t.Preferred k j := by
  have hstart : Candidate t 0 none := ⟨by simp, by simp, by simp⟩
  obtain ⟨a, heq, husable, hnone, hbest⟩ := hstart.chooseLoop (zero_add _)
  have hchosen : t.chosen = a := congrArg Prod.fst heq
  rw [hchosen]
  exact ⟨heq, husable, hnone, hbest⟩

/-- The slot that is chosen is determined by the order. -/
lemma chosen_eq (hk : t.Usable k) (hbest : ∀ j, t.Usable j → t.Preferred k j) :
    t.chosen = some k := by
  obtain ⟨-, husable, hnone, hbest'⟩ := t.chooseLoop_eq
  cases hchosen : t.chosen with
  | none => exact absurd hk (hnone hchosen k)
  | some k' =>
    have h := hbest k' (husable k' hchosen)
    have h' := hbest' k' hchosen k hk
    have heq : t.isEmpty k = t.isEmpty k' := Bool.eq_iff_iff.mpr ⟨h'.1, h.1⟩
    exact congrArg some (le_antisymm (h'.2 heq.symm) (h.2 heq))

/-! ### The effect of a lookup -/

/-- **The outcomes of `GetVfsNodeInternal`**, with the slot of the handle and the cache. -/
inductive Lookup (drivers : CacheDrivers) (t : TreeCache) (id : VfsId) : Option ℕ → TreeCache → Prop
  | null : id.driverId = 0 ∨ id.vnodeId = 0 → Lookup drivers t id none t
  | hit (i : ℕ) : id.driverId ≠ 0 → id.vnodeId ≠ 0 → t.find id = some i →
      Lookup drivers t id (some i) (t.acquire i)
  | full : id.driverId ≠ 0 → id.vnodeId ≠ 0 → t.find id = none → t.chosen = none →
      Lookup drivers t id none t
  | failed (k : ℕ) (slot : CachedNode) (driverData : ℕ) : id.driverId ≠ 0 → id.vnodeId ≠ 0 →
      t.find id = none → t.chosen = some k → t[k]? = some slot →
      (drivers.getApi id.driverId = false ∨
        slot.id.driverId ≠ 0 ∧ drivers.getApi slot.id.driverId = false) →
      Lookup drivers t id none (t.set k { slot with busy := true, driverData := driverData })
  | entered (k : ℕ) (slot : CachedNode) (type : NodeType) (driverData : ℕ) : id.driverId ≠ 0 →
      id.vnodeId ≠ 0 → t.find id = none → t.chosen = some k → t[k]? = some slot →
      drivers.getApi id.driverId = true →
      drivers.enterCache id.driverId id.vnodeId = some (type, driverData) →
      (slot.id.driverId ≠ 0 →
        drivers.exitCache slot.id.driverId slot.id.driverId slot.driverData = true) →
      Lookup drivers t id (some k) (t.set k ⟨1, type, driverData, id, .null, false⟩)

lemma setBusy_eq_set {busy : Bool} (hslot : t[k]? = some slot) :
    t.setBusy k busy = t.set k { slot with busy := busy } := by
  rw [setBusy, modify_eq_set_getElem?, hslot]
  rfl

/-- `GetVfsNodeInternal` of a node that is not in the cache, when the slot `k` is chosen. -/
lemma getVfsNodeInternal_chosen (hdriver : id.driverId ≠ 0) (hvnode : id.vnodeId ≠ 0)
    (hfind : t.find id = none) (hchosen : t.chosen = some k) (hslot : t[k]? = some slot) :
    t.getVfsNodeInternal drivers id =
      replace drivers (t.set k { slot with busy := true }) id k { slot with busy := true } := by
  rw [getVfsNodeInternal, if_neg (by simp [hdriver, hvnode]), hfind, t.chooseLoop_eq.1, hchosen]
  dsimp only
  rw [lock, setBusy_eq_set hslot, getElem?_set_slot hslot, bind_some]

lemma lookup_of_eq (h : t.getVfsNodeInternal drivers id = some (r, t')) :
    Lookup drivers t id r t' := by
  by_cases hnull : id.driverId = 0 ∨ id.vnodeId = 0
  · rw [getVfsNodeInternal, if_pos hnull] at h
    cases h
    exact .null hnull
  have hnull' := not_or.mp hnull
  cases hfind : t.find id with
  | some i =>
    rw [getVfsNodeInternal, if_neg hnull, hfind] at h
    cases h
    exact .hit i hnull'.1 hnull'.2 hfind
  | none =>
    cases hchosen : t.chosen with
    | none =>
      rw [getVfsNodeInternal, if_neg hnull, hfind, t.chooseLoop_eq.1, hchosen] at h
      cases h
      exact .full hnull'.1 hnull'.2 hfind hchosen
    | some k =>
      obtain ⟨slot, hslot, -⟩ := t.chooseLoop_eq.2.1 k hchosen
      rw [getVfsNodeInternal_chosen hnull'.1 hnull'.2 hfind hchosen hslot, replace,
        set_set] at h
      have hfailed : ∀ data : ℕ, (drivers.getApi id.driverId = false ∨
          slot.id.driverId ≠ 0 ∧ drivers.getApi slot.id.driverId = false) →
          some (none, t.set k { slot with busy := true, driverData := data }) = some (r, t') →
            Lookup drivers t id r t' := by
        intro data hapi heq
        cases heq
        exact .failed k slot data hnull'.1 hnull'.2 hfind hchosen hslot hapi
      have hentered : ∀ store : CachedNode, (slot.id.driverId ≠ 0 →
          drivers.exitCache slot.id.driverId slot.id.driverId slot.driverData = true) →
          drivers.getApi id.driverId = true → enter drivers (t.set k store) id k = some (r, t') →
            Lookup drivers t id r t' := by
        intro store hexit hapi heq
        obtain ⟨⟨type, data⟩, henter, heq⟩ := map_eq_some_iff.mp heq
        cases heq
        rw [set_set]
        exact .entered k slot type data hnull'.1 hnull'.2 hfind hchosen hslot hapi henter hexit
      split_ifs at h with hold hapi hexit hnew hnew'
      · exact hfailed slot.driverData (.inr ⟨hold, by simpa using hapi⟩) h
      · exact hfailed 0 (.inl (by simpa using hnew)) h
      · exact hentered _ (fun _ => by simpa using hexit) (by simpa using hnew) h
      · exact hfailed slot.driverData (.inl (by simpa using hnew')) h
      · exact hentered _ (fun hne => absurd hne hold) (by simpa using hnew') h

/-! ### The slots -/

/-- **The invariant**: no two slots have the same node, and the references are the handles. -/
structure Counted (t : TreeCache) (handles : List ℕ) : Prop where
  unique : ∀ (i j : ℕ) (a b : CachedNode), t[i]? = some a → t[j]? = some b → a.id = b.id →
    a.id ≠ .null → i = j
  count : ∀ (i : ℕ) (a : CachedNode), t[i]? = some a → a.references = handles.count i
  inside : ∀ i ∈ handles, i < t.length

/-- The node in the slot `i` is the same. -/
def SameNode (t t' : TreeCache) (i : ℕ) : Prop :=
  ∃ a b, t[i]? = some a ∧ t'[i]? = some b ∧ b.id = a.id ∧ b.type = a.type ∧
    b.driverData = a.driverData ∧ b.bond = a.bond

section

variable (h : Counted t handles)

include h

lemma Counted.perm (hperm : handles.Perm handles') : Counted t handles' :=
  ⟨h.unique, fun i a ha => (h.count i a ha).trans (hperm.count_eq i),
    fun i hi => h.inside i (hperm.mem_iff.mpr hi)⟩

/-- Slots of which only the references have changed. -/
lemma Counted.of_references (hlen : t'.length = t.length)
    (hsame : ∀ (i : ℕ) (b : CachedNode), t'[i]? = some b → ∃ a, t[i]? = some a ∧ b.id = a.id ∧
      (a.references = handles.count i → b.references = handles'.count i))
    (hinside : ∀ i ∈ handles', i < t.length) : Counted t' handles' := by
  refine ⟨fun i j a b ha hb hab hnull => ?_, fun i b hb => ?_, fun i hi => hlen ▸ hinside i hi⟩
  · obtain ⟨a', ha', hid, -⟩ := hsame i a ha
    obtain ⟨b', hb', hid', -⟩ := hsame j b hb
    exact h.unique i j a' b' ha' hb' (by rw [← hid, ← hid', hab]) (by rwa [← hid])
  · obtain ⟨a, ha, -, hcount⟩ := hsame i b hb
    exact hcount (h.count i a ha)

/-- The slot `i` was changed, but for its id. -/
lemma Counted.change (hid : ∀ a, (f a).id = a.id)
    (hself : ∀ a, a.references = handles.count i → (f a).references = handles'.count i)
    (hother : ∀ j, i ≠ j → handles'.count j = handles.count j)
    (hinside : ∀ j ∈ handles', j < t.length) : Counted (t.modify i f) handles' := by
  refine h.of_references (length_modify ..) (fun j b hb => ?_) hinside
  obtain ⟨a, ha, rfl⟩ := slot_of_change hb
  split_ifs with hij
  · exact ⟨a, ha, hid a, hij ▸ hself a⟩
  · exact ⟨a, ha, rfl, fun hcount => hcount.trans (hother j hij).symm⟩

lemma Counted.acquire (hi : i < t.length) : Counted (t.acquire i) (i :: handles) :=
  h.change (fun _ => rfl) (fun a hcount => by rw [count_cons_self, ← hcount])
    (fun j hij => count_cons_of_ne hij) (forall_mem_cons.mpr ⟨hi, h.inside⟩)

end

lemma Counted.release (h : Counted t (i :: handles)) : Counted (t.release i) handles := by
  refine h.change (fun _ => rfl) (fun a hcount => ?_)
    (fun j hij => (count_cons_of_ne hij).symm) (forall_mem_cons.mp h.inside).2
  rw [hcount, count_cons_self, Nat.add_sub_cancel]

lemma sameNode_refl (hi : i < t.length) : SameNode t t i :=
  ⟨t[i], t[i], getElem?_eq_getElem hi, getElem?_eq_getElem hi, rfl, rfl, rfl, rfl⟩

lemma SameNode.trans {t'' : TreeCache} (h : SameNode t t' i) (h' : SameNode t' t'' i) :
    SameNode t t'' i := by
  obtain ⟨a, b, ha, hb, h₁, h₂, h₃, h₄⟩ := h
  obtain ⟨b', d, hb', hd, h₅, h₆, h₇, h₈⟩ := h'
  cases hb.symm.trans hb'
  exact ⟨a, d, ha, hd, h₅.trans h₁, h₆.trans h₂, h₇.trans h₃, h₈.trans h₄⟩

lemma sameNode_change (hf : ∀ a, (f a).id = a.id ∧
    (f a).type = a.type ∧ (f a).driverData = a.driverData ∧ (f a).bond = a.bond) (hi : i < t.length)
    (j : ℕ) : SameNode t (t.modify j f) i := by
  have ha := getElem?_eq_getElem hi
  rw [SameNode, getElem?_change, ha]
  split_ifs
  · exact ⟨t[i], _, rfl, rfl, hf t[i]⟩
  · exact ⟨t[i], _, rfl, rfl, rfl, rfl, rfl, rfl⟩

lemma sameNode_acquire (hi : i < t.length) (j : ℕ) : SameNode t (t.acquire j) i :=
  sameNode_change (by simp) hi j

lemma sameNode_release (hi : i < t.length) (j : ℕ) : SameNode t (t.release j) i :=
  sameNode_change (by simp) hi j

lemma find_eq_some (h : t.find id = some i) : ∃ a, t[i]? = some a ∧ a.id = id := by
  obtain ⟨hlt, hid, -⟩ := findIdx?_eq_some_iff_getElem.mp h
  exact ⟨t[i], getElem?_eq_getElem hlt, by simpa using hid⟩

lemma find_eq_none (h : t.find id = none) {a : CachedNode} (ha : t[i]? = some a) : a.id ≠ id := by
  have := findIdx?_eq_none_iff.mp h a (mem_of_getElem? ha)
  simpa using this

/-- **A lookup keeps the invariant**, with the handle that it returns. -/
lemma Lookup.counted (h : Lookup drivers t id r t') (hc : Counted t handles) :
    Counted t' (r.toList ++ handles) := by
  cases h with
  | null _ => exact hc
  | full _ _ _ _ => exact hc
  | hit i _ _ hfind =>
    obtain ⟨a, ha, -⟩ := find_eq_some hfind
    exact hc.acquire (List.getElem?_eq_some_iff.mp ha).1
  | failed k slot driverData _ _ _ _ hslot _ =>
    refine hc.of_references (by simp) (fun i b hb => ?_) hc.inside
    rcases slot_of_set hb with ⟨rfl, rfl⟩ | ⟨-, hb⟩
    · exact ⟨slot, hslot, rfl, fun hcount => hcount⟩
    · exact ⟨b, hb, rfl, fun hcount => hcount⟩
  | entered k slot type driverData hdriver hvnode hfind hchosen hslot _ _ _ =>
    have hlt := (List.getElem?_eq_some_iff.mp hslot).1
    obtain ⟨slot', hslot', hfree, -⟩ := t.chooseLoop_eq.2.1 k hchosen
    cases hslot.symm.trans hslot'
    refine ⟨fun i j a b ha hb hab hnull => ?_, fun i a ha => ?_, ?_⟩
    · -- the new id is in no other slot
      rcases slot_of_set ha with ⟨rfl, rfl⟩ | ⟨-, ha⟩ <;> rcases slot_of_set hb with ⟨rfl, rfl⟩ | ⟨-, hb⟩
      · rfl
      · exact absurd hab.symm (find_eq_none hfind hb)
      · exact absurd hab (find_eq_none hfind ha)
      · exact hc.unique i j a b ha hb hab hnull
    · rcases slot_of_set ha with ⟨rfl, rfl⟩ | ⟨hki, ha⟩
      · simp [← hc.count k slot hslot, hfree]
      · rw [toList_some, singleton_append, count_cons_of_ne hki]
        exact hc.count i a ha
    · rw [length_set]
      exact forall_mem_cons.mpr ⟨hlt, hc.inside⟩

/-- **A lookup leaves the nodes alone** that someone refers to. -/
lemma Lookup.sameNode {a : CachedNode} (h : Lookup drivers t id r t') (ha : t[i]? = some a)
    (hpos : 0 < a.references) : SameNode t t' i := by
  have hi := (List.getElem?_eq_some_iff.mp ha).1
  have hne : ∀ k, t.chosen = some k → k ≠ i := by
    rintro k hk rfl
    obtain ⟨slot, hslot, hfree, -⟩ := t.chooseLoop_eq.2.1 k hk
    cases ha.symm.trans hslot
    omega
  cases h with
  | null _ => exact sameNode_refl hi
  | full _ _ _ _ => exact sameNode_refl hi
  | hit j _ _ hfind => exact sameNode_acquire hi j
  | failed k slot driverData _ _ _ hchosen _ _ =>
    exact ⟨a, a, ha, by rw [getElem?_set_ne (hne k hchosen), ha], rfl, rfl, rfl, rfl⟩
  | entered k slot type driverData _ _ _ hchosen _ _ _ _ =>
    exact ⟨a, a, ha, by rw [getElem?_set_ne (hne k hchosen), ha], rfl, rfl, rfl, rfl⟩

/-- **The outcomes of `GetVfsNode`**: one lookup, or a second one for the bond of a link. -/
lemma getVfsNode_cases (h : t.getVfsNode drivers id traverseLinks = some (r, t')) :
    (Lookup drivers t id r t' ∧ ∀ i node, traverseLinks = true → r = some i →
        t'[i]? = some node → node.type ≠ .link) ∨
      ∃ i t₁ t₂ node, Lookup drivers t id (some i) t₁ ∧
      t₁[i]? = some node ∧ node.type = .link ∧ traverseLinks = true ∧
      Lookup drivers t₁ node.bond r t₂ ∧ t' = t₂.release i := by
  obtain ⟨⟨r₁, t₁⟩, hlookup, h⟩ := bind_eq_some_iff.mp h
  have hlookup := lookup_of_eq hlookup
  cases r₁ with
  | none =>
    cases h
    exact .inl ⟨hlookup, fun _ _ _ hnone => absurd hnone (by simp)⟩
  | some i =>
    dsimp only at h
    cases hnode : t₁[i]? with
    | none =>
      rw [hnode] at h
      cases h
    | some node =>
      rw [hnode] at h
      dsimp only at h
      split_ifs at h with hlink
      · obtain ⟨⟨r₂, t₂⟩, hbond, h⟩ := map_eq_some_iff.mp h
        cases h
        exact .inr ⟨i, t₁, t₂, node, hlookup, hnode, hlink.2, hlink.1, lookup_of_eq hbond, rfl⟩
      · cases h
        refine .inl ⟨hlookup, fun i' node' htraverse hi hnode' htype => hlink ⟨htraverse, ?_⟩⟩
        cases hi
        cases hnode.symm.trans hnode'
        exact htype

variable (hc : Counted t handles) (h : t.getVfsNode drivers id traverseLinks = some (r, t'))

include hc h

lemma Counted.getVfsNode : Counted t' (r.toList ++ handles) := by
  rcases getVfsNode_cases h with ⟨hlookup, -⟩ | ⟨i, t₁, t₂, node, h₁, -, -, -, h₂, rfl⟩
  · exact hlookup.counted hc
  · -- the handle to the link is released
    have hcount := h₂.counted (h₁.counted hc)
    exact (hcount.perm perm_middle).release

/-- What is referred to stays as it is. -/
lemma Counted.sameNode_getVfsNode (hi : i ∈ handles) : SameNode t t' i := by
  have hpos : ∀ {t : TreeCache} {handles : List ℕ}, Counted t handles → i ∈ handles →
      ∃ a, t[i]? = some a ∧ 0 < a.references := by
    intro t handles hc hi
    have hlt := hc.inside i hi
    have ha : t[i]? = some t[i] := getElem?_eq_getElem hlt
    exact ⟨t[i], ha, by rw [hc.count i _ ha]; exact count_pos_iff.mpr hi⟩
  obtain ⟨a, ha, hapos⟩ := hpos hc hi
  rcases getVfsNode_cases h with ⟨hlookup, -⟩ | ⟨k, t₁, t₂, node, h₁, -, -, -, h₂, rfl⟩
  · exact hlookup.sameNode ha hapos
  · have hc₁ := h₁.counted hc
    obtain ⟨b, hb, hbpos⟩ := hpos hc₁ (mem_append_right _ hi)
    have hc₂ := h₂.counted hc₁
    have hlt : i < t₂.length :=
      hc₂.inside i (mem_append_right _ (mem_append_right _ hi))
    exact ((h₁.sameNode ha hapos).trans (h₂.sameNode hb hbpos)).trans (sameNode_release hlt k)

end TreeCache

/-! ### Whole runs -/

namespace CacheState

open TreeCache

variable {s s' : CacheState} {i : ℕ}

lemma counted_init (size : ℕ) : Counted (init size).cache (init size).handles := by
  have hempty : ∀ (i : ℕ) (a : CachedNode), (init size).cache[i]? = some a → a = .empty := by
    intro i a ha
    exact eq_of_mem_replicate (mem_of_getElem? ha)
  refine ⟨fun i j a b ha _ _ hnull => ?_, fun i a ha => ?_, by simp [init]⟩
  · rw [hempty i a ha] at hnull
    exact absurd rfl hnull
  · rw [hempty i a ha]
    rfl

/-- **The step lemma.** -/
lemma counted_step {op : CacheOp} (h : Counted s.cache s.handles) (hstep : s.step op = some s') :
    Counted s'.cache s'.handles ∧ ∀ i ∈ s.handles, SameNode s.cache s'.cache i := by
  cases op with
  | getVfsNode id traverseLinks drivers =>
    obtain ⟨⟨r, t⟩, hget, rfl⟩ := map_eq_some_iff.mp hstep
    exact ⟨h.getVfsNode hget, fun i hi => h.sameNode_getVfsNode hget hi⟩
  | copy j =>
    obtain ⟨hj, hstep⟩ := ite_none_right_eq_some.mp hstep
    cases hstep
    exact ⟨h.acquire (h.inside j hj), fun i hi => sameNode_acquire (h.inside i hi) j⟩
  | release j =>
    obtain ⟨hj, hstep⟩ := ite_none_right_eq_some.mp hstep
    cases hstep
    exact ⟨(h.perm (perm_cons_erase hj)).release,
      fun i hi => sameNode_release (h.inside i hi) j⟩

/-- Somebody refers to the slot. -/
def Referenced (i : ℕ) (s : CacheState) : Prop := ∃ a, s.cache[i]? = some a ∧ 0 < a.references

/-- As long as a slot is referred to, and also by the step that takes the last reference away, its
node stays the same. -/
lemma sameNode_run (h : Counted s.cache s.handles) (ops : List CacheOp) (op : CacheOp)
    (hpos : Always step (Referenced i) s ops)
    (hrun : run step s (ops ++ [op]) = some s') : SameNode s.cache s'.cache i := by
  have hmem : ∀ {s : CacheState}, Counted s.cache s.handles → Referenced i s → i ∈ s.handles := by
    rintro s h ⟨a, ha, hpos⟩
    rw [h.count i a ha] at hpos
    exact count_pos_iff.mp hpos
  induction ops generalizing s with
  | nil =>
    obtain ⟨s₁, hstep, hrun⟩ := bind_eq_some_iff.mp hrun
    cases hrun
    exact (counted_step h hstep).2 i (hmem h hpos)
  | cons o ops ih =>
    obtain ⟨s₁, hstep, hrun⟩ := bind_eq_some_iff.mp hrun
    obtain ⟨h₁, hsame⟩ := counted_step h hstep
    exact (hsame i (hmem h hpos.1)).trans (ih h₁ (hpos.2 s₁ hstep) hrun)

/-- **The slots of the cache.** -/
structure Sound (s : CacheState) : Prop where
  unique : ∀ (i j : ℕ) (a b : CachedNode), s.cache[i]? = some a → s.cache[j]? = some b →
    a.id = b.id → a.id ≠ .null → i = j
  kept : ∀ (i : ℕ) (ops : List CacheOp) (op : CacheOp) (s' : CacheState),
    Always step (Referenced i) s ops →
      run step s (ops ++ [op]) = some s' → SameNode s.cache s'.cache i

/-- **In every state of every run** of a cache of any size, a node is in at most one slot, and a
slot that is referred to keeps its node until the last reference is gone. -/
theorem cache_sound (size : ℕ) (ops : List CacheOp) :
    Always step Sound (init size) ops :=
  always_of_invariant (fun s => Counted s.cache s.handles)
    (fun _ h => ⟨h.unique, fun _ ops op _ hpos hrun => sameNode_run h ops op hpos hrun⟩)
    (fun _ _ _ h hstep => (counted_step h hstep).1) (counted_init size) ops

end CacheState

end Northport.Filesystem
