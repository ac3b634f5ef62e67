/-
# Cached parts of files (`filesystem/FileCache.cpp`)

A file cache holds the units of one file in a red-black tree.  `GetFileCacheUnit` looks for
the unit that covers an offset by the offsets of the units, while the tree is ordered by
their physical addresses (`FcuLess`).  A search finds every unit exactly if both orders
agree; whether they do depends on the addresses that the physical memory manager hands
out.
-/
import Northport.Containers.LiveTree
import Northport.Filesystem.FsDriver
import Northport.Lib.Run
import Northport.Lib.TreeSearch
import Northport.Lib.Word

namespace Northport.Filesystem

open Lib Northport.RBTree Option List LiveTree

/-! ### The model -/

/-- The size of a unit, which `InitFileCache` asserts to be a power of two. -/
structure FileCacheInfo where
  unitSize : ℕ
  exponent : ℕ
  exponent_lt : exponent < 64
  unitSize_eq : unitSize = 2 ^ exponent

/-- A unit without its hook. -/
structure FileCacheUnit where
  references : ℕ
  owned : Bool
  physBase : ℕ
  offset : ℕ
  writable : Bool
deriving DecidableEq, Repr

def fcuLess (a b : FileCacheUnit) : Bool := a.physBase < b.physBase

/-- The cache of one file; `P` are the addresses of units. -/
structure FileCache (P : Type) where
  length : ℕ
  units : LiveTree P FileCacheUnit

/-- A request, with what the functions that are called for it would return: the mount options of
the file system, an address from the physical memory manager and one for a new unit. -/
structure UnitRequest (P : Type) where
  fileOffset : ℕ
  mountOpts : Option MountOptions
  physicalMem : ℕ
  newUnit : P

namespace FileCache

variable {P : Type} [DecidableEq P]

/-- A new cache of `GetFileCache`. -/
def init (unit : P → FileCacheUnit) : FileCache P := ⟨0, empty unit⟩

/-- The unit at an address. -/
def unit (s : FileCache P) (p : P) : FileCacheUnit := s.units.tree.item p

/-- Where the loop of `GetFileCacheUnit` goes on from a unit. -/
def scan (info : FileCacheInfo) (fileOffset : ℕ) (unit : FileCacheUnit) : Ordering :=
  if fileOffset ≥ unit.offset ∧ fileOffset < add64 unit.offset info.unitSize then .eq
  else if fileOffset < unit.offset then .lt
  else .gt

/-- The loop of `GetFileCacheUnit`. -/
def findUnit (info : FileCacheInfo) (s : FileCache P) (fileOffset : ℕ) : Option (Option P) :=
  s.units.tree.links.search (fun p => scan info fileOffset (s.unit p)) s.units.live.length
    s.units.tree.getRoot

/-- The rest of `GetFileCacheUnit`, after a miss. -/
def createUnit (s : FileCache P) (fileOffset : ℕ) (r : UnitRequest P) :
    Option (Option P × FileCache P) :=
  match r.mountOpts with
  | none => some (none, s)
  | some mountOpts =>
      if r.physicalMem = 0 then some (none, s)
      else
        (s.units.insert (nullAggregate _) fcuLess r.newUnit
          ⟨1, true, r.physicalMem, fileOffset, mountOpts.writable⟩).map fun units =>
            (some r.newUnit, { s with units := units })

def getFileCacheUnit (info : FileCacheInfo) (s : FileCache P) (r : UnitRequest P) :
    Option (Option P × FileCache P) :=
  let fileOffset := alignDown r.fileOffset info.unitSize
  if fileOffset < s.length then
    (s.findUnit info fileOffset).bind fun
      | some unit => some (some unit, s)
      | none => s.createUnit fileOffset r
  else some (none, s)

/-- `TrimFcuNode`, with a bound on its recursion. -/
def trimFcuNode : ℕ → Tree P FileCacheUnit → P → Option (Tree P FileCacheUnit)
  | 0, _, _ => none
  | fuel + 1, t, fcu => do
      let t ← match t.getLeft fcu with
        | none => some t
        | some left => trimFcuNode fuel t left
      let t ← match t.getRight fcu with
        | none => some t
        | some right => trimFcuNode fuel t right
      return t.setItem fcu { t.item fcu with
        owned := false
        references := sub64 (t.item fcu).references 1 }

/-- The loop of `SetFileCacheLength` when the file becomes shorter. -/
def trimLoop : ℕ → FileCache P → Option P → Option (FileCache P)
  | _, s, none => some s
  | 0, _, some _ => none
  | fuel + 1, s, some scan =>
      if (s.unit scan).offset < s.length then trimLoop fuel s (s.units.tree.getRight scan)
      else
        (trimFcuNode fuel s.units.tree scan).bind fun t =>
          trimLoop fuel { s with units := { s.units with tree := t } } t.getRoot

def setFileCacheLength (fuel : ℕ) (s : FileCache P) (length : ℕ) : Option (FileCache P) :=
  if s.length ≤ length then some { s with length := length }
  else trimLoop fuel { s with length := length } s.units.tree.getRoot

/-! ### Runs -/

inductive FileCacheOp (P : Type) where
  | request (r : UnitRequest P)
  | setLength (length : ℕ)

/-- The addresses for a new unit are not those of a unit that is held. -/
def Fresh (s : FileCache P) (r : UnitRequest P) : Prop :=
  r.newUnit ∉ s.units.live ∧ ∀ p ∈ s.units.live, (s.unit p).physBase ≠ r.physicalMem

instance (s : FileCache P) (r : UnitRequest P) : Decidable (s.Fresh r) :=
  inferInstanceAs (Decidable (_ ∧ _))

/-- A step: a request, or a new length that does not truncate the file. -/
def step (info : FileCacheInfo) (s : FileCache P) : FileCacheOp P → Option (FileCache P)
  | .request r =>
      if s.Fresh r then (s.getFileCacheUnit info r).map Prod.snd else none
  | .setLength length =>
      if s.length ≤ length ∧ length < wordSize then
        s.setFileCacheLength s.units.live.length length
      else none

/-- **One unit for a window**: what a request returns, if need be after it has created it, is the
unit of its window, this unit is returned for every offset in the window, requests for different
windows get different units, and there is one unit for an offset. -/
structure OneUnit (info : FileCacheInfo) (s : FileCache P) : Prop where
  returned : ∀ (r : UnitRequest P) p s', s.Fresh r → s.getFileCacheUnit info r = some (some p, s') →
    p ∈ s'.units.live ∧ (s'.unit p).offset = alignDown r.fileOffset info.unitSize
  same : ∀ p ∈ s.units.live, ∀ r : UnitRequest P,
    alignDown r.fileOffset info.unitSize = (s.unit p).offset →
      s.getFileCacheUnit info r = some (some p, s)
  different : ∀ (r r' : UnitRequest P) (p : P), s.getFileCacheUnit info r = some (some p, s) →
    s.getFileCacheUnit info r' = some (some p, s) →
      alignDown r.fileOffset info.unitSize = alignDown r'.fileOffset info.unitSize
  distinct : ∀ p ∈ s.units.live, ∀ q ∈ s.units.live, (s.unit p).offset = (s.unit q).offset → p = q

/-- The request comes to the end of `GetFileCacheUnit`. -/
def Creates (info : FileCacheInfo) (s : FileCache P) (r : UnitRequest P) : Prop :=
  alignDown r.fileOffset info.unitSize < s.length ∧
    s.findUnit info (alignDown r.fileOffset info.unitSize) = some none ∧
    r.mountOpts.isSome ∧ r.physicalMem ≠ 0

/-- **The condition of a step**: a new unit is among the physical addresses where it is among the
offsets, and its window is not the last one below `2 ^ 64`. -/
def InOrder (info : FileCacheInfo) (s : FileCache P) : FileCacheOp P → Prop
  | .request r => s.Fresh r → s.Creates info r →
      alignDown r.fileOffset info.unitSize + info.unitSize < wordSize ∧
      ∀ p ∈ s.units.live, (s.unit p).physBase < r.physicalMem ↔
        (s.unit p).offset < alignDown r.fileOffset info.unitSize
  | .setLength _ => True

/-! ### Searching by offset -/

/-- The invariant: the tree is ordered by the physical addresses. -/
structure Inv (info : FileCacheInfo) (s : FileCache P) : Prop where
  tree : s.units.Inv (nullLaws _) FileCacheUnit.physBase
  physBase : ∀ p ∈ s.units.live, ∀ q ∈ s.units.live, (s.unit p).physBase = (s.unit q).physBase → p = q
  aligned : ∀ p ∈ s.units.live, info.unitSize ∣ (s.unit p).offset
  below : ∀ p ∈ s.units.live, (s.unit p).offset < s.length
  length_lt : s.length < wordSize

variable {info : FileCacheInfo} {s s' : FileCache P} {fileOffset : ℕ} {unit : FileCacheUnit} {p : P}
  {r : UnitRequest P} {op : FileCacheOp P}

lemma inv_init (unit : P → FileCacheUnit) : Inv info (init unit) where
  tree := inv_empty unit
  physBase := by simp [init, empty]
  aligned := by simp [init, empty]
  below := by simp [init, empty]
  length_lt := wordSize_pos

/-- Two orders of the units: by physical address, and by offset. -/
structure Ordered (info : FileCacheInfo) (s : FileCache P) : Prop where
  mono : ∀ p ∈ s.units.live, ∀ q ∈ s.units.live, (s.unit p).physBase < (s.unit q).physBase →
    (s.unit p).offset < (s.unit q).offset
  room : ∀ p ∈ s.units.live, (s.unit p).offset + info.unitSize < wordSize

lemma unitSize_pos (info : FileCacheInfo) : 0 < info.unitSize := by
  rw [info.unitSize_eq]
  exact Nat.two_pow_pos _

lemma unitSize_dvd_wordSize (info : FileCacheInfo) : info.unitSize ∣ wordSize := by
  rw [info.unitSize_eq]
  exact Nat.pow_dvd_pow 2 info.exponent_lt.le

lemma unitSize_dvd_alignDown (info : FileCacheInfo) (n : ℕ) :
    info.unitSize ∣ alignDown n info.unitSize := Nat.dvd_mul_left _ _

/-- The windows are the multiples of the size, the last of which ends at `2 ^ 64`. -/
lemma window_le {n : ℕ} (hn : info.unitSize ∣ n) (hlt : n < wordSize) :
    n + info.unitSize ≤ wordSize := by
  have hle := Nat.le_of_dvd (Nat.sub_pos_of_lt hlt) (Nat.dvd_sub (unitSize_dvd_wordSize info) hn)
  omega

section

variable (hoffset : info.unitSize ∣ fileOffset) (hunit : info.unitSize ∣ unit.offset)

include hoffset hunit

/-- A unit covers a window exactly if it is the unit of the window, unless it is the last one. -/
lemma scan_eq_iff (hlt : unit.offset < wordSize) :
    scan info fileOffset unit = .eq ↔
      unit.offset = fileOffset ∧ unit.offset + info.unitSize < wordSize := by
  have hpos := unitSize_pos info
  have hwindow := window_le hunit hlt
  have hhit : scan info fileOffset unit = .eq ↔
      fileOffset ≥ unit.offset ∧ fileOffset < add64 unit.offset info.unitSize := by
    rw [scan]
    split_ifs with h₁ <;> simp [h₁]
  rw [hhit]
  rcases Nat.lt_or_eq_of_le hwindow with hroom | hlast
  · rw [add64_eq hroom]
    constructor
    · rintro ⟨hge, hlt'⟩
      have hzero := Nat.eq_zero_of_dvd_of_lt (Nat.dvd_sub hoffset hunit)
        (show fileOffset - unit.offset < info.unitSize by omega)
      omega
    · rintro ⟨rfl, -⟩
      exact ⟨le_rfl, by omega⟩
  · -- the end of the last window is 0
    have hzero : add64 unit.offset info.unitSize = 0 := by
      rw [add64, hlast, Nat.mod_self]
    rw [hzero, hlast]
    simp

/-- A unit that is not the last one directs the search by its offset. -/
lemma scan_eq_compare (hroom : unit.offset + info.unitSize < wordSize) :
    scan info fileOffset unit = compare fileOffset unit.offset := by
  have hiff := scan_eq_iff hoffset hunit (by omega)
  rcases lt_trichotomy fileOffset unit.offset with h | h | h
  · rw [compare_lt_iff_lt.mpr h, scan, if_neg (fun hc => absurd hc.1 (not_le.mpr h)), if_pos h]
  · rw [compare_eq_iff_eq.mpr h, hiff]
    exact ⟨h.symm, hroom⟩
  · have hne : ¬ scan info fileOffset unit = .eq := fun heq => h.ne (hiff.mp heq).1
    rw [compare_gt_iff_gt.mpr h]
    rw [scan] at hne ⊢
    split_ifs at hne ⊢ with h₁ h₂
    · simp at hne
    · omega
    · rfl

end

/-- The shape of the tree, which the loop searches. -/
lemma Inv.exists_shape (h : Inv info s) : ∃ shape : Shape P, shape.toList.Perm s.units.live ∧
    shape.toList.Nodup ∧
    (shape.toList.Pairwise fun p q => (s.unit p).physBase < (s.unit q).physBase) ∧
    ∀ fileOffset, s.findUnit info fileOffset =
      some (shape.search fun p => scan info fileOffset (s.unit p)) := by
  obtain ⟨shape, htree, hperm⟩ := h.tree
  refine ⟨shape, hperm, htree.ok.nodup, ?_, fun fileOffset => ?_⟩
  · refine (pairwise_and_iff.mpr ⟨htree.sorted, htree.ok.nodup⟩).imp_of_mem ?_
    rintro p q hp hq ⟨hle, hne⟩
    exact lt_of_le_of_ne hle fun heq =>
      hne (h.physBase p (hperm.mem_iff.mp hp) q (hperm.mem_iff.mp hq) heq)
  · exact htree.ok.rep.search _ hperm.length_eq.le

lemma getFileCacheUnit_of_found (hlt : alignDown r.fileOffset info.unitSize < s.length)
    (hfind : s.findUnit info (alignDown r.fileOffset info.unitSize) = some (some p)) :
    s.getFileCacheUnit info r = some (some p, s) := by
  rw [getFileCacheUnit, if_pos hlt, hfind]
  rfl

/-- A request that returns a unit and leaves the cache alone has found the unit. -/
lemma found_of_getFileCacheUnit (h : s.getFileCacheUnit info r = some (some p, s)) :
    s.findUnit info (alignDown r.fileOffset info.unitSize) = some (some p) := by
  rw [getFileCacheUnit] at h
  split_ifs at h with hlt
  · obtain ⟨found, hfind, h⟩ := bind_eq_some_iff.mp h
    cases found with
    | some q =>
      rw [hfind, (Prod.mk.inj (some.inj h)).1]
    | none =>
      -- a new unit is one unit more
      dsimp only at h
      rw [createUnit] at h
      split at h
      · simp at h
      · split_ifs at h
        · simp at h
        · obtain ⟨units, hinsert, h⟩ := map_eq_some_iff.mp h
          obtain ⟨t, -, rfl⟩ := map_eq_some_iff.mp hinsert
          have hlive := congrArg (fun c : FileCache P => c.units.live.length) (Prod.mk.inj h).2
          simp at hlive
  · simp at h

lemma Inv.found_unit (h : Inv info s) (hp : s.getFileCacheUnit info r = some (some p, s)) :
    p ∈ s.units.live ∧ (s.unit p).offset = alignDown r.fileOffset info.unitSize := by
  obtain ⟨shape, hperm, -, -, hfind⟩ := h.exists_shape
  have hfound := found_of_getFileCacheUnit hp
  rw [hfind] at hfound
  obtain ⟨hmem, hscan⟩ := Shape.search_mem (some.inj hfound)
  have hlive := hperm.mem_iff.mp hmem
  exact ⟨hlive, ((scan_eq_iff (unitSize_dvd_alignDown info _) (h.aligned p hlive)
    ((h.below p hlive).trans h.length_lt)).mp hscan).1⟩

/-- What a request that creates a unit changes. -/
structure Created (info : FileCacheInfo) (s s' : FileCache P) (r : UnitRequest P) : Prop where
  tree : s'.units.Inv (nullLaws _) FileCacheUnit.physBase
  length : s'.length = s.length
  live : s'.units.live = r.newUnit :: s.units.live
  offset : (s'.unit r.newUnit).offset = alignDown r.fileOffset info.unitSize
  physBase : (s'.unit r.newUnit).physBase = r.physicalMem
  others : ∀ q, q ≠ r.newUnit → s'.unit q = s.unit q

lemma fcuLess_eq (a b : FileCacheUnit) : fcuLess a b =
    decide (FileCacheUnit.physBase ((nullLaws FileCacheUnit).core a) <
      FileCacheUnit.physBase ((nullLaws FileCacheUnit).core b)) := rfl

/-- A request leaves the cache alone, or it creates a unit. -/
lemma Inv.request (h : Inv info s) (hfresh : s.Fresh r) :
    (¬ s.Creates info r ∧ ∃ q, s.getFileCacheUnit info r = some (q, s)) ∨
      (s.Creates info r ∧ ∃ s', s.getFileCacheUnit info r = some (some r.newUnit, s') ∧
        Created info s s' r) := by
  obtain ⟨shape, -, -, -, hfind⟩ := h.exists_shape
  obtain ⟨found, hfound⟩ : ∃ found,
      s.findUnit info (alignDown r.fileOffset info.unitSize) = some found := ⟨_, hfind _⟩
  rw [getFileCacheUnit]
  by_cases hlt : alignDown r.fileOffset info.unitSize < s.length
  · rw [if_pos hlt, hfound, bind_some]
    cases found with
    | some p => exact .inl ⟨fun hc => by simpa [hfound] using hc.2.1, _, rfl⟩
    | none =>
      rw [createUnit]
      cases hopts : r.mountOpts with
      | none => exact .inl ⟨fun hc => by simpa [hopts] using hc.2.2.1, _, rfl⟩
      | some mountOpts =>
        dsimp only
        by_cases hphys : r.physicalMem = 0
        · rw [if_pos hphys]
          exact .inl ⟨fun hc => hc.2.2.2 hphys, _, rfl⟩
        · rw [if_neg hphys]
          obtain ⟨units, hinsert, hinv, hlive, hnew, hold⟩ := insert_spec fcuLess_eq
            ⟨1, true, r.physicalMem, alignDown r.fileOffset info.unitSize, mountOpts.writable⟩
            h.tree hfresh.1
          refine .inr ⟨⟨hlt, hfound, by simp [hopts], hphys⟩, { s with units := units }, ?_, ?_⟩
          · rw [hinsert]
            rfl
          · exact ⟨hinv, rfl, hlive, congrArg FileCacheUnit.offset hnew,
              congrArg FileCacheUnit.physBase hnew, hold⟩
  · rw [if_neg hlt]
    exact .inl ⟨fun hc => hlt hc.1, _, rfl⟩

/-- A request returns a unit of its window. -/
lemma Inv.returned (h : Inv info s) (hfresh : s.Fresh r)
    (hp : s.getFileCacheUnit info r = some (some p, s')) :
    p ∈ s'.units.live ∧ (s'.unit p).offset = alignDown r.fileOffset info.unitSize := by
  rcases h.request hfresh with ⟨-, q, heq⟩ | ⟨-, s₁, heq, hc⟩
  · cases heq.symm.trans hp
    exact h.found_unit hp
  · cases heq.symm.trans hp
    exact ⟨hc.live ▸ mem_cons_self, hc.offset⟩

/-- **The units are found exactly if** their offsets are in the order of their physical addresses. -/
lemma Inv.oneUnit_iff (h : Inv info s) : OneUnit info s ↔ Ordered info s := by
  obtain ⟨shape, hperm, hnd, hsorted, hfind⟩ := h.exists_shape
  have hlt : ∀ p ∈ s.units.live, (s.unit p).offset < wordSize :=
    fun p hp => (h.below p hp).trans h.length_lt
  have hself : ∀ p ∈ s.units.live,
      alignDown (s.unit p).offset info.unitSize = (s.unit p).offset :=
    fun p hp => Nat.div_mul_cancel (h.aligned p hp)
  constructor
  · intro hone
    have hsearch : ∀ p ∈ s.units.live,
        shape.search (fun q => scan info (s.unit p).offset (s.unit q)) = some p := by
      intro p hp
      have hfound := found_of_getFileCacheUnit
        (hone.same p hp ⟨(s.unit p).offset, none, 0, p⟩ (hself p hp))
      rw [hself p hp, hfind] at hfound
      exact some.inj hfound
    have hroom : ∀ p ∈ s.units.live, (s.unit p).offset + info.unitSize < wordSize := by
      intro p hp
      exact ((scan_eq_iff (h.aligned p hp) (h.aligned p hp) (hlt p hp)).mp
        (Shape.search_mem (hsearch p hp)).2).2
    have hoffset : shape.toList.Pairwise fun p q => (s.unit p).offset < (s.unit q).offset := by
      refine Shape.sorted_of_search hnd fun p hp => ?_
      have hp := hperm.mem_iff.mp hp
      rw [← hsearch p hp]
      refine Shape.search_congr fun q hq => ?_
      have hq := hperm.mem_iff.mp hq
      exact (scan_eq_compare (h.aligned p hp) (h.aligned q hq) (hroom q hq)).symm
    have hmono : ∀ ⦃p⦄, p ∈ shape.toList → ∀ ⦃q⦄, q ∈ shape.toList →
        (s.unit p).physBase < (s.unit q).physBase → (s.unit p).offset < (s.unit q).offset := by
      refine Pairwise.forall_of_forall_of_flip (fun p _ hlt => absurd hlt (lt_irrefl _))
        (hoffset.imp ?_) (hsorted.imp ?_)
      · exact fun hpq _ => hpq
      · exact fun hpq hqp => absurd hqp hpq.not_gt
    exact ⟨fun p hp q hq => hmono (hperm.mem_iff.mpr hp) (hperm.mem_iff.mpr hq), hroom⟩
  · intro hordered
    have hoffset : shape.toList.Pairwise fun p q => (s.unit p).offset < (s.unit q).offset :=
      hsorted.imp_of_mem fun hp hq hphys =>
        hordered.mono _ (hperm.mem_iff.mp hp) _ (hperm.mem_iff.mp hq) hphys
    have hsame : ∀ p ∈ s.units.live, ∀ r : UnitRequest P,
        alignDown r.fileOffset info.unitSize = (s.unit p).offset →
          s.getFileCacheUnit info r = some (some p, s) := by
      intro p hp r hr
      refine getFileCacheUnit_of_found (by rw [hr]; exact h.below p hp) ?_
      rw [hfind, hr, Shape.search_congr fun q hq => scan_eq_compare (h.aligned p hp)
        (h.aligned q (hperm.mem_iff.mp hq)) (hordered.room q (hperm.mem_iff.mp hq))]
      exact congrArg some ((Shape.search_iff hoffset).mpr ⟨hperm.mem_iff.mpr hp, rfl⟩)
    refine ⟨fun r p s' hfresh => h.returned hfresh, hsame, fun r r' p hp hp' => ?_,
      fun p hp q hq hpq => ?_⟩
    · rw [← (h.found_unit hp).2, (h.found_unit hp').2]
    · have hp' := hsame p hp ⟨(s.unit p).offset, none, 0, p⟩ (hself p hp)
      have hq' := hsame q hq ⟨(s.unit p).offset, none, 0, p⟩ ((hself p hp).trans hpq)
      rw [hp'] at hq'
      exact some.inj (Prod.mk.inj (some.inj hq')).1

/-! ### The steps -/

/-- The units are the old ones and the new one. -/
lemma Created.forall_live (hc : Created info s s' r) (hfresh : s.Fresh r) (Q : FileCacheUnit → Prop)
    (hnew : Q (s'.unit r.newUnit)) (hold : ∀ p ∈ s.units.live, Q (s.unit p)) :
    ∀ p ∈ s'.units.live, Q (s'.unit p) := by
  rw [hc.live]
  intro p hp
  rcases mem_cons.mp hp with rfl | hp
  · exact hnew
  · rw [hc.others p fun heq => hfresh.1 (heq ▸ hp)]
    exact hold p hp

lemma Created.inv (hc : Created info s s' r) (h : Inv info s) (hfresh : s.Fresh r)
    (hcreates : s.Creates info r) : Inv info s' := by
  have hne : ∀ p ∈ s.units.live, p ≠ r.newUnit := fun p hp heq => hfresh.1 (heq ▸ hp)
  refine ⟨hc.tree, ?_, hc.forall_live hfresh (info.unitSize ∣ ·.offset) ?_ h.aligned,
    hc.length ▸ hc.forall_live hfresh (·.offset < s.length) ?_ h.below, hc.length ▸ h.length_lt⟩
  · rw [hc.live]
    intro p hp q hq hpq
    rcases mem_cons.mp hp with rfl | hp <;> rcases mem_cons.mp hq with rfl | hq
    · rfl
    · rw [hc.physBase, hc.others q (hne q hq)] at hpq
      exact absurd hpq.symm (hfresh.2 q hq)
    · rw [hc.physBase, hc.others p (hne p hp)] at hpq
      exact absurd hpq (hfresh.2 p hp)
    · rw [hc.others p (hne p hp), hc.others q (hne q hq)] at hpq
      exact h.physBase p hp q hq hpq
  · rw [hc.offset]
    exact unitSize_dvd_alignDown info _
  · rw [hc.offset]
    exact hcreates.1

/-- A new unit keeps the orders in agreement exactly if it is in order itself. -/
lemma Created.ordered_iff (hc : Created info s s' r) (h : Inv info s) (hordered : Ordered info s)
    (hfresh : s.Fresh r) (hcreates : s.Creates info r) :
    Ordered info s' ↔ s.InOrder info (.request r) := by
  have hne : ∀ p ∈ s.units.live, p ≠ r.newUnit := fun p hp heq => hfresh.1 (heq ▸ hp)
  have hnew : r.newUnit ∈ s'.units.live := by
    rw [hc.live]
    exact mem_cons_self
  have hold : ∀ p ∈ s.units.live, p ∈ s'.units.live := by
    rw [hc.live]
    exact fun p hp => mem_cons_of_mem _ hp
  constructor
  · rintro hordered' - -
    refine ⟨hc.offset ▸ hordered'.room _ hnew, fun p hp => ⟨fun hphys => ?_, fun hoffset => ?_⟩⟩
    · have := hordered'.mono p (hold p hp) _ hnew
      rw [hc.offset, hc.physBase, hc.others p (hne p hp)] at this
      exact this hphys
    · by_contra hphys
      have := hordered'.mono _ hnew p (hold p hp)
      rw [hc.offset, hc.physBase, hc.others p (hne p hp)] at this
      have := this (lt_of_le_of_ne (not_lt.mp hphys) (Ne.symm (hfresh.2 p hp)))
      omega
  · intro hin
    obtain ⟨hroom, hiff⟩ := hin hfresh hcreates
    -- the window has no unit, or the search would have found it
    have hdiff : ∀ p ∈ s.units.live,
        (s.unit p).offset ≠ alignDown r.fileOffset info.unitSize := by
      intro p hp heq
      have hfound := found_of_getFileCacheUnit ((h.oneUnit_iff.mpr hordered).same p hp r heq.symm)
      rw [hcreates.2.1] at hfound
      cases hfound
    let Below (u v : FileCacheUnit) := u.physBase < v.physBase → u.offset < v.offset
    refine ⟨hc.forall_live hfresh (∀ q ∈ s'.units.live, Below · (s'.unit q))
      (hc.forall_live hfresh (Below _) (absurd · (lt_irrefl _)) ?_)
      fun p hp => hc.forall_live hfresh (Below _) ?_ (hordered.mono p hp),
      hc.forall_live hfresh (·.offset + info.unitSize < wordSize) (hc.offset ▸ hroom) hordered.room⟩
    · simp only [Below, hc.physBase, hc.offset]
      intro q hq hpq
      have := hiff q hq
      have := hdiff q hq
      omega
    · simp only [Below, hc.physBase, hc.offset]
      exact (hiff p hp).mp

/-- **The step lemma**: the invariant is kept by every step, and the order by those that are in
order. -/
lemma Inv.step_spec (h : Inv info s) (hstep : s.step info op = some s') :
    Inv info s' ∧ (Ordered info s → (Ordered info s' ↔ s.InOrder info op)) := by
  cases op with
  | request r =>
    rw [step] at hstep
    split_ifs at hstep with hfresh
    rcases h.request hfresh with ⟨hnot, q, heq⟩ | ⟨hcreates, s₁, heq, hc⟩
    · rw [heq] at hstep
      cases hstep
      exact ⟨h, fun hordered => iff_of_true hordered fun _ hcreates => absurd hcreates hnot⟩
    · rw [heq] at hstep
      cases hstep
      exact ⟨hc.inv h hfresh hcreates, fun hordered => hc.ordered_iff h hordered hfresh hcreates⟩
  | setLength length =>
    rw [step] at hstep
    split_ifs at hstep with hguard
    rw [setFileCacheLength, if_pos hguard.1] at hstep
    cases hstep
    refine ⟨⟨h.tree, h.physBase, h.aligned, fun p hp => (h.below p hp).trans_le hguard.1,
      hguard.2⟩, fun hordered => iff_of_true ⟨hordered.mono, hordered.room⟩ trivial⟩

/-- A request fails only if the addresses for a new unit are already in use. -/
lemma Inv.inOrder_of_stuck (h : Inv info s) (hstep : s.step info op = none) :
    s.InOrder info op := by
  cases op with
  | setLength length => exact trivial
  | request r =>
    intro hfresh
    rw [step, if_pos hfresh, map_eq_none_iff] at hstep
    rcases h.request hfresh with ⟨-, q, heq⟩ | ⟨-, s₁, heq, -⟩ <;>
      exact absurd (heq.symm.trans hstep) (some_ne_none _)

/-- **Requests for units**: there is one unit for each window along a sequence of requests exactly if
each new unit is in order. -/
theorem one_unit_iff (info : FileCacheInfo) (unit : P → FileCacheUnit) (ops : List (FileCacheOp P)) :
    Always (step info) (OneUnit info) (init unit) ops ↔
      Allowed (step info) (InOrder info) (init unit) ops := by
  refine always_iff_allowed (Inv info) (OneUnit info) (fun s op h hone => ?_)
    (fun s op s' h _ hstep => (h.step_spec hstep).1) (inv_init unit) ?_ ops
  · cases hstep : s.step info op with
    | none => exact iff_of_true (by simp) (h.inOrder_of_stuck hstep)
    | some s₁ =>
      obtain ⟨h₁, hiff⟩ := h.step_spec hstep
      rw [← hiff (h.oneUnit_iff.mp hone), ← h₁.oneUnit_iff]
      simp
  · exact (inv_init unit).oneUnit_iff.mpr ⟨by simp [init, empty],
      by simp [init, empty]⟩

/-! ### A file becomes shorter -/

/-- **What a new length should do**: the units behind it go out of the tree and lose the reference of
the cache, and the others are found as before. -/
structure Trimmed (info : FileCacheInfo) (s s' : FileCache P) (length : ℕ) : Prop where
  newLength : s'.length = length
  exact : s'.units.Exact
  live : ∀ p, p ∈ s'.units.live ↔
    p ∈ s.units.live ∧ (s.length ≤ length ∨ (s.unit p).offset < length)
  kept : ∀ p ∈ s'.units.live, s'.unit p = s.unit p
  dropped : ∀ p ∈ s.units.live, p ∉ s'.units.live → s'.unit p =
    { s.unit p with owned := false, references := sub64 (s.unit p).references 1 }
  found : ∀ (r : UnitRequest P) p, s.getFileCacheUnit info r = some (some p, s) →
    alignDown r.fileOffset info.unitSize < length → s'.getFileCacheUnit info r = some (some p, s')

/-- The loop takes no unit out of the tree. -/
lemma live_trimLoop {fuel : ℕ} {scan : Option P} (h : trimLoop fuel s scan = some s') :
    s'.units.live = s.units.live := by
  fun_induction trimLoop fuel s scan with
  | case1 s => exact congrArg (·.units.live) (some.inj h).symm
  | case2 => cases h
  | case3 fuel s scan _ ih => exact ih h
  | case4 fuel s scan _ ih =>
    obtain ⟨t, -, h⟩ := bind_eq_some_iff.mp h
    exact (ih t h).trans rfl

lemma Trimmed.offset_lt {fuel length : ℕ} (h : Trimmed info s s' length)
    (hrun : s.setFileCacheLength fuel length = some s') (hlt : ¬ s.length ≤ length)
    (hp : p ∈ s.units.live) : (s.unit p).offset < length := by
  rw [setFileCacheLength, if_neg hlt] at hrun
  exact ((h.live p).mp ((live_trimLoop hrun).symm ▸ hp)).2.resolve_left hlt

/-- The loop goes down to the right and ends, if there is nothing to trim. -/
lemma trimLoop_ends {shape : Shape P} {par q : Option P}
    (h : s.units.tree.links.Rep par q shape)
    (hoffset : ∀ p ∈ shape.toList, (s.unit p).offset < s.length) :
    ∃ fuel, trimLoop fuel s q = some s := by
  induction shape generalizing par q with
  | nil => exact ⟨0, by rw [show q = none from h]; rfl⟩
  | node l x r _ ihr =>
    obtain ⟨rfl, -, -, hr⟩ := h
    obtain ⟨fuel, hfuel⟩ := ihr hr fun p hp => hoffset p (by simp [hp])
    exact ⟨fuel + 1, (if_pos (hoffset x (by simp))).trans hfuel⟩

/-- **`SetFileCacheLength`** does what it should exactly if there is nothing to trim. -/
theorem setFileCacheLength_iff (info : FileCacheInfo) (h : s.units.Exact) (length : ℕ) :
    (∃ fuel s', s.setFileCacheLength fuel length = some s' ∧ Trimmed info s s' length) ↔
      s.length ≤ length ∨ ∀ p ∈ s.units.live, (s.unit p).offset < length := by
  constructor
  · rintro ⟨fuel, s', hrun, ht⟩
    exact (em _).imp_right fun hlt p => ht.offset_lt hrun hlt
  · intro hcond
    have htrimmed : Trimmed info s { s with length := length } length := by
      refine ⟨rfl, h, fun p => ?_, fun _ _ => rfl, fun p hp hnot => absurd hp hnot, fun r p hp hlt =>
        getFileCacheUnit_of_found hlt (found_of_getFileCacheUnit (s := s) hp)⟩
      exact (and_iff_left_of_imp fun hp => hcond.imp_right fun hall => hall p hp).symm
    by_cases hle : s.length ≤ length
    · exact ⟨0, _, if_pos hle, htrimmed⟩
    · obtain ⟨shape, hrep, hperm⟩ := h
      obtain ⟨fuel, hfuel⟩ := trimLoop_ends (s := { s with length := length }) hrep
        fun p hp => hcond.resolve_left hle p (hperm.mem_iff.mp hp)
      exact ⟨fuel, _, (if_neg hle).trans hfuel, htrimmed⟩

/-- Units of four pages. -/
def fourPages : FileCacheInfo := ⟨0x4000, 14, by decide, by decide⟩

/-- The first unit gets a higher address than the second, and a second request for the second unit
makes a third one, for the same offset. -/
theorem second_unit : ∃ s : FileCache ℕ, run (step fourPages)
    (init fun _ => ⟨0, false, 0, 0, false⟩)
    [.setLength 0x8000, .request ⟨0, some ⟨true, false⟩, 0x90000, 1⟩,
      .request ⟨0x4000, some ⟨true, false⟩, 0x80000, 2⟩,
      .request ⟨0x4000, some ⟨true, false⟩, 0x70000, 3⟩] = some s ∧ s.units.live = [3, 2, 1] ∧
    (s.unit 2).offset = (s.unit 3).offset := by
  refine ⟨_, rfl, ?_, ?_⟩ <;> decide

/-- A file of two windows, of which the first one has a unit. -/
def firstWindow : List (FileCacheOp ℕ) :=
  [.setLength 0x8000, .request ⟨0, some ⟨true, false⟩, 0x90000, 1⟩]

/-- The file becomes shorter, and its unit is below the new length. -/
theorem trimmed_below : ∃ s : FileCache ℕ,
    run (step fourPages) (init fun _ => ⟨0, false, 0, 0, false⟩) firstWindow = some s ∧
    s.length = 0x8000 ∧ s.units.live = [1] ∧ s.units.Exact ∧
    ∃ fuel s', s.setFileCacheLength fuel 0x4000 = some s' ∧ Trimmed fourPages s s' 0x4000 := by
  obtain ⟨s, hrun, hlength, hlive, hoffset⟩ : ∃ s : FileCache ℕ,
      run (step fourPages) (init fun _ => ⟨0, false, 0, 0, false⟩) firstWindow = some s ∧
      s.length = 0x8000 ∧ s.units.live = [1] ∧ (s.unit 1).offset = 0 := ⟨_, rfl, rfl, rfl, rfl⟩
  have hinv : Inv fourPages s := (always_of_invariant (Inv fourPages) (fun _ h => h)
    (fun _ _ _ h hstep => (h.step_spec hstep).1) (inv_init _) firstWindow).of_run hrun
  refine ⟨s, hrun, hlength, hlive, hinv.tree.exact, ?_⟩
  refine (setFileCacheLength_iff fourPages hinv.tree.exact 0x4000).mpr (.inr ?_)
  simp [hlive, hoffset]

/-- The only unit is behind the new length: it stays in the tree. -/
theorem unit_stays : ∃ s : FileCache ℕ, run (step fourPages)
    (init fun _ => ⟨0, false, 0, 0, false⟩)
    [.setLength 0x8000, .request ⟨0x4000, some ⟨true, false⟩, 0x90000, 1⟩] = some s ∧
    ¬ ∃ fuel s', s.setFileCacheLength fuel 0x4000 = some s' ∧ Trimmed fourPages s s' 0x4000 := by
  refine ⟨_, rfl, ?_⟩
  rintro ⟨fuel, s', hrun, ht⟩
  exact absurd (ht.offset_lt (p := 1) hrun (by decide) (by decide)) (by decide)

end FileCache

end Northport.Filesystem
