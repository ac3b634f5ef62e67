/-
# The operations of the VMM

Every operation ends and keeps the address space invariant, whatever the drivers answer.
For each of them the lemma also says what becomes of the holes and ranges; the outcomes are
listed in `AllocOutcome`, `FreeOutcome` and `SplitOutcome`.
-/
import Northport.Lib.TreeSearch
import Northport.Memory.VmmInvariant

namespace Northport.Memory

open Lib Lib.Shape Lib.Links Northport.RBTree List Option

namespace Vmm

variable {P σ : Type} [DecidableEq P] {m : MetaAlloc P} {v : Vmm P σ}
  {image : List Span} {fuel : ℕ} {par : Option P} {l : List Span} {p : P} {range : VmRange}

/-! ### The two searches -/

/-- The comparison that directs `FindRange`. -/
def rangeCmp (t : Tree P VmRange) (addr : ℕ) (p : P) : Ordering :=
  if addr ≥ (t.item p).base ∧ addr < (t.item p).top then .eq
  else if addr < (t.item p).base then .lt else .gt

omit [DecidableEq P] in
lemma rangeCmp_eq {t : Tree P VmRange} {addr : ℕ} :
    rangeCmp t addr p = .eq ↔ (t.item p).base ≤ addr ∧ addr < (t.item p).top := by
  rw [rangeCmp]
  split_ifs <;> simp_all

omit [DecidableEq P] in
lemma findLoop_eq (t : Tree P VmRange) (addr fuel : ℕ) (p : Option P) :
    findLoop t addr fuel p = t.links.search (rangeCmp t addr) fuel p := by
  induction fuel generalizing p with
  | zero => cases p <;> rfl
  | succ fuel ih =>
    cases p with
    | none => rfl
    | some p =>
      rw [findLoop, Links.search, rangeCmp, ih, ih]
      split_ifs
      · rfl
      · rfl
      · rfl
      · omega

/-- `FindRange` ends, at a range that contains the address or at a null pointer. -/
lemma findRange_spec (h : v.ranges.Inv rangeLaws VmRange.base) (addr : ℕ) :
    ∃ r, v.findRange addr = some r ∧ ∀ p, r = some p → p ∈ v.ranges.live ∧
      (v.ranges.tree.item p).base ≤ addr ∧ addr < (v.ranges.tree.item p).top := by
  obtain ⟨shape, htree, hperm⟩ := h
  by_cases hb : addr < v.globalLowerBound ∨ addr ≥ v.globalUpperBound
  · exact ⟨none, by rw [findRange, if_pos hb], by simp⟩
  · refine ⟨shape.search (rangeCmp v.ranges.tree addr), ?_, fun p hp => ?_⟩
    · rw [findRange, if_neg hb, findLoop_eq]
      exact htree.ok.rep.search _ hperm.length_eq.le
    · obtain ⟨hmem, hcmp⟩ := search_mem hp
      exact ⟨hperm.mem_iff.mp hmem, rangeCmp_eq.mp hcmp⟩

omit [DecidableEq P] in
/-- **The search for a hole** ends at the first hole of the tree that is large enough; it gives up
exactly when there is none. -/
lemma searchHole_spec {t : Tree P VmHole} {n : ℕ} {l r : Shape P} {x : P}
    (h : t.links.Rep par (some x) (node l x r)) (hagg : vmHoleLaws.Agg t (node l x r))
    (hfuel : (node l x r).toList.length ≤ fuel) :
    ∃ q, searchHole t n fuel x = some q ∧
      (∀ p, q = some p → ∃ a b, (node l x r).toList = a ++ p :: b ∧ n ≤ (t.item p).length ∧
        ∀ y ∈ a, (t.item y).length < n) ∧
      (q = none → ∀ p ∈ (node l x r).toList, (t.item p).length < n) := by
  induction fuel generalizing l x r par with
  | zero => simp at hfuel
  | succ fuel ih =>
    obtain ⟨-, -, hl, hr⟩ := h
    obtain ⟨-, hal, har⟩ := hagg
    simp only [toList_node, length_append, length_cons] at hfuel
    rw [searchHole]
    by_cases hgo : ∃ ll lx lr, l = node ll lx lr ∧ n ≤ (t.item lx).largestHole
    · -- the left subtree has a hole that is large enough
      obtain ⟨ll, lx, lr, rfl, hle⟩ := hgo
      have hleft : t.getLeft x = some lx := hl.1
      have hfits : leftFits t n x = some lx := by simp [leftFits, hleft, hle]
      rw [hl.1] at hl
      obtain ⟨q, hq, hsome, hnone⟩ := ih hl hal (by omega)
      refine ⟨q, by rw [hfits]; exact hq, fun p hp => ?_, fun hq' => ?_⟩
      · obtain ⟨a, b, hab, hfit, hbefore⟩ := hsome p hp
        exact ⟨a, b ++ x :: r.toList, by simp [hab], hfit, hbefore⟩
      · obtain ⟨-, z, hz, hzl⟩ := largestHole_spec hal
        have hlt := hnone hq' z hz
        omega
    · obtain ⟨hfits, hleft⟩ : leftFits t n x = none ∧ ∀ p ∈ l.toList, (t.item p).length < n := by
        cases l with
        | nil =>
          have hleft : t.getLeft x = none := hl
          exact ⟨by simp [leftFits, hleft], by simp⟩
        | node ll lx lr =>
          have hleft : t.getLeft x = some lx := hl.1
          have hlt : ¬ n ≤ (t.item lx).largestHole := fun hle => hgo ⟨ll, lx, lr, rfl, hle⟩
          refine ⟨by simp [leftFits, hleft, hlt], fun p hp => ?_⟩
          have hle := (largestHole_spec hal).1 p hp
          omega
      rw [hfits]
      by_cases hfit : n ≤ (t.item x).length
      · refine ⟨some x, by simp [hfit], ?_, by simp⟩
        intro p hp
        cases hp
        exact ⟨l.toList, r.toList, rfl, hfit, hleft⟩
      · -- only the right subtree is left
        have hsmall : (∀ p ∈ r.toList, (t.item p).length < n) →
            ∀ p ∈ (node l x r).toList, (t.item p).length < n := by
          intro hright
          rw [toList_node, forall_mem_append, forall_mem_cons]
          exact ⟨hleft, not_le.mp hfit, hright⟩
        cases r with
        | nil =>
          have hright : t.getRight x = none := hr
          exact ⟨none, by simp [hfit, hright], by simp, fun _ => hsmall (by simp)⟩
        | node rl rx rr =>
          have hright : t.getRight x = some rx := hr.1
          by_cases hle : n ≤ (t.item rx).largestHole
          · rw [hr.1] at hr
            obtain ⟨q, hq, hsome, hnone⟩ := ih hr har (by omega)
            refine ⟨q, by simpa [hfit, hright, hle] using hq, fun p hp => ?_,
              fun hq' => hsmall (hnone hq')⟩
            obtain ⟨a, b, hab, hlarge, hbefore⟩ := hsome p hp
            exact ⟨l.toList ++ x :: a, b, by simp [hab], hlarge,
              forall_mem_append.mpr ⟨hleft, forall_mem_cons.mpr ⟨not_le.mp hfit, hbefore⟩⟩⟩
          · refine ⟨none, by simp [hfit, hright, hle], by simp, fun _ => hsmall fun p hp => ?_⟩
            have hle' := (largestHole_spec har).1 p hp
            omega

/-! ### Allocation -/

/-- The bounds of a VMM never change. -/
def SameBounds (v v' : Vmm P σ) : Prop :=
  v'.globalLowerBound = v.globalLowerBound ∧ v'.globalUpperBound = v.globalUpperBound

/-- The attached span becomes a range, or a hole of its own when the driver refuses. -/
lemma attachRange_spec (driver : VmDriver σ) (initArg : ℕ) {query : QueryResult} {b : ℕ}
    {flags : VmFlags} (h : Wf image v [⟨b, query.length⟩]) (htyped : flags.typed = true) :
    ∃ v' r, v.attachRange m driver query initArg flags b = some (v', r) ∧ Wf image v' [] ∧
      SameBounds v v' ∧ v'.dropped = v.dropped ∧
      let result := (driver.attach v.env ⟨b, query.length, flags, 0, 0, 0⟩ query initArg).1
      let env := (driver.attach v.env ⟨b, query.length, flags, 0, 0, 0⟩ query initArg).2
      (result.success = true ∧ r = some (add64 b result.offset) ∧ v'.holeSpans = v.holeSpans ∧
          v'.rangeList = ⟨b, query.length, flags, result.offset, result.token, 0⟩ :: v.rangeList ∧
          v'.env = { env with stats := env.stats.countRange flags (add64 · 1) }) ∨
        (result.success = false ∧ r = none ∧ v'.holeSpans = ⟨b, query.length⟩ :: v.holeSpans ∧
          v'.rangeList = v.rangeList ∧ v'.env = env) := by
  obtain ⟨result, env, hres⟩ : ∃ result env,
      driver.attach v.env ⟨b, query.length, flags, 0, 0, 0⟩ query initArg = (result, env) :=
    ⟨_, _, rfl⟩
  have hfresh := m.pick_notMem v.rangeMeta
  have hdead : m.pick v.rangeMeta ∉ v.ranges.live := fun hp => hfresh (h.rangeMeta _ hp)
  have h1 : Wf image { v with rangeMeta := m.pick v.rangeMeta :: v.rangeMeta, env := env }
      [⟨b, query.length⟩] :=
    h.congr env h.holeMeta fun p hp => mem_cons_of_mem _ (h.rangeMeta p hp)
  simp only [hres]
  cases hsucc : result.success with
  | true =>
    have hrange : Wf image { v with rangeMeta := m.pick v.rangeMeta :: v.rangeMeta, env := env }
        [VmRange.span ⟨b, query.length, flags, result.offset, result.token, 0⟩] := h1
    obtain ⟨ranges, h2, hwf, -, hlist⟩ :=
      insertRange_spec hrange mem_cons_self hdead htyped
    refine ⟨{ v with
        rangeMeta := m.pick v.rangeMeta :: v.rangeMeta, ranges := ranges,
        env := { env with stats := env.stats.countRange flags (add64 · 1) } }, _, ?_,
      hwf.congr _ hwf.holeMeta hwf.rangeMeta, ⟨rfl, rfl⟩, rfl, .inl ⟨rfl, rfl, rfl, hlist, rfl⟩⟩
    simp [attachRange, hres, hsucc, h2]
  | false =>
    obtain ⟨v2, h2, hwf, hsame, hspans⟩ := insertHole_spec (m := m) 0 h1
    refine ⟨{ v2 with rangeMeta := v2.rangeMeta.erase (m.pick v.rangeMeta) }, none, ?_, ?_,
      ⟨hsame.lower, hsame.upper⟩, hsame.dropped,
      .inr ⟨rfl, rfl, hspans, hsame.rangeList, hsame.env⟩⟩
    · simp [attachRange, hres, hsucc, h2]
    · refine hwf.congr v2.env hwf.holeMeta fun p hp => ?_
      rw [hsame.ranges] at hp
      rw [hsame.rangeMeta, erase_cons_head]
      exact h.rangeMeta p hp

/-- **What an allocation can do**, whatever the driver answers. -/
inductive AllocOutcome (drivers : VmDrivers σ) (v : Vmm P σ) (length initArg : ℕ) (flags : VmFlags)
    (limits : VmAllocLimits) (v' : Vmm P σ) : Option ℕ → Prop
  /-- The request is refused, or no hole is large enough. -/
  | refused (holes : v'.holeSpans = v.holeSpans) (ranges : v'.rangeList = v.rangeList)
      (env : v'.env = v.env ∨ ∃ driver, drivers.getDriver flags = some driver ∧
        v'.env = (driver.query v.env length flags initArg).2)
      (why : ∀ driver, length ≠ 0 → drivers.getDriver flags = some driver →
        (driver.query v.env length flags initArg).1.success = true →
        ¬ (limits.alignment > 1 ∧
          (driver.query v.env length flags initArg).1.alignment % limits.alignment ≠ 0) →
        ∀ s ∈ v.holeSpans, s.length < (driver.query v.env length flags initArg).1.length) :
      AllocOutcome drivers v length initArg flags limits v' none
  /-- The start of a hole becomes a range. -/
  | attached (driver : VmDriver σ) (query : QueryResult) (result : AttachResult) (b : ℕ)
      (env env' : VmEnv σ) (length_ne : length ≠ 0)
      (hdriver : drivers.getDriver flags = some driver)
      (hquery : driver.query v.env length flags initArg = (query, env))
      (accepted : query.success = true)
      (hattach : driver.attach env ⟨b, query.length, flags, 0, 0, 0⟩ query initArg = (result, env'))
      (success : result.success = true) (holes : Cut v.holeSpans v'.holeSpans b query.length)
      (ranges : v'.rangeList =
        ⟨b, query.length, flags, result.offset, result.token, 0⟩ :: v.rangeList)
      (henv : v'.env = { env' with stats := env'.stats.countRange flags (add64 · 1) }) :
      AllocOutcome drivers v length initArg flags limits v' (some (add64 b result.offset))
  /-- The driver does not attach; what was cut off a hole is a hole of its own. -/
  | returned (driver : VmDriver σ) (query : QueryResult) (result : AttachResult) (b : ℕ)
      (env env' : VmEnv σ) (rest : List Span) (length_ne : length ≠ 0)
      (hdriver : drivers.getDriver flags = some driver)
      (hquery : driver.query v.env length flags initArg = (query, env))
      (accepted : query.success = true)
      (hattach : driver.attach env ⟨b, query.length, flags, 0, 0, 0⟩ query initArg = (result, env'))
      (failed : result.success = false) (cut : Cut v.holeSpans rest b query.length)
      (holes : v'.holeSpans = ⟨b, query.length⟩ :: rest) (ranges : v'.rangeList = v.rangeList)
      (henv : v'.env = env') :
      AllocOutcome drivers v length initArg flags limits v' none

/-- The search of `Alloc` over the whole tree of holes: the large enough hole with the lowest base
is found. -/
lemma searchHole_root (h : v.holes.Inv vmHoleLaws Prod.fst) (n : ℕ) :
    (v.holes.tree.getRoot = none ∧ v.holes.live = []) ∨
      ∃ root q, v.holes.tree.getRoot = some root ∧
        searchHole v.holes.tree n v.holes.live.length root = some q ∧
        (∀ p, q = some p → p ∈ v.holes.live ∧ n ≤ (v.holes.tree.item p).length ∧
          ∀ y ∈ v.holes.live, n ≤ (v.holes.tree.item y).length →
            (v.holes.tree.item p).base ≤ (v.holes.tree.item y).base) ∧
        (q = none → ∀ p ∈ v.holes.live, (v.holes.tree.item p).length < n) := by
  obtain ⟨shape, htree, hperm⟩ := h
  cases shape with
  | nil => exact .inl ⟨htree.ok.rep, nil_perm.mp hperm⟩
  | node l x r =>
    have hroot : v.holes.tree.getRoot = some x := htree.ok.rep.1
    have hrep := htree.ok.rep
    rw [show v.holes.tree.links.root = some x from hroot] at hrep
    obtain ⟨q, hq, hsome, hnone⟩ := searchHole_spec (n := n) hrep htree.ok.agg hperm.length_eq.le
    refine .inr ⟨x, q, hroot, hq, fun p hp => ?_,
      fun hq' p hp => hnone hq' p (hperm.mem_iff.mpr hp)⟩
    obtain ⟨a, b, hab, hfit, hbefore⟩ := hsome p hp
    refine ⟨hperm.mem_iff.mp (by rw [hab]; simp), hfit, fun y hy hlarge => ?_⟩
    -- a hole that is large enough does not come before the one that was found
    have hy := hperm.mem_iff.mpr hy
    rw [hab, mem_append, mem_cons] at hy
    have hsorted := htree.sorted
    rw [hab] at hsorted
    rcases hy with hy | rfl | hy
    · have hlt := hbefore y hy
      omega
    · exact le_rfl
    · exact (pairwise_cons.mp (pairwise_append.mp hsorted).2.1).1 y hy

/-- **`Alloc`** ends and keeps the invariant. -/
lemma alloc_spec (drivers : VmDrivers σ) (length initArg : ℕ) (flags : VmFlags)
    (limits : VmAllocLimits) (h : Wf image v []) :
    ∃ v' r, v.alloc m drivers length initArg flags limits = some (v', r) ∧ Wf image v' [] ∧
      SameBounds v v' ∧ v'.dropped = v.dropped ∧
      AllocOutcome drivers v length initArg flags limits v' r := by
  by_cases hlength : length = 0
  · exact ⟨v, none, by simp [alloc, hlength], h, ⟨rfl, rfl⟩, rfl,
      .refused rfl rfl (.inl rfl) fun _ hne => absurd hlength hne⟩
  cases hdriver : drivers.getDriver flags with
  | none =>
    exact ⟨v, none, by simp [alloc, hlength, hdriver], h, ⟨rfl, rfl⟩, rfl,
      .refused rfl rfl (.inl rfl) fun _ _ hd => by simp [hdriver] at hd⟩
  | some driver =>
    obtain ⟨query, env, hquery⟩ : ∃ query env,
      driver.query v.env length flags initArg = (query, env) := ⟨_, _, rfl⟩
    have hwf : Wf image { v with env := env } [] := h.congr env h.holeMeta h.rangeMeta
    -- every refusal after the query leaves all but the environment alone
    have hrefuse (hwhy : query.success = true →
        ¬ (limits.alignment > 1 ∧ query.alignment % limits.alignment ≠ 0) →
        ∀ s ∈ v.holeSpans, s.length < query.length) :
        AllocOutcome drivers v length initArg flags limits { v with env := env } none := by
      refine .refused rfl rfl (.inr ⟨driver, hdriver, by rw [hquery]⟩) fun driver' _ hd => ?_
      cases hdriver.symm.trans hd
      rw [hquery]
      exact hwhy
    by_cases hsucc : query.success = true
    swap
    · exact ⟨_, none, by simp [alloc, hlength, hdriver, hquery, hsucc], hwf, ⟨rfl, rfl⟩, rfl,
        hrefuse fun h => absurd h hsucc⟩
    by_cases halign : limits.alignment > 1 ∧ query.alignment % limits.alignment ≠ 0
    · exact ⟨_, none, by simp [alloc, hlength, hdriver, hquery, hsucc, halign], hwf, ⟨rfl, rfl⟩, rfl,
        hrefuse fun _ hnot => absurd halign hnot⟩
    rcases searchHole_root h.holes query.length with ⟨hroot, hlive⟩ | ⟨root, q, hroot, hq, hsome, hnone⟩
    · exact ⟨_, none, by simp [alloc, hlength, hdriver, hquery, hsucc, halign, hroot], hwf, ⟨rfl, rfl⟩,
        rfl, hrefuse fun _ _ => by simp [holeSpans, hlive]⟩
    cases q with
    | none =>
      exact ⟨_, none, by simp [alloc, hlength, hdriver, hquery, hsucc, halign, hroot, hq], hwf,
        ⟨rfl, rfl⟩, rfl, hrefuse fun _ _ => forall_mem_map.mpr (hnone rfl)⟩
    | some p =>
      obtain ⟨hp, hfits, -⟩ := hsome p rfl
      obtain ⟨v1, h1, hwf1, hsame, hdead, hcut⟩ := adjustHole_spec (m := m) hwf hp hfits
      have htyped : flags.typed = true := by
        rw [← getDriver_isSome drivers, hdriver]
        rfl
      -- nothing of the address space lies at 0
      have hbase : (v.holes.tree.item p).base ≠ 0 := by
        have hlo := (hwf1.inside _ (mem_append_left _ mem_cons_self)).1
        have hpos := hwf1.lower_pos
        simp only at hlo
        omega
      have hwf2 : Wf image { v1 with holeMeta := v1.holeMeta.erase p }
          [⟨(v.holes.tree.item p).base, query.length⟩] := by
        refine hwf1.congr v1.env (fun q hq => ?_) hwf1.rangeMeta
        have hne : q ≠ p := fun h => hdead (h ▸ hq)
        exact (mem_erase_of_ne hne).mpr (hwf1.holeMeta q hq)
      obtain ⟨v', r, h2, hwf', hbounds, hdropped, hresult⟩ := 
        attachRange_spec (m := m) driver initArg hwf2 htyped
      obtain ⟨result, env', hattach⟩ : ∃ result env', driver.attach env
        ⟨(v.holes.tree.item p).base, query.length, flags, 0, 0, 0⟩ query initArg = (result, env') :=
        ⟨_, _, rfl⟩
      have henv : v1.env = env := hsame.env
      have hranges : v1.rangeList = v.rangeList := hsame.rangeList
      simp only [henv, hattach] at hresult
      refine ⟨v', r, ?_, hwf', ⟨hbounds.1.trans hsame.lower, hbounds.2.trans hsame.upper⟩,
        hdropped.trans hsame.dropped, ?_⟩
      · simp [alloc, hlength, hdriver, hquery, hsucc, halign, hroot, hq, h1, hbase, h2]
      · rcases hresult with ⟨hs, rfl, hh, hr, he⟩ | ⟨hs, rfl, hh, hr, he⟩
        · refine .attached driver query result _ env env' hlength hdriver hquery hsucc hattach hs
            ?_ ?_ he
          · rw [hh]
            exact hcut
          · rw [hr, ← hranges]
            rfl
        · refine .returned driver query result _ env env' v1.holeSpans hlength hdriver hquery
            hsucc hattach hs hcut hh ?_ he
          rw [hr, ← hranges]
          rfl

/-! ### The other operations -/

section

variable (h : Wf image v l) (hp : p ∈ v.ranges.live) (hrange : v.ranges.tree.item p = range)

include h hp hrange

lemma Wf.inside_range : range.span.Inside v.globalLowerBound v.globalUpperBound :=
  hrange ▸ h.inside _ (mem_append_right _ (mem_map.mpr ⟨p, hp, rfl⟩))

/-- The end of a range does not wrap around. -/
lemma Wf.top_eq : range.top = range.base + range.length :=
  add64_eq (lt_of_le_of_lt (h.inside_range hp hrange).2 h.upper_lt)

end

/-- The range that contains an address has a driver. -/
lemma Wf.findRange (h : Wf image v []) (drivers : VmDrivers σ) (base : ℕ) :
    v.findRange base = some none ∨ ∃ p range driver, v.findRange base = some (some p) ∧
      p ∈ v.ranges.live ∧ v.ranges.tree.item p = range ∧ range.span.Contains base ∧
      range.flags.typed = true ∧ drivers.getDriver range.flags = some driver := by
  obtain ⟨q, hfind, hspec⟩ := findRange_spec h.ranges base
  cases q with
  | none => exact .inl hfind
  | some p =>
    obtain ⟨hp, hbase, htop⟩ := hspec p rfl
    rw [h.top_eq hp rfl] at htop
    have htyped := h.typed p hp
    obtain ⟨driver, hdriver⟩ := isSome_iff_exists.mp
      ((getDriver_isSome drivers _).trans htyped)
    exact .inr ⟨p, _, driver, hfind, hp, rfl, ⟨hbase, htop⟩, htyped, hdriver⟩

/-- **What freeing can do**: the range that contains the address becomes a hole of its own,
or is dropped. -/
inductive FreeOutcome (drivers : VmDrivers σ) (v : Vmm P σ) (base : ℕ) (v' : Vmm P σ) : Bool → Prop
  | refused (same : v' = v)
      (why : ∀ p, v.findRange base = some (some p) → (v.ranges.tree.item p).mdlCount ≠ 0) :
      FreeOutcome drivers v base v' false
  /-- The driver of the range detaches. -/
  | detached (p : P) (range : VmRange) (driver : VmDriver σ) (success : Bool) (env : VmEnv σ)
      (hfind : v.findRange base = some (some p)) (hrange : v.ranges.tree.item p = range)
      (found : range.span.Contains base) (hdriver : drivers.getDriver range.flags = some driver)
      (hdetach : driver.detach
        { v.env with stats := v.env.stats.countRange range.flags (sub64 · 1) } range = (success, env))
      (before : v.rangeList.Perm (range :: v'.rangeList)) (henv : v'.env = env)
      (holes : v'.holeSpans = if success then range.span :: v.holeSpans else v.holeSpans)
      (dropped : v'.dropped = if success then v.dropped else range.span :: v.dropped) :
      FreeOutcome drivers v base v' success

/-- A span in hand is dropped. -/
lemma Wf.drop {s : Span} (h : Wf image v (s :: l)) :
    Wf image { v with dropped := s :: v.dropped } l := by
  refine h.recutRanges [] [] h.ranges h.rangeMeta (Perm.refl _) (Perm.refl _) nofun
    (fun t ht => ?_) fun a => ?_
  · exact h.inside t (by simp_all)
  · simp only [map_nil, cover_append, cover_cons, cover_nil]
    omega

/-- **`Free`** ends and keeps the invariant. -/
lemma free_spec (drivers : VmDrivers σ) (base : ℕ) (h : Wf image v []) :
    ∃ v' r, v.free m drivers base = some (v', r) ∧ Wf image v' [] ∧ SameBounds v v' ∧
      FreeOutcome drivers v base v' r := by
  rcases h.findRange drivers base with
    hfind | ⟨p, range, driver, hfind, hp, hrange, hfound, -, hdriver⟩
  · exact ⟨v, false, by simp [free, hfind], h, ⟨rfl, rfl⟩, .refused rfl fun p hp => by
      simp [hfind] at hp⟩
  · by_cases hmdl : range.mdlCount ≠ 0
    · refine ⟨v, false, by simp [free, hfind, hrange, hmdl], h, ⟨rfl, rfl⟩,
        .refused rfl fun q hq => ?_⟩
      cases hfind.symm.trans hq
      rwa [hrange]
    obtain ⟨ranges, h1, hwf, hlive, hitem, hperm⟩ := removeRange_spec h hp
    rw [hrange] at hwf hperm
    obtain ⟨success, env, hdetach⟩ : ∃ success env, driver.detach
        { v.env with stats := v.env.stats.countRange range.flags (sub64 · 1) } range
          = (success, env) := ⟨_, _, rfl⟩
    have hpdead : p ∉ ranges.live := by
      rw [hlive]
      exact Nodup.not_mem_erase h.ranges.nodup
    have hwf1 : Wf image { v with ranges := ranges, env := env, rangeMeta := v.rangeMeta.erase p }
        [range.span] := by
      refine hwf.congr env hwf.holeMeta fun q hq => ?_
      have hne : q ≠ p := fun h => hpdead (h ▸ hq)
      exact (mem_erase_of_ne hne).mpr (hwf.rangeMeta q hq)
    cases success with
    | true =>
      obtain ⟨v', h2, hwf', hsame, hspans⟩ := insertHole_spec (m := m) 0 hwf1
      refine ⟨v', true, ?_, hwf', ⟨hsame.lower, hsame.upper⟩,
        .detached p range driver true env hfind hrange hfound hdriver hdetach ?_ hsame.env hspans
          hsame.dropped⟩
      · simp [free, hfind, hrange, hmdl, h1, hitem, hdriver, hdetach, h2]
      · rw [hsame.rangeList]
        exact hperm
    | false =>
      refine ⟨_, false, ?_, hwf1.drop, ⟨rfl, rfl⟩,
        .detached p range driver false env hfind hrange hfound hdriver hdetach hperm rfl rfl rfl⟩
      simp [free, hfind, hrange, hmdl, h1, hitem, hdriver, hdetach, VmRange.span]

/-- What `SetFlags` asks of the driver. -/
def flagArgs (old flags : VmFlags) : ModifyRangeArgs :=
  { setFlags := flags &&& ~~~vmFlagTypeMask &&& ~~~old,
    clearFlags := old &&& ~~~(flags &&& ~~~vmFlagTypeMask) }

/-- The flags of a range after `SetFlags`. -/
def newFlags (old flags : VmFlags) : VmFlags :=
  (old &&& vmFlagTypeMask) ||| (flags &&& ~~~vmFlagTypeMask)

/-- **What `SetFlags` can do**: the driver of the range modifies it, or refuses to. -/
inductive SetFlagsOutcome (drivers : VmDrivers σ) (v : Vmm P σ) (base : ℕ) (flags : VmFlags)
    (v' : Vmm P σ) : Bool → Prop
  | refused (same : v' = v)
      (why : ∀ p, v.findRange base = some (some p) → flags &&& vmFlagTypeMask ≠ 0#64) :
      SetFlagsOutcome drivers v base flags v' false
  | modified (p : P) (range : VmRange) (driver : VmDriver σ) (success : Bool) (env : VmEnv σ)
      (rest : List VmRange) (hfind : v.findRange base = some (some p))
      (hrange : v.ranges.tree.item p = range) (mask : flags &&& vmFlagTypeMask = 0#64)
      (hdriver : drivers.getDriver range.flags = some driver)
      (hmodify : driver.modifyRange v.env range (flagArgs range.flags flags) = (success, env))
      (before : v.rangeList.Perm (range :: rest))
      (after : v'.rangeList.Perm
        ((if success then { range with flags := newFlags range.flags flags } else range) :: rest))
      (henv : v'.env = env) : SetFlagsOutcome drivers v base flags v' success

/-- **`SetFlags`** ends and keeps every span. -/
lemma setFlags_spec (drivers : VmDrivers σ) (base : ℕ) (flags : VmFlags) (h : Wf image v []) :
    ∃ v' r, v.setFlags drivers base flags = some (v', r) ∧ Wf image v' [] ∧ SameBounds v v' ∧
      v'.holeSpans = v.holeSpans ∧ v'.dropped = v.dropped ∧
      SetFlagsOutcome drivers v base flags v' r := by
  rcases h.findRange drivers base with
    hfind | ⟨p, old, driver, hfind, hp, hold, -, htyped, hdriver⟩
  · exact ⟨v, false, by simp [setFlags, hfind], h, ⟨rfl, rfl⟩, rfl, rfl, .refused rfl fun p hp => by
      simp [hfind] at hp⟩
  · by_cases hmask : flags &&& vmFlagTypeMask = 0#64
    swap
    · exact ⟨v, false, by simp [setFlags, hfind, hmask], h, ⟨rfl, rfl⟩, rfl, rfl,
        .refused rfl fun _ _ => hmask⟩
    obtain ⟨success, env, hmodify⟩ : ∃ success env,
      driver.modifyRange v.env old (flagArgs old.flags flags) = (success, env) := ⟨_, _, rfl⟩
    have hmodify' := hmodify
    rw [flagArgs] at hmodify'
    have hwf : Wf image { v with env := env } [] := h.congr env h.holeMeta h.rangeMeta
    have hperm : v.rangeList.Perm (old :: (v.ranges.live.erase p).map v.ranges.tree.item) := by
      rw [← hold]
      exact (perm_cons_erase hp).map _
    cases success with
    | false =>
      refine ⟨_, false, ?_, hwf, ⟨rfl, rfl⟩, rfl, rfl,
        .modified p old driver false env _ hfind hold hmask hdriver hmodify hperm hperm rfl⟩
      simp [setFlags, hfind, hmask, hold, hdriver, hmodify']
    | true =>
      obtain ⟨range, hrange, hspan, htyped'⟩ : ∃ range : VmRange,
          range = { old with flags := newFlags old.flags flags } ∧ range.span = old.span ∧
          range.flags.typed = true := ⟨_, rfl, rfl, typed_setFlags htyped⟩
      rw [← hold] at hspan
      obtain ⟨hwf', rest, hbefore, hafter⟩ := setRange_spec range [] hwf hp (congrArg Span.base hspan)
        htyped' (forall_mem_singleton.mpr (hspan ▸ h.inside_range hp rfl)) fun a => by rw [hspan]
      refine ⟨_, true, ?_, hwf', ⟨rfl, rfl⟩, rfl, rfl,
        .modified p old driver true env rest hfind hold hmask hdriver hmodify ?_ ?_ rfl⟩
      · simp [setFlags, hfind, hmask, hold, hdriver, hmodify', hrange, newFlags]
      · rw [← hold]
        exact hbefore
      · rw [hrange] at hafter ⊢
        exact hafter

/-- The range at `p` keeps its first `x` addresses; the rest is a new range at `q`. -/
lemma cutRange_spec {q : P} {x : ℕ} (tokenLow tokenHigh : ℕ) (env : VmEnv σ) (h : Wf image v [])
    (hp : p ∈ v.ranges.live) (hrange : v.ranges.tree.item p = range) (hx : x ≤ range.length)
    (hq : q ∉ v.rangeMeta) :
    ∃ v', insertRange { v.setRange p { range with length := x, token := tokenLow } with
        rangeMeta := q :: v.rangeMeta, env := env } q
          ⟨range.base + x, range.length - x, range.flags, 0, tokenHigh, 0⟩ = some v' ∧
      Wf image v' [] ∧ v'.holeSpans = v.holeSpans ∧ SameBounds v v' ∧ v'.dropped = v.dropped ∧
      v'.env = env ∧ ∃ rest, v.rangeList.Perm (range :: rest) ∧
        v'.rangeList.Perm ({ range with length := x, token := tokenLow } ::
          ⟨range.base + x, range.length - x, range.flags, 0, tokenHigh, 0⟩ :: rest) := by
  have htyped : range.flags.typed = true := hrange ▸ h.typed p hp
  obtain ⟨hlo, hhi⟩ := h.inside_range hp hrange
  simp only [VmRange.span] at hlo hhi
  have hinside : ∀ s ∈ [VmRange.span { range with length := x, token := tokenLow },
      ⟨range.base + x, range.length - x⟩], s.Inside v.globalLowerBound v.globalUpperBound := by
    rw [forall_mem_cons, forall_mem_singleton, VmRange.span]
    constructor <;> constructor <;> simp only <;> omega
  obtain ⟨hwf, rest, hold, hnew⟩ := setRange_spec { range with length := x, token := tokenLow }
    [⟨range.base + x, range.length - x⟩] h hp (by rw [hrange]) htyped hinside fun a => by
      rw [hrange, VmRange.span, VmRange.span, cover_split, Nat.add_sub_cancel' hx]
  have hwf1 : Wf image { v.setRange p { range with length := x, token := tokenLow } with
      rangeMeta := q :: v.rangeMeta, env := env }
        [VmRange.span ⟨range.base + x, range.length - x, range.flags, 0, tokenHigh, 0⟩] :=
    hwf.congr env hwf.holeMeta fun r hr => mem_cons_of_mem _ (hwf.rangeMeta r hr)
  obtain ⟨ranges, h1, hwf', -, hlist⟩ := insertRange_spec hwf1 mem_cons_self
    (fun hlive => hq (h.rangeMeta q hlive)) htyped
  refine ⟨_, h1, hwf', rfl, ⟨rfl, rfl⟩, rfl, rfl, rest, hrange ▸ hold, ?_⟩
  rw [hlist]
  exact (hnew.cons _).trans (Perm.swap _ _ _)

/-- **What splitting can do**: nothing, or a range is cut in two. -/
inductive SplitOutcome (drivers : VmDrivers σ) (v v' : Vmm P σ) : Prop
  | same (ranges : v'.rangeList = v.rangeList)
      (env : v'.env = v.env ∨ ∃ range driver offset, range ∈ v.rangeList ∧
        drivers.getDriver range.flags = some driver ∧
        v'.env = (driver.split v.env range offset).2) : SplitOutcome drivers v v'
  | cut (range : VmRange) (driver : VmDriver σ) (offset : ℕ) (result : SplitResult) (env : VmEnv σ)
      (rest : List VmRange) (hdriver : drivers.getDriver range.flags = some driver)
      (hsplit : driver.split v.env range offset = (result, env)) (success : result.success = true)
      (before : v.rangeList.Perm (range :: rest))
      (after : v'.rangeList.Perm ({ range with length := result.offset, token := result.tokenLow } ::
        ⟨range.base + result.offset, range.length - result.offset, range.flags, 0,
          result.tokenHigh, 0⟩ :: rest))
      (henv : v'.env = { env with stats := env.stats.countRange range.flags (add64 · 1) }) :
      SplitOutcome drivers v v'

/-- **`Split`** ends and keeps the invariant. -/
lemma split_spec (drivers : VmDrivers σ) (base offset : ℕ) (h : Wf image v []) :
    ∃ v' r, v.split m drivers base offset = some (v', r) ∧ Wf image v' [] ∧ SameBounds v v' ∧
      v'.holeSpans = v.holeSpans ∧ v'.dropped = v.dropped ∧ SplitOutcome drivers v v' := by
  rcases h.findRange drivers base with
    hfind | ⟨p, range, driver, hfind, hp, hrange, -, -, hdriver⟩
  · exact ⟨v, none, by simp [split, hfind], h, ⟨rfl, rfl⟩, rfl, rfl, .same rfl (.inl rfl)⟩
  · by_cases hmdl : range.mdlCount ≠ 0
    · exact ⟨v, none, by simp [split, hfind, hrange, hmdl], h, ⟨rfl, rfl⟩, rfl, rfl,
        .same rfl (.inl rfl)⟩
    obtain ⟨result, env, hsplit⟩ : ∃ result env, driver.split v.env range
      (add64 offset (sub64 base (add64 range.base range.offset))) = (result, env) := ⟨_, _, rfl⟩
    have hwf : Wf image { v with env := env } [] := h.congr env h.holeMeta h.rangeMeta
    have hmem : range ∈ v.rangeList := mem_map.mpr ⟨p, hp, hrange⟩
    have henv : ∃ range driver offset, range ∈ v.rangeList ∧
        drivers.getDriver range.flags = some driver ∧
        env = (driver.split v.env range offset).2 :=
      ⟨range, driver, _, hmem, hdriver, by rw [hsplit]⟩
    by_cases hsucc : result.success = true
    swap
    · refine ⟨_, none, ?_, hwf, ⟨rfl, rfl⟩, rfl, rfl, .same rfl (.inr henv)⟩
      simp [split, hfind, hrange, hmdl, hdriver, hsplit, hsucc]
    by_cases hnoop : result.offset = range.length
    · refine ⟨_, some (add64 range.base (add64 offset (sub64 base
        (add64 range.base range.offset)))), ?_, hwf, ⟨rfl, rfl⟩, rfl, rfl,
        .same rfl (.inr henv)⟩
      simp [split, hfind, hrange, hmdl, hdriver, hsplit, hsucc, hnoop]
    have hle : result.offset ≤ range.length := by
      have hle := driver.split_le v.env range (add64 offset (sub64 base
        (add64 range.base range.offset)))
      rw [hsplit] at hle
      exact hle hsucc
    obtain ⟨hlo, hhi⟩ := h.inside_range hp hrange
    have hlt := h.upper_lt
    simp only [VmRange.span] at hlo hhi
    have hbase : add64 range.base result.offset = range.base + result.offset := add64_eq (by omega)
    have hhigh : sub64 range.length result.offset = range.length - result.offset :=
      sub64_eq (by omega) hle
    have hlow : sub64 (range.base + result.offset) range.base = result.offset := by
      rw [sub64_eq (by omega) (by omega)]
      omega
    obtain ⟨v', h1, hwf', hholes, hbounds, hdropped, henv', rest, hold, hnew⟩ :=
      cutRange_spec result.tokenLow result.tokenHigh
        { env with stats := env.stats.countRange range.flags (add64 · 1) } h hp hrange hle
        (m.pick_notMem v.rangeMeta)
    simp only [setRange] at h1
    refine ⟨v', some (sub64 result.offset range.offset), ?_, hwf', hbounds, hholes, hdropped,
      .cut range driver _ result env rest hdriver hsplit hsucc hold hnew henv'⟩
    simp only [split, hfind, hrange, hmdl, hdriver, hsplit, hsucc, hnoop, hbase, hlow, hhigh,
      bind_eq_bind, bind_some, if_false, Bool.not_true, Bool.false_eq_true,
      Option.pure_def, setRange]
    rw [h1]
    rfl

end Vmm

end Northport.Memory
