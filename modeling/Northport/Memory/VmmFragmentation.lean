/-
# Fragmentation of the address space

`Free` puts the span of a range back among the holes as a hole of its own, and so does
`Alloc` when the driver does not attach; neighbouring holes are never merged.  So whether an
allocation succeeds depends on how the free addresses happen to be cut into holes.  It
succeeds whenever it could in every state that is reached by returning only spans that touch
no hole.
-/
import Northport.Memory.UserVmm

namespace Northport.Memory

open Lib Northport.RBTree List

namespace Vmm

variable {P σ : Type} [DecidableEq P]

/-- The address belongs to no range and was not dropped. -/
def IsFree (v : Vmm P σ) (a : ℕ) : Prop :=
  (v.globalLowerBound ≤ a ∧ a < v.globalUpperBound) ∧
    ∀ s ∈ v.rangeSpans ++ v.dropped, ¬ s.Contains a

/-- A run of free addresses. -/
def FreeRun (v : Vmm P σ) (b n : ℕ) : Prop := ∀ a, b ≤ a → a < b + n → v.IsFree a

/-- An allocation whose `Query` and `Attach` succeed, and whose alignment `Alloc` does not refuse;
`n` is what `Query` asks for. -/
structure Willing (drivers : VmDrivers σ) (v : Vmm P σ) (length initArg : ℕ) (flags : VmFlags)
    (limits : VmAllocLimits) (n : ℕ) : Prop where
  length_ne : length ≠ 0
  query : ∃ driver query env, drivers.getDriver flags = some driver ∧
    driver.query v.env length flags initArg = (query, env) ∧ query.success = true ∧
    ¬ (limits.alignment > 1 ∧ query.alignment % limits.alignment ≠ 0) ∧ query.length = n ∧
    ∀ b, (driver.attach env ⟨b, n, flags, 0, 0, 0⟩ query initArg).1.success = true

/-- **Completeness of `Alloc`** in a state: a willing allocation of at least one byte returns
an address exactly when the free addresses contain a run that is long enough. -/
def AllocComplete (m : MetaAlloc P) (v : Vmm P σ) : Prop :=
  ∀ drivers length initArg flags limits n,
    Willing drivers v length initArg flags limits n → 0 < n →
      ((∃ v' r, v.alloc m drivers length initArg flags limits = some (v', some r)) ↔
        ∃ b, v.FreeRun b n)

/-- The call returns no span that touches a hole: `Free` does not name a range next to a
hole, and `Attach` does not fail, unless every hole that fits is used up. -/
def ReturnsApart (v : Vmm P σ) : VmmOp σ → Prop
  | .alloc drivers length initArg flags _ => ∀ driver query env b,
      drivers.getDriver flags = some driver →
      driver.query v.env length flags initArg = (query, env) →
      (driver.attach env ⟨b, query.length, flags, 0, 0, 0⟩ query initArg).1.success = true ∨
        ∀ s ∈ v.holeSpans, query.length ≤ s.length → s.length = query.length
  | .free _ base => ∀ s ∈ v.rangeSpans, s.Contains base → ∀ t ∈ v.holeSpans, ¬ s.Touches t
  | .setFlags _ _ _ => True
  | .split _ _ _ => True

variable {m : MetaAlloc P} {v : Vmm P σ} {drivers : VmDrivers σ} {flags : VmFlags}
  {limits : VmAllocLimits}

/-- The free addresses are those of the holes. -/
lemma Wf.isFree_iff (h : Wf [] v []) (a : ℕ) : v.IsFree a ↔ ∃ s ∈ v.holeSpans, s.Contains a := by
  have hcount := tilesOver_nil.mp h.tiles a
  have hout : (∀ s ∈ v.rangeSpans ++ v.dropped, ¬ s.Contains a) ↔
      cover (v.rangeSpans ++ v.dropped) a = 0 := by
    have hpos := cover_pos (l := v.rangeSpans ++ v.dropped) (a := a)
    constructor
    · intro hno
      by_contra hne
      obtain ⟨s, hs, hsa⟩ := hpos.mp (Nat.pos_of_ne_zero hne)
      exact hno s hs hsa
    · intro hzero s hs hsa
      have hgt := hpos.mpr ⟨s, hs, hsa⟩
      omega
  rw [IsFree, hout, ← cover_pos]
  simp only [nil_append, cover_append] at hcount ⊢
  split_ifs at hcount with hb
  · exact ⟨fun _ => by omega, fun _ => ⟨hb, by omega⟩⟩
  · exact ⟨fun hfree => absurd hfree.1 hb, fun _ => by omega⟩

lemma Wf.holes_cover_le (h : Wf [] v []) (a : ℕ) : cover v.holeSpans a ≤ 1 := by
  have hone := cover_le_one (tilesOver_nil.mp h.tiles) a
  simp only [nil_append, cover_append] at hone
  omega

/-- **`Alloc` takes any hole that is large enough**, whatever lies beside it. -/
lemma alloc_isSome_iff {length initArg n : ℕ} (h : Wf [] v [])
    (hw : Willing drivers v length initArg flags limits n) :
    (∃ v' r, v.alloc m drivers length initArg flags limits = some (v', some r)) ↔
      ∃ s ∈ v.holeSpans, n ≤ s.length := by
  obtain ⟨driver, query, env, hdriver, hquery, hsucc, halign, rfl, hattach⟩ := hw.query
  obtain ⟨v', r, hrun, -, -, -, hout⟩ := alloc_spec (m := m) drivers length initArg flags limits h
  have hlen : (driver.query v.env length flags initArg).1.length = query.length := by rw [hquery]
  cases hout with
  | refused _ _ _ why =>
    have hsmall := why driver hw.length_ne hdriver (by rw [hquery]; exact hsucc)
      (by rw [hquery]; exact halign)
    constructor
    · rintro ⟨v'', r, hr⟩
      simp [hrun] at hr
    · rintro ⟨s, hs, hle⟩
      have hlt := hsmall s hs
      omega
  | attached driver' query' result b env1 env2 _ hdriver' hquery' _ _ _ holes _ _ =>
    cases hdriver.symm.trans hdriver'
    obtain ⟨rfl, rfl⟩ := Prod.mk.inj (hquery.symm.trans hquery')
    obtain ⟨k, rest, hk, hbefore, -⟩ := holes
    exact ⟨fun _ => ⟨⟨b, k⟩, hbefore.mem_iff.mpr mem_cons_self, hk⟩, fun _ => ⟨v', _, hrun⟩⟩
  | returned driver' query' result b env1 env2 rest _ hdriver' hquery' _ hattach' failed _ _ _ _ =>
    cases hdriver.symm.trans hdriver'
    obtain ⟨rfl, rfl⟩ := Prod.mk.inj (hquery.symm.trans hquery')
    have hs := hattach b
    rw [hattach', failed] at hs
    cases hs

/-- `Alloc` is complete exactly when the longest hole is as long as any run of free
addresses. -/
lemma allocComplete_iff (h : Wf [] v []) : AllocComplete m v ↔
    ∀ b n, 0 < n → v.FreeRun b n → ∃ s ∈ v.holeSpans, n ≤ s.length := by
  constructor
  · intro hall b n hn hrun
    have hw : Willing ⟨plainDriver n, plainDriver n, plainDriver n⟩ v 1 0 (1#64 <<< 24) {} n :=
      ⟨by decide, plainDriver n, { length := n, success := true }, v.env, rfl, rfl, rfl,
        fun hand => absurd hand.1 (by decide), rfl, fun _ => rfl⟩
    exact (alloc_isSome_iff h hw).mp ((hall _ _ _ _ _ n hw hn).mpr ⟨b, hrun⟩)
  · intro hlong drivers length initArg flags limits n hw hn
    rw [alloc_isSome_iff h hw]
    constructor
    · rintro ⟨s, hs, hle⟩
      exact ⟨s.base, fun a hlo hhi => (h.isFree_iff a).mpr ⟨s, hs, hlo, by omega⟩⟩
    · rintro ⟨b, hrun⟩
      exact hlong b n hn hrun

/-! ### Histories that return only spans apart -/

/-- What `AdjustHole` leaves of a hole touches nothing that the hole did not touch. -/
lemma Cut.apart {before after : List Span} {b n : ℕ} (h : Cut before after b n)
    (hone : ∀ a, cover before a ≤ 1) (hapart : Apart before) : Apart after := by
  obtain ⟨k, rest, hnk, hbefore, hafter⟩ := h
  have hrest : ∀ t ∈ rest, t ∈ before := fun t ht =>
    hbefore.mem_iff.mpr (mem_cons_of_mem _ ht)
  have hhole : (⟨b, k⟩ : Span) ∈ before := hbefore.mem_iff.mpr mem_cons_self
  refine Apart.perm ?_ hafter
  have hapart' : Apart rest := fun s hs t ht => hapart s (hrest s hs) t (hrest t ht)
  split_ifs with hlt
  · refine apart_cons hapart' ?_
    rintro t ht ⟨-, htpos, htouch⟩
    simp only at htouch
    have hno := hapart ⟨b, k⟩ hhole t (hrest t ht)
    have hkpos : 0 < k := by omega
    rcases htouch with htouch | htouch
    · exact hno ⟨hkpos, htpos, Or.inl (by simp only; omega)⟩
    · by_cases hn : n = 0
      · exact hno ⟨hkpos, htpos, Or.inr (by simp only; omega)⟩
      · -- the last address of `t` would be in the hole as well
        have hpos : 0 < cover rest (b + n - 1) := cover_pos.mpr ⟨t, ht, by omega, by omega⟩
        have hle := hone (b + n - 1)
        rw [cover_perm hbefore, cover_cons, if_pos ⟨by simp only; omega, by simp only; omega⟩] at hle
        omega
  · exact hapart'

/-- A call that returns only spans apart leaves no two holes that touch. -/
lemma step_apart (o : VmmOp σ) (h : Wf [] v []) (hapart : Apart v.holeSpans)
    (ho : v.ReturnsApart o) : ∃ v', v.step m o = some v' ∧ Wf [] v' [] ∧ Apart v'.holeSpans := by
  cases o with
  | alloc drivers length initArg flags limits =>
    obtain ⟨v', r, hrun, hwf, -, -, hout⟩ := alloc_spec (m := m) drivers length initArg flags limits h
    refine ⟨v', by rw [step, hrun]; rfl, hwf, ?_⟩
    cases hout with
    | refused holes _ _ _ =>
      rw [holes]
      exact hapart
    | attached _ _ _ _ _ _ _ _ _ _ _ _ holes _ _ => exact holes.apart h.holes_cover_le hapart
    | returned driver query result b env env' rest _ hdriver hquery _ hattach failed cut holes _ _ =>
      -- the hole was used up, so it is there again
      obtain ⟨k, rest', hk, hbefore, hafter⟩ := cut
      have hfull : k = query.length := by
        rcases ho driver query env b hdriver hquery with hsucc | hfull
        · rw [hattach, failed] at hsucc
          cases hsucc
        · exact hfull ⟨b, k⟩ (hbefore.mem_iff.mpr mem_cons_self) hk
      subst hfull
      rw [if_neg (lt_irrefl _)] at hafter
      rw [holes]
      exact hapart.perm ((hafter.cons _).trans hbefore.symm)
  | free drivers base =>
    obtain ⟨v', r, hrun, hwf, -, hout⟩ := free_spec (m := m) drivers base h
    refine ⟨v', by rw [step, hrun]; rfl, hwf, ?_⟩
    cases hout with
    | refused same _ =>
      rw [same]
      exact hapart
    | detached p range driver success env _ _ found _ _ before _ holes _ =>
      have hmem : range.span ∈ v.rangeSpans := by
        rw [rangeSpans_eq]
        exact mem_map_of_mem (before.mem_iff.mpr mem_cons_self)
      rw [holes]
      split_ifs
      · exact apart_cons hapart (ho range.span hmem found)
      · exact hapart
  | setFlags drivers base flags =>
    obtain ⟨v', r, hrun, hwf, -, holes, -⟩ := setFlags_spec drivers base flags h
    exact ⟨v', by rw [step, hrun]; rfl, hwf, by rw [holes]; exact hapart⟩
  | split drivers base offset =>
    obtain ⟨v', r, hrun, hwf, -, holes, -⟩ := split_spec (m := m) drivers base offset h
    exact ⟨v', by rw [step, hrun]; rfl, hwf, by rw [holes]; exact hapart⟩

/-- Where no two holes touch, a run of free addresses lies in one hole. -/
lemma allocComplete_of_apart (h : Wf [] v []) (hapart : Apart v.holeSpans) : AllocComplete m v := by
  rw [allocComplete_iff h]
  intro b n hn hrun
  obtain ⟨s, hs, hlo, hhi⟩ := hapart.exists_span h.holes_cover_le hn fun a hlo hhi =>
    (h.isFree_iff a).mp (hrun a hlo hhi)
  exact ⟨s, hs, by omega⟩

/-- **When `Alloc` finds the free space.**  In the state after any history it is complete
exactly when no run of free addresses is longer than the longest hole; and it is complete
after every history whose calls return only spans that touch no hole. -/
theorem alloc_complete_history (m : MetaAlloc P) (platform : Platform) (env : VmEnv σ)
    (rangeMem : P → VmRange) (holeMem : P → VmHole) (ops : List (VmmOp σ)) :
    ∃ v0 v, user m platform env rangeMem holeMem = some v0 ∧ run (step m) v0 ops = some v ∧
      (AllocComplete m v ↔
        ∀ b n, 0 < n → v.FreeRun b n → ∃ s ∈ v.holeSpans, n ≤ s.length) ∧
      (Allowed (step m) ReturnsApart v0 ops → AllocComplete m v) := by
  obtain ⟨v0, h0, hwf0, -, -, hspans0⟩ := user_spec (m := m) platform env rangeMem holeMem
  obtain ⟨v, hrun, hwf, -⟩ := run_spec (m := m) ops hwf0
  refine ⟨v0, v, h0, hrun, allocComplete_iff hwf, fun hops => ?_⟩
  have hapart0 : Apart v0.holeSpans := by
    obtain ⟨s, hs⟩ := length_eq_one_iff.mp hspans0
    rw [hs]
    exact apart_cons nofun nofun
  obtain ⟨v', hrun', hwf', hapart⟩ := run_invariant (fun v => Wf [] v [] ∧ Apart v.holeSpans)
    (fun v o hv ho => step_apart o hv.1 hv.2 ho) ⟨hwf0, hapart0⟩ hops
  cases hrun.symm.trans hrun'
  exact allocComplete_of_apart hwf hapart

/-- A willing allocation that fails next to a run of free addresses. -/
lemma not_allocComplete {length initArg n b : ℕ}
    (hw : Willing drivers v length initArg flags limits n) (hn : 0 < n) (hrun : v.FreeRun b n)
    (halloc : (v.alloc m drivers length initArg flags limits).map Prod.snd = some none) :
    ¬ AllocComplete m v := by
  intro hall
  obtain ⟨v', r, hr⟩ := (hall _ _ _ _ _ n hw hn).mpr ⟨b, hrun⟩
  rw [hr] at halloc
  cases halloc

/-- One page of anonymous memory is allocated and freed again.  The whole address space is
free then, but it lies in two holes, and a request for all but its last bytes fails. -/
theorem not_allocComplete_after_free :
    ∃ v, ((user MetaAlloc.counting Platform.x86 ⟨⟨0, 0, 0, 0, 0, 0, 0, 0, 0⟩, ()⟩
        (fun _ => ⟨0, 0, 0, 0, 0, 0⟩) fun _ => ⟨0, 0, 0⟩).bind fun v => run (step .counting) v
          [.alloc pageDrivers 0x1000 0 (1#64 <<< 24) {}, .free pageDrivers 0x1000]) = some v ∧
      v.rangeSpans = [] ∧ v.dropped = [] ∧
      v.holeSpans = [⟨0x1000, 0x1000⟩, ⟨0x2000, 0x7FFFFFFFCFFF⟩] ∧ ¬ AllocComplete .counting v := by
  have hw : ∀ v : Vmm ℕ Unit,
      Willing pageDrivers v 0x7FFFFFFFD000 0 (1#64 <<< 24) {} 0x7FFFFFFFD000 := fun v =>
    ⟨by decide, _, _, _, rfl, rfl, rfl, by decide, rfl, fun _ => rfl⟩
  refine ⟨_, rfl, rfl, rfl, rfl, not_allocComplete (b := 0x1000) (hw _) (by decide) ?_ rfl⟩
  intro a hlo hhi
  refine ⟨⟨hlo, lt_of_lt_of_le hhi ?_⟩, nofun⟩
  decide

end Vmm

end Northport.Memory
