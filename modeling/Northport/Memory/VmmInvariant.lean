/-
# The address space invariant of the VMM

At every moment each address between the bounds is in exactly one place: in a hole, in a
range, among the dropped spans, or in a span that an operation holds in its hands.
`Wf image v l` states this for a state `v` in the middle of an operation that holds the
spans `l`; between two operations `l` is empty.  The spans `image` are those of the ranges
that a constructor enters without taking them out of the holes; their addresses are in one
place more.  There are none in a user's address space.
-/
import Northport.Memory.Vmm

namespace Northport.Memory

open Lib Lib.Shape Lib.Links Northport.RBTree List Option

def VmHole.span (hole : VmHole) : Span := ⟨hole.base, hole.length⟩

def VmRange.span (range : VmRange) : Span := ⟨range.base, range.length⟩

namespace Vmm

variable {P σ : Type} [DecidableEq P]

/-- The spans of the holes. -/
def holeSpans (v : Vmm P σ) : List Span := v.holes.live.map fun p => (v.holes.tree.item p).span

/-- The spans of the ranges. -/
def rangeSpans (v : Vmm P σ) : List Span := v.ranges.live.map fun p => (v.ranges.tree.item p).span

/-- The ranges. -/
def rangeList (v : Vmm P σ) : List VmRange := v.ranges.live.map v.ranges.tree.item

omit [DecidableEq P] in
lemma rangeSpans_eq (v : Vmm P σ) : v.rangeSpans = v.rangeList.map VmRange.span := by
  rw [rangeList, List.map_map]
  rfl

/-- The range tree has no aggregate. -/
abbrev rangeLaws : AggLaws (nullAggregate VmRange) VmRange Unit := nullLaws VmRange

/-- **The invariant** in the middle of an operation that holds the spans `l`, over the
spans `image`. -/
structure Wf (image : List Span) (v : Vmm P σ) (l : List Span) : Prop where
  holes : v.holes.Inv vmHoleLaws Prod.fst
  ranges : v.ranges.Inv rangeLaws VmRange.base
  holeMeta : ∀ p ∈ v.holes.live, p ∈ v.holeMeta
  rangeMeta : ∀ p ∈ v.ranges.live, p ∈ v.rangeMeta
  typed : ∀ p ∈ v.ranges.live, (v.ranges.tree.item p).flags.typed = true
  lower_pos : 0 < v.globalLowerBound
  upper_lt : v.globalUpperBound < wordSize
  inside : ∀ s ∈ l ++ v.holeSpans ++ v.rangeSpans,
    s.Inside v.globalLowerBound v.globalUpperBound
  tiles : TilesOver image v.globalLowerBound v.globalUpperBound
    (l ++ v.holeSpans ++ v.rangeSpans ++ v.dropped)

/-- What an operation on the holes leaves alone. -/
structure SameRanges (v v' : Vmm P σ) : Prop where
  ranges : v'.ranges = v.ranges
  rangeMeta : v'.rangeMeta = v.rangeMeta
  lower : v'.globalLowerBound = v.globalLowerBound
  upper : v'.globalUpperBound = v.globalUpperBound
  env : v'.env = v.env
  dropped : v'.dropped = v.dropped

variable {m : MetaAlloc P} {v v' v'' : Vmm P σ} {image l : List Span} {l' after before : List Span}
  {b n : ℕ} {p : P}

omit [DecidableEq P] in
lemma SameRanges.eq (h : SameRanges v v') :
    v' = { v with holes := v'.holes, holeMeta := v'.holeMeta } := by
  obtain ⟨h1, h2, h3, h4, h5, h6⟩ := h
  rw [← h1, ← h2, ← h3, ← h4, ← h5, ← h6]

omit [DecidableEq P] in
lemma SameRanges.rangeList (h : SameRanges v v') : v'.rangeList = v.rangeList := by
  rw [Vmm.rangeList, Vmm.rangeList, h.ranges]

/-- Only what the invariant does not speak of has changed. -/
lemma Wf.congr {holeMeta rangeMeta : List P} (h : Wf image v l) (env : VmEnv σ)
    (hhmeta : ∀ p ∈ v.holes.live, p ∈ holeMeta) (hrmeta : ∀ p ∈ v.ranges.live, p ∈ rangeMeta) :
    Wf image { v with holeMeta := holeMeta, rangeMeta := rangeMeta, env := env } l :=
  { h with holeMeta := hhmeta, rangeMeta := hrmeta }

/-- The holes of `v'` and the spans `l'` are those of `v` and `l`, cut differently. -/
lemma Wf.recut (h : Wf image v l) (hsame : SameRanges v v')
    (hinv : v'.holes.Inv vmHoleLaws Prod.fst) (hmeta : ∀ p ∈ v'.holes.live, p ∈ v'.holeMeta)
    (hinside : ∀ s ∈ l' ++ v'.holeSpans, s.Inside v.globalLowerBound v.globalUpperBound)
    (hcover : ∀ a, cover (l' ++ v'.holeSpans) a = cover (l ++ v.holeSpans) a) : Wf image v' l' := by
  rw [hsame.eq]
  refine { h with holes := hinv, holeMeta := hmeta, inside := ?_, tiles := ?_ }
  · exact forall_mem_append.mpr ⟨hinside, fun s hs => h.inside s (mem_append_right _ hs)⟩
  · refine h.tiles.congr fun a => ?_
    have hcov := hcover a
    simp only [cover_append] at hcov ⊢
    exact congrArg (· + _ + _) hcov

/-! ### Holes -/

/-- The tree after the insertion of a hole. -/
lemma insertHole_tree (x : ℕ) (h : v.holes.Inv vmHoleLaws Prod.fst)
    (hmeta : ∀ p ∈ v.holes.live, p ∈ v.holeMeta) :
    ∃ v', v.insertHole m b n x = some v' ∧ SameRanges v v' ∧ v'.holes.Inv vmHoleLaws Prod.fst ∧
      (∀ p ∈ v'.holes.live, p ∈ v'.holeMeta) ∧
      v'.holes.live = m.pick v.holeMeta :: v.holes.live ∧ v'.holeSpans = ⟨b, n⟩ :: v.holeSpans := by
  have hfresh : m.pick v.holeMeta ∉ v.holes.live := fun hp => m.pick_notMem _ (hmeta _ hp)
  obtain ⟨holes, h1, hinv, hlive, hcore, hother⟩ :=
    LiveTree.insert_spec vmHoleLess_eq ⟨b, n, x⟩ h hfresh
  have hspan : ∀ {a b : VmHole}, vmHoleLaws.core a = vmHoleLaws.core b → a.span = b.span :=
    fun h => by rw [VmHole.span, VmHole.span, base_eq_of_core h, length_eq_of_core h]
  refine ⟨{ v with holes := holes, holeMeta := m.pick v.holeMeta :: v.holeMeta },
    by simp [insertHole, h1], ⟨rfl, rfl, rfl, rfl, rfl, rfl⟩, hinv, ?_, hlive, ?_⟩
  · rw [hlive]
    exact forall_mem_cons.mpr ⟨mem_cons_self, fun p hp => mem_cons_of_mem _ (hmeta p hp)⟩
  · rw [holeSpans, holeSpans]
    simp only [hlive, map_cons]
    congr 1
    · exact hspan hcore
    · exact map_congr_left fun p hp => hspan (hother p fun heq => hfresh (heq ▸ hp))

/-- A span in hand becomes a hole. -/
lemma insertHole_spec (x : ℕ) (h : Wf image v (⟨b, n⟩ :: l)) :
    ∃ v', v.insertHole m b n x = some v' ∧ Wf image v' l ∧ SameRanges v v' ∧
      v'.holeSpans = ⟨b, n⟩ :: v.holeSpans := by
  obtain ⟨v', h1, hsame, hinv, hmeta, -, hspans⟩ := insertHole_tree (m := m) x h.holes h.holeMeta
  refine ⟨v', h1, h.recut hsame hinv hmeta ?_ ?_, hsame, hspans⟩
  · intro s hs
    rw [hspans] at hs
    refine h.inside s ?_
    simp only [mem_append, mem_cons] at hs ⊢
    tauto
  · intro a
    rw [hspans]
    simp only [cover_append, cover_cons]
    omega

/-- Of the spans `before`, one that starts at `b` has lost its first `n` addresses. -/
def Cut (before after : List Span) (b n : ℕ) : Prop :=
  ∃ k rest, n ≤ k ∧ before.Perm (⟨b, k⟩ :: rest) ∧
    after.Perm ((if n < k then [⟨b + n, k - n⟩] else []) ++ rest)

lemma Cut.cover_eq (h : Cut before after b n) (a : ℕ) :
    cover (⟨b, n⟩ :: after) a = cover before a := by
  obtain ⟨k, rest, hnk, hbefore, hafter⟩ := h
  rw [cover_perm hbefore, cover_cons, cover_perm hafter, cover_append]
  by_cases hlt : n < k
  · have hsplit := cover_split b n (k - n) [] a
    rw [Nat.add_sub_cancel' hnk] at hsplit
    rw [if_pos hlt]
    simp only [cover_cons, cover_nil] at hsplit ⊢
    omega
  · rw [if_neg hlt, cover_nil, cover_cons, zero_add, hnk.antisymm (not_lt.mp hlt)]

lemma Cut.inside {lo hi : ℕ} (h : Cut before after b n) (hinside : ∀ s ∈ before, s.Inside lo hi) :
    ∀ s ∈ ⟨b, n⟩ :: after, s.Inside lo hi := by
  obtain ⟨k, rest, hnk, hbefore, hafter⟩ := h
  obtain ⟨hlo, hhi⟩ := hinside ⟨b, k⟩ (hbefore.mem_iff.mpr mem_cons_self)
  simp only at hlo hhi
  intro s hs
  rcases mem_cons.mp hs with rfl | hs
  · exact ⟨hlo, by simp only; omega⟩
  · rcases mem_append.mp (hafter.mem_iff.mp hs) with hs | hs
    · split_ifs at hs
      · obtain rfl := mem_singleton.mp hs
        exact ⟨by simp only; omega, by simp only; omega⟩
      · cases hs
    · exact hinside s (hbefore.mem_iff.mpr (mem_cons_of_mem _ hs))

/-- `AdjustHole` cuts a chunk of `n` addresses off the start of a hole. -/
lemma adjustHole_tree (h : v.holes.Inv vmHoleLaws Prod.fst)
    (hmeta : ∀ p ∈ v.holes.live, p ∈ v.holeMeta) (hp : p ∈ v.holes.live)
    (hn : n ≤ (v.holes.tree.item p).length)
    (hend : (v.holes.tree.item p).base + (v.holes.tree.item p).length ≤ wordSize)
    (hlt : (v.holes.tree.item p).length < wordSize) :
    ∃ v', v.adjustHole m p 0 n = some v' ∧ SameRanges v v' ∧
      v'.holes.Inv vmHoleLaws Prod.fst ∧ (∀ p ∈ v'.holes.live, p ∈ v'.holeMeta) ∧
      p ∉ v'.holes.live ∧ Cut v.holeSpans v'.holeSpans (v.holes.tree.item p).base n := by
  obtain ⟨holes, h1, hinv, hlive, hcore⟩ := LiveTree.remove_spec h hp
  have hbase : (holes.tree.item p).base = (v.holes.tree.item p).base := base_eq_of_core (hcore p)
  have hlength : (holes.tree.item p).length = (v.holes.tree.item p).length :=
    length_eq_of_core (hcore p)
  have hperm : v.holeSpans.Perm ((v.holes.tree.item p).span ::
      ({ v with holes := holes } : Vmm P σ).holeSpans) := by
    have hmap : ({ v with holes := holes } : Vmm P σ).holeSpans =
        (v.holes.live.erase p).map fun q => (v.holes.tree.item q).span := by
      simp only [holeSpans, hlive]
      refine map_congr_left fun q _ => ?_
      rw [VmHole.span, VmHole.span, base_eq_of_core (hcore q), length_eq_of_core (hcore q)]
    rw [hmap]
    exact (perm_cons_erase hp).map _
  have hmeta' : ∀ q ∈ holes.live, q ∈ v.holeMeta := fun q hq =>
    hmeta q (mem_of_mem_erase (hlive ▸ hq))
  have hpdead : p ∉ holes.live := hlive ▸ List.Nodup.not_mem_erase h.nodup
  have hadd : add64 0 n = n := (add64_eq (by omega)).trans (zero_add n)
  by_cases hrest : n < (v.holes.tree.item p).length
  · -- the rest of the hole is inserted again
    obtain ⟨v', h2, hsame, hinv', hmeta', hlive', hspans⟩ := insertHole_tree (m := m)
      (v := { v with holes := holes }) (b := (v.holes.tree.item p).base + n)
      (n := (v.holes.tree.item p).length - n) 0 hinv hmeta'
    refine ⟨v', ?_, ⟨hsame.ranges, hsame.rangeMeta, hsame.lower, hsame.upper, hsame.env,
      hsame.dropped⟩, hinv', hmeta', ?_, _, _, hn, hperm, ?_⟩
    · have hb : add64 (add64 (holes.tree.item p).base 0) n = (v.holes.tree.item p).base + n := by
        rw [hbase, add64_eq (show (v.holes.tree.item p).base + 0 < wordSize by omega), add_zero,
          add64_eq (by omega)]
      have hl : sub64 (holes.tree.item p).length n = (v.holes.tree.item p).length - n := by
        rw [hlength, sub64_eq (by omega) (by omega)]
      simp only [adjustHole, hadd, hn, if_true, h1, bind_eq_bind, bind_some,
        gt_iff_lt, lt_irrefl, if_false, Option.pure_def, hlength, hrest, hb]
      rw [← hlength, hl]
      exact h2
    · rw [hlive', mem_cons, not_or]
      exact ⟨fun hpq => m.pick_notMem _ (hpq ▸ hmeta p hp), hpdead⟩
    · rw [hspans, if_pos hrest]
      exact List.Perm.refl _
  · -- the whole hole is used
    refine ⟨{ v with holes := holes }, ?_, ⟨rfl, rfl, rfl, rfl, rfl, rfl⟩, hinv, hmeta', hpdead,
      _, _, hn, hperm, ?_⟩
    · simp only [adjustHole, hadd, hn, if_true, h1, bind_eq_bind, bind_some,
        gt_iff_lt, lt_irrefl, if_false, Option.pure_def, hlength, hrest]
    · rw [if_neg hrest]
      exact List.Perm.refl _

lemma adjustHole_spec (h : Wf image v l) (hp : p ∈ v.holes.live)
    (hn : n ≤ (v.holes.tree.item p).length) :
    ∃ v', v.adjustHole m p 0 n = some v' ∧ Wf image v' (⟨(v.holes.tree.item p).base, n⟩ :: l) ∧
      SameRanges v v' ∧ p ∉ v'.holes.live ∧
      Cut v.holeSpans v'.holeSpans (v.holes.tree.item p).base n := by
  have hholes : ∀ s ∈ v.holeSpans, s.Inside v.globalLowerBound v.globalUpperBound := fun s hs =>
    h.inside s (mem_append_left _ (mem_append_right _ hs))
  obtain ⟨hlo, hhi⟩ := hholes (v.holes.tree.item p).span (mem_map.mpr ⟨p, hp, rfl⟩)
  have hlt := h.upper_lt
  simp only [VmHole.span] at hlo hhi
  obtain ⟨v', h1, hsame, hinv, hmeta, hdead, hcut⟩ := adjustHole_tree (m := m) h.holes h.holeMeta hp
    hn (by omega) (by omega)
  refine ⟨v', h1, h.recut hsame hinv hmeta (fun s hs => ?_) (fun a => ?_), hsame, hdead, hcut⟩
  · have hinside := hcut.inside hholes s
    simp only [cons_append, mem_cons, mem_append] at hs hinside
    rcases hs with hs | hs | hs
    · exact hinside (.inl hs)
    · exact h.inside s (by simp [hs])
    · exact hinside (.inr hs)
  · have hcover := hcut.cover_eq a
    simp only [cons_append, cover_append, cover_cons] at hcover ⊢
    omega

/-! ### Ranges -/

/-- The ranges `rs'` and the spans `l'` are in the place of the ranges `rs` and the spans `l`. -/
lemma Wf.recutRanges {ranges : LiveTree P VmRange} {dropped : List Span} {rest : List VmRange}
    (rs rs' : List VmRange) (h : Wf image v l) (hinv : ranges.Inv rangeLaws VmRange.base)
    (hmeta : ∀ p ∈ ranges.live, p ∈ v.rangeMeta) (hold : v.rangeList.Perm (rs ++ rest))
    (hnew : (ranges.live.map ranges.tree.item).Perm (rs' ++ rest))
    (htyped : ∀ r ∈ rs', r.flags.typed = true)
    (hinside : ∀ s ∈ l' ++ rs'.map VmRange.span, s.Inside v.globalLowerBound v.globalUpperBound)
    (hcover : ∀ a, cover (l' ++ rs'.map VmRange.span ++ dropped) a =
      cover (l ++ rs.map VmRange.span ++ v.dropped) a) :
    Wf image { v with ranges := ranges, dropped := dropped } l' := by
  have hspans : ({ v with ranges := ranges, dropped := dropped } : Vmm P σ).rangeSpans.Perm
      (rs'.map VmRange.span ++ rest.map VmRange.span) := by
    rw [rangeSpans_eq, ← map_append]
    exact hnew.map _
  have hspans' : v.rangeSpans.Perm (rs.map VmRange.span ++ rest.map VmRange.span) := by
    rw [rangeSpans_eq, ← map_append]
    exact hold.map _
  have htypes : ∀ r ∈ ranges.live.map ranges.tree.item, r.flags.typed = true := by
    intro r hr
    rcases mem_append.mp (hnew.mem_iff.mp hr) with hr | hr
    · exact htyped r hr
    · obtain ⟨p, hp, rfl⟩ := mem_map.mp (hold.mem_iff.mpr (mem_append_right _ hr))
      exact h.typed p hp
  refine { h with ranges := hinv, rangeMeta := hmeta, typed := forall_mem_map.mp htypes,
                  inside := fun s hs => ?_, tiles := h.tiles.congr fun a => ?_ }
  · have hold := h.inside s
    simp only [mem_append, hspans.mem_iff, hspans'.mem_iff] at hs hinside hold
    rcases hs with (hs | hs) | hs | hs
    · exact hinside s (.inl hs)
    · exact hold (.inl (.inr hs))
    · exact hinside s (.inr hs)
    · exact hold (.inr (.inr hs))
  · have hcov := hcover a
    simp only [cover_append, cover_perm hspans a, cover_perm hspans' a] at hcov ⊢
    show _ + cover v.holeSpans a + _ + _ = _
    omega

lemma vmRangeLess_eq (a b : VmRange) : VmRangeLess a b =
    decide ((rangeLaws.core a).base < (rangeLaws.core b).base) := rfl

/-- A span in hand becomes a range. -/
lemma insertRange_spec {range : VmRange} (h : Wf image v (range.span :: l)) (hp : p ∈ v.rangeMeta)
    (hdead : p ∉ v.ranges.live) (htyped : range.flags.typed = true) :
    ∃ ranges, v.insertRange p range = some { v with ranges := ranges } ∧
      Wf image { v with ranges := ranges } l ∧ ranges.live = p :: v.ranges.live ∧
      ({ v with ranges := ranges } : Vmm P σ).rangeList = range :: v.rangeList := by
  obtain ⟨ranges, h1, hinv, hlive, hitem, hother⟩ :=
    LiveTree.insert_spec vmRangeLess_eq range h.ranges hdead
  have hlist : ranges.live.map ranges.tree.item = range :: v.rangeList := by
    rw [hlive]
    exact congrArg₂ _ hitem (map_congr_left fun q hq => hother q fun h => hdead (h ▸ hq))
  refine ⟨ranges, by simp [insertRange, h1], ?_, hlive, hlist⟩
  refine h.recutRanges [] [range] hinv ?_ (Perm.refl _) (.of_eq hlist)
    (by simpa using htyped) (fun s hs => h.inside s ?_) fun a => ?_
  · rw [hlive]
    exact forall_mem_cons.mpr ⟨hp, h.rangeMeta⟩
  · simp only [map_cons, map_nil, mem_append, mem_cons] at hs ⊢
    tauto
  · simp only [map_cons, map_nil, cover_append, cover_cons, cover_nil]
    omega

/-- A range is taken out of the tree. -/
lemma removeRange_spec (h : Wf image v l) (hp : p ∈ v.ranges.live) :
    ∃ ranges, v.ranges.remove (nullAggregate VmRange) p = some ranges ∧
      Wf image { v with ranges := ranges } ((v.ranges.tree.item p).span :: l) ∧
      ranges.live = v.ranges.live.erase p ∧ (∀ q, ranges.tree.item q = v.ranges.tree.item q) ∧
      v.rangeList.Perm (v.ranges.tree.item p ::
        ({ v with ranges := ranges } : Vmm P σ).rangeList) := by
  obtain ⟨ranges, h1, hinv, hlive, hcore⟩ := LiveTree.remove_spec h.ranges hp
  have hlist : v.rangeList.Perm (v.ranges.tree.item p :: ranges.live.map ranges.tree.item) := by
    rw [hlive, show ranges.tree.item = v.ranges.tree.item from funext hcore]
    exact (perm_cons_erase hp).map _
  refine ⟨ranges, h1, ?_, hlive, hcore, hlist⟩
  refine h.recutRanges [v.ranges.tree.item p] [] hinv (fun q hq => ?_) hlist
    (Perm.refl _) nofun (fun s hs => ?_) fun a => ?_
  · exact h.rangeMeta q (mem_of_mem_erase (hlive ▸ hq))
  · rw [map_nil, append_nil] at hs
    rcases mem_cons.mp hs with rfl | hs
    · exact h.inside _ (mem_append_right _ (mem_map.mpr ⟨p, hp, rfl⟩))
    · exact h.inside s (mem_append_left _ (mem_append_left _ hs))
  · simp only [map_cons, map_nil, cover_append, cover_cons, cover_nil]
    omega

/-- A range is overwritten in place: its base stays, and what it loses is held in `l'`. -/
lemma setRange_spec (range : VmRange) (l' : List Span) (h : Wf image v l) (hp : p ∈ v.ranges.live)
    (hbase : range.base = (v.ranges.tree.item p).base) (htyped : range.flags.typed = true)
    (hinside : ∀ s ∈ range.span :: l', s.Inside v.globalLowerBound v.globalUpperBound)
    (hcover : ∀ a, cover (range.span :: l') a = cover ((v.ranges.tree.item p).span :: l) a) :
    Wf image (v.setRange p range) l' ∧ ∃ rest, v.rangeList.Perm (v.ranges.tree.item p :: rest) ∧
      (v.setRange p range).rangeList.Perm (range :: rest) := by
  have hperm := perm_cons_erase hp
  have hnew : (v.setRange p range).rangeList.Perm (range ::
      (v.ranges.live.erase p).map v.ranges.tree.item) := by
    refine (hperm.map _).trans (.of_eq ?_)
    refine congrArg₂ _ (by simp [setRange]) (map_congr_left fun q hq => ?_)
    have hne : q ≠ p := fun h' => h.ranges.nodup.not_mem_erase (h' ▸ hq)
    simp [setRange, hne]
  refine ⟨?_, _, hperm.map _, hnew⟩
  refine h.recutRanges [v.ranges.tree.item p] [range] (h.ranges.setItem hbase) h.rangeMeta
    (hperm.map _) hnew (by simpa using htyped) (fun s hs => hinside s ?_) fun a => ?_
  · simp only [map_cons, map_nil, mem_append, mem_cons] at hs ⊢
    tauto
  · have hcov := hcover a
    simp only [map_cons, map_nil, cover_append, cover_cons, cover_nil] at hcov ⊢
    omega

end Vmm

end Northport.Memory
