/-
# Forward lists with links that are not written yet

A lock free list is extended in two moves: a node first becomes the last one, and only
later is the pointer of its predecessor written.  In between the list has a gap: the
predecessor points nowhere although it has a successor.  `gap a b` says that somebody is
still going to write the link from `a` to `b`.  A walk along the pointers comes as far as
the first gap.
-/
import Mathlib.Data.List.Infix
import Mathlib.Data.List.Nodup
import Mathlib.Logic.Relation
import Mathlib.Tactic

namespace Northport.Lib

open List Function

variable {α : Type*}

/-- Every node points at its successor, or points nowhere while the link is outstanding; the
last node points nowhere. -/
def GapChain (next : α → Option α) (gap : α → α → Prop) : List α → Prop
  | [] => True
  | a :: l => (next a = l.head? ∨ (next a = none ∧ ∃ b, l.head? = some b ∧ gap a b)) ∧
      GapChain next gap l

/-- The walk along the pointers leads from the first node to the second. -/
def Reaches (next : α → Option α) : α → α → Prop :=
  Relation.ReflTransGen fun a b => next a = some b

namespace GapChain

variable {next next' : α → Option α} {gap gap' : α → α → Prop} {l : List α} {a b : α}

/-- The pointers outside the list do not matter, and neither do further outstanding links. -/
lemma congr (h : GapChain next gap l) (hnext : ∀ q ∈ l, next' q = next q)
    (hgap : ∀ x ∈ l, ∀ y, gap x y → gap' x y) : GapChain next' gap' l := by
  induction l with
  | nil => exact trivial
  | cons x l ih =>
    refine ⟨?_, ih h.2 (fun q hq => hnext q (mem_cons_of_mem _ hq))
      fun q hq => hgap q (mem_cons_of_mem _ hq)⟩
    rw [hnext x mem_cons_self]
    rcases h.1 with hx | ⟨hx, y, hy, hxy⟩
    · exact .inl hx
    · exact .inr ⟨hx, y, hy, hgap x mem_cons_self y hxy⟩

/-- The last node points nowhere. -/
lemma next_last (h : GapChain next gap l) (ha : l.getLast? = some a) : next a = none := by
  obtain ⟨l, rfl⟩ := getLast?_eq_some_iff.mp ha
  clear ha
  induction l with
  | nil => exact h.1.elim id And.left
  | cons x l ih => exact ih h.2

/-- A pointer that is set leads to the successor. -/
lemma head_eq_of_next (h : GapChain next gap (a :: l)) (hab : next a = some b) :
    l.head? = some b := by
  rcases h.1 with ha | ⟨ha, -⟩
  · exact ha ▸ hab
  · rw [ha] at hab
    cases hab

/-- A node becomes the last one; the link to it is outstanding. -/
lemma concat (h : GapChain next gap l) (ha : l.getLast? = some a) (hb : next b = none)
    (hab : gap a b) : GapChain next gap (l ++ [b]) := by
  have hlast := h.next_last ha
  obtain ⟨l, rfl⟩ := getLast?_eq_some_iff.mp ha
  clear ha
  induction l with
  | nil => exact ⟨.inr ⟨hlast, b, rfl, hab⟩, .inl hb, trivial⟩
  | cons x l ih =>
    refine ⟨?_, ih h.2⟩
    cases l <;> exact h.1

/-- The walk along the pointers reaches every node that no outstanding link comes before. -/
lemma reaches {l₁ l₂ : List α} {t : α} (h : GapChain next gap (l₁ ++ a :: l₂))
    (ht : (l₁ ++ [a]).head? = some t) (hgap : ∀ x y, gap x y → y ∉ l₁ ++ [a]) :
    Reaches next t a := by
  induction l₁ generalizing t with
  | nil =>
    obtain rfl : a = t := by simpa using ht
    exact Relation.ReflTransGen.refl
  | cons x l₁ ih =>
    obtain rfl : x = t := by simpa using ht
    obtain ⟨y, hy⟩ : ∃ y, (l₁ ++ [a]).head? = some y := by cases l₁ <;> exact ⟨_, rfl⟩
    have hy' : (l₁ ++ a :: l₂).head? = some y := by cases l₁ <;> exact hy
    have hrest : Reaches next y a := ih h.2 hy fun u v huv hv => hgap u v huv (by simp_all)
    -- the first pointer is written, for its successor is among the nodes without a gap
    have hxy : next x = some y := by
      rcases h.1 with hx | ⟨-, z, hz, hxz⟩
      · exact hx.trans hy'
      · cases hy'.symm.trans hz
        exact absurd (mem_cons_of_mem _ (mem_of_mem_head? hy)) (hgap x y hxz)
    exact Relation.ReflTransGen.head hxy hrest

variable [DecidableEq α]

/-- An outstanding link is written. -/
lemma fill (h : GapChain next gap l) (hl : l.Nodup) (hab : [a, b] <:+: l)
    (hgap : ∀ x y, gap x y → x ≠ a → gap' x y) : GapChain (update next a (some b)) gap' l := by
  induction l with
  | nil => exact trivial
  | cons x l ih =>
    rw [nodup_cons] at hl
    rcases infix_cons_iff.mp hab with ⟨r, hr⟩ | hin
    · -- the link of the first node: the rest of the list does not contain it again
      obtain ⟨rfl, rfl⟩ := hr
      refine ⟨.inl (update_self ..), h.2.congr (fun q hq => ?_) fun q hq y hqy => ?_⟩
      · exact update_of_ne (fun hqa : q = a => hl.1 (hqa ▸ hq)) _ _
      · exact hgap q y hqy fun hqa => hl.1 (hqa ▸ hq)
    · have hxa : x ≠ a := fun hxa => hl.1 (hxa ▸ hin.subset mem_cons_self)
      refine ⟨?_, ih h.2 hl.2 hin⟩
      rw [update_of_ne hxa]
      rcases h.1 with hx | ⟨hx, y, hy, hxy⟩
      · exact .inl hx
      · exact .inr ⟨hx, y, hy, hgap x y hxy hxa⟩

end GapChain

/-- In a list without repetitions a node has one successor. -/
lemma infix_pair_unique {l : List α} {a b c : α} (hl : l.Nodup) (hb : [a, b] <:+: l)
    (hc : [a, c] <:+: l) : b = c := by
  obtain ⟨s, t, rfl⟩ := hb
  obtain ⟨s', t', heq⟩ := hc
  simp only [append_assoc, cons_append, nil_append] at hl heq
  obtain ⟨ha, -⟩ := nodup_cons.mp (nodup_middle.mp hl)
  rw [mem_append, not_or] at ha
  exact (cons.inj ((append_cons_inj_of_notMem ha.1 ha.2).mp heq.symm).2.2).1

/-- **A queue with gaps**: the nodes from `tail` to `head`, linked but for the outstanding
links, each of which is a gap of the chain. -/
structure GapQueue (next : α → Option α) (gap : α → α → Prop) (head tail : α) (q : List α) :
    Prop where
  nodup : q.Nodup
  head_eq : q.getLast? = some head
  tail_eq : q.head? = some tail
  chain : GapChain next gap q
  /-- An outstanding link joins two neighbours and is not written yet. -/
  gap_open : ∀ a b, gap a b → [a, b] <:+: q ∧ next a = none

namespace GapQueue

variable {next next' : α → Option α} {gap gap' : α → α → Prop} {head tail : α} {q : List α}
  {a b : α}

section

variable (h : GapQueue next gap head tail q)
include h

/-- Pointers of nodes outside the queue do not matter. -/
lemma congr (hnext : ∀ x ∈ q, next' x = next x)
    (hgap : ∀ x y, gap' x y ↔ gap x y) : GapQueue next' gap' head tail q where
  nodup := h.nodup
  head_eq := h.head_eq
  tail_eq := h.tail_eq
  chain := h.chain.congr hnext fun x _ y => (hgap x y).mpr
  gap_open := by
    intro x y hxy
    obtain ⟨hin, hx⟩ := h.gap_open x y ((hgap x y).mp hxy)
    exact ⟨hin, (hnext x (hin.subset mem_cons_self)).trans hx⟩

/-- A node becomes the last one; the link from the old last node is outstanding. -/
lemma exchange (hb : b ∉ q) (hnext : next b = none)
    (hgap : ∀ x y, gap' x y ↔ gap x y ∨ (x = head ∧ y = b)) :
    GapQueue next gap' b tail (q ++ [b]) where
  nodup := h.nodup.append (nodup_singleton b) (disjoint_singleton.mpr hb)
  head_eq := by simp
  tail_eq := by
    obtain ⟨l, rfl⟩ := head?_eq_some_iff.mp h.tail_eq
    rfl
  chain := by
    have hchain := h.chain.congr (fun _ _ => rfl) fun x _ y hxy => (hgap x y).mpr (.inl hxy)
    exact hchain.concat h.head_eq hnext ((hgap head b).mpr (.inr ⟨rfl, rfl⟩))
  gap_open := by
    intro x y hxy
    rcases (hgap x y).mp hxy with hxy | ⟨rfl, rfl⟩
    · exact ⟨(h.gap_open x y hxy).1.trans (prefix_append _ _).isInfix,
        (h.gap_open x y hxy).2⟩
    · obtain ⟨l, rfl⟩ := getLast?_eq_some_iff.mp h.head_eq
      refine ⟨⟨l, [], by simp⟩, h.chain.next_last h.head_eq⟩

/-- An outstanding link is written. -/
lemma link [DecidableEq α] (hab : gap a b)
    (hgap : ∀ x y, gap' x y ↔ gap x y ∧ ¬ (x = a ∧ y = b)) :
    GapQueue (update next a (some b)) gap' head tail q where
  nodup := h.nodup
  head_eq := h.head_eq
  tail_eq := h.tail_eq
  chain := h.chain.fill h.nodup (h.gap_open a b hab).1 fun x y hxy hx =>
    (hgap x y).mpr ⟨hxy, fun hxy => hx hxy.1⟩
  gap_open := by
    intro x y hxy
    obtain ⟨hxy, hne⟩ := (hgap x y).mp hxy
    have hxa : x ≠ a := by
      rintro rfl
      exact hne ⟨rfl, infix_pair_unique h.nodup (h.gap_open x y hxy).1 (h.gap_open x b hab).1⟩
    refine ⟨(h.gap_open x y hxy).1, ?_⟩
    rw [update_of_ne hxa]
    exact (h.gap_open x y hxy).2

/-- The first node is left when its link is written. -/
lemma advance (hb : next tail = some b) : ∃ q', q = tail :: q' ∧ GapQueue next gap head b q' := by
  obtain ⟨l, rfl⟩ := head?_eq_some_iff.mp h.tail_eq
  have hl : l.head? = some b := h.chain.head_eq_of_next hb
  obtain ⟨r, rfl⟩ := head?_eq_some_iff.mp hl
  refine ⟨b :: r, rfl, (nodup_cons.mp h.nodup).2, ?_, rfl, h.chain.2, ?_⟩
  · simpa [getLast?_cons_cons] using h.head_eq
  · intro x y hxy
    obtain ⟨hin, hx⟩ := h.gap_open x y hxy
    refine ⟨?_, hx⟩
    rcases infix_cons_iff.mp hin with ⟨r', hr'⟩ | hin
    · -- the link of the first node is written, so it is not outstanding
      simp only [cons_append, cons.injEq] at hr'
      rw [hr'.1, hb] at hx
      cases hx
    · exact hin

end

/-- A queue whose ends meet has one node. -/
lemma eq_singleton (h : GapQueue next gap a a q) : q = [a] := by
  obtain ⟨l, rfl⟩ := head?_eq_some_iff.mp h.tail_eq
  cases l with
  | nil => rfl
  | cons x l =>
    have hlast : (x :: l).getLast? = some a := by
      simpa [getLast?_cons_cons] using h.head_eq
    exact absurd (mem_of_getLast? hlast) (nodup_cons.mp h.nodup).1

/-- The walk from `tail` reaches every node up to the first gap. -/
lemma reaches {l r : List α} (h : GapQueue next gap head tail (l ++ a :: r))
    (hgap : ∀ x y, gap x y → y ∉ l ++ [a]) : Reaches next tail a := by
  refine h.chain.reaches ?_ hgap
  have ht := h.tail_eq
  cases l <;> exact ht

end GapQueue

end Northport.Lib
