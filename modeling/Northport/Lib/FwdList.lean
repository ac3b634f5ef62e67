/-
# Intrusive forward lists

The nodes of a forward list carry the pointer to their successor themselves.  Many lists
may share one map of such pointers.  Appending a node redirects the last node of the list;
removing one redirects the node that points at it and leaves the pointer of the removed
node as it was, so that a walk over the list can go on from there.
-/
import Mathlib.Data.List.Nodup
import Mathlib.Tactic

namespace Northport.Lib

open List

variable {α : Type*}

/-- The nodes of the list are linked in order, and the last one points nowhere. -/
def Chain (next : α → Option α) : List α → Prop
  | [] => True
  | p :: l => next p = l.head? ∧ Chain next l

variable {next next' : α → Option α} {l : List α} {p q : α}

lemma Chain.congr (h : Chain next l) (hnext : ∀ q ∈ l, next' q = next q) : Chain next' l := by
  induction l with
  | nil => exact trivial
  | cons a l ih =>
    refine ⟨(hnext a mem_cons_self).trans h.1, ih h.2 fun q hq => ?_⟩
    exact hnext q (mem_cons_of_mem _ hq)

lemma Chain.tail {l₁ l₂ : List α} (h : Chain next (l₁ ++ l₂)) : Chain next l₂ := by
  induction l₁ with
  | nil => exact h
  | cons a l ih => exact ih h.2

/-- A pointer of the list points into the rest of the list. -/
lemma Chain.mem_of_next (h : Chain next l) (hq : q ∈ l) (hp : next q = some p) : p ∈ l.tail := by
  induction l with
  | nil => cases hq
  | cons a l ih =>
    rcases mem_cons.mp hq with rfl | hq
    · rw [h.1] at hp
      exact mem_of_mem_head? hp
    · exact mem_of_mem_tail (ih h.2 hq)

/-- Only the last node points nowhere. -/
lemma Chain.next_eq_none (h : Chain next l) (hnd : l.Nodup) (hp : p ∈ l) :
    next p = none ↔ l.getLast? = some p := by
  induction l with
  | nil => cases hp
  | cons a l ih =>
    rw [nodup_cons] at hnd
    cases l with
    | nil =>
      obtain rfl := mem_singleton.mp hp
      exact iff_of_true h.1 rfl
    | cons b l =>
      rcases mem_cons.mp hp with rfl | hp
      · have hnext : next p = some b := h.1
        refine iff_of_false (by simp [hnext]) fun hlast => hnd.1 ?_
        exact mem_of_getLast? hlast
      · exact ih h.2 hnd.2 hp

variable [DecidableEq α]

/-- The pointers after `p` was appended to the list `l`. -/
def pushBack (next : α → Option α) (l : List α) (p : α) : α → Option α := fun q =>
  if q = p then none else if q ∈ l ∧ next q = none then some p else next q

/-- The pointers after `p` was removed from the list `l`. -/
def unlink (next : α → Option α) (l : List α) (p : α) : α → Option α := fun q =>
  if q ≠ p ∧ q ∈ l ∧ next q = some p then next p else next q

lemma pushBack_of_notMem (hqp : q ≠ p) (hq : q ∉ l) : pushBack next l p q = next q := by
  simp [pushBack, hqp, hq]

lemma unlink_of_notMem (hq : q ∉ l) : unlink next l p q = next q := by
  simp [unlink, hq]

@[simp] lemma unlink_self : unlink next l p p = next p := by
  simp [unlink]

lemma Chain.pushBack (h : Chain next l) (hp : p ∉ l) : Chain (pushBack next l p) (l ++ [p]) := by
  induction l with
  | nil => exact ⟨by simp [Lib.pushBack], trivial⟩
  | cons a l ih =>
    rw [mem_cons, not_or] at hp
    have hap : a ≠ p := fun h => hp.1 h.symm
    refine ⟨?_, (ih h.2 hp.2).congr fun q hq => ?_⟩
    · have hnext : next a = l.head? := h.1
      cases l <;> simp [Lib.pushBack, hap, hnext]
    · by_cases hqp : q = p
      · simp [Lib.pushBack, hqp]
      · have hql : q ∈ l := by simpa [hqp] using hq
        simp [Lib.pushBack, hqp, hql]

lemma Chain.unlink (h : Chain next l) (hnd : l.Nodup) (hp : p ∈ l) :
    Chain (unlink next l p) (l.erase p) := by
  induction l with
  | nil => cases hp
  | cons a l ih =>
    rw [nodup_cons] at hnd
    by_cases hap : a = p
    · -- nothing behind the first node points at it
      subst hap
      rw [erase_cons_head]
      refine h.2.congr fun q hq => ?_
      have hne : next q ≠ some a := fun hqa => hnd.1 (mem_of_mem_tail (h.2.mem_of_next hq hqa))
      simp [unlink, hne]
    · have hpl : p ∈ l := mem_of_ne_of_mem (Ne.symm hap) hp
      rw [erase_cons_tail (by simpa using hap)]
      refine ⟨?_, (ih h.2 hnd.2 hpl).congr fun q hq => ?_⟩
      · have hnext : next a = l.head? := h.1
        cases l with
        | nil => cases hpl
        | cons b l =>
          rw [head?_cons] at hnext
          by_cases hbp : b = p
          · subst hbp
            rw [erase_cons_head]
            simp only [unlink, ne_eq, hap, not_false_eq_true, mem_cons_self, hnext,
              and_self, if_true]
            exact h.2.1
          · rw [erase_cons_tail (by simpa using hbp), head?_cons]
            simp [Lib.unlink, hnext, hbp]
      · have hql : q ∈ l := mem_of_mem_erase hq
        simp [Lib.unlink, hql]

/-! ### Positions

A position of a list without duplicates is one of its nodes. -/

/-- The node behind a node. -/
def following (l : List α) (p : α) : Option α :=
  match l with
  | [] => none
  | a :: l => if a = p then l.head? else following l p

/-- The list with `q` put in behind `p`. -/
def insertAfter (p q : α) : List α → List α
  | [] => []
  | a :: l => if a = p then a :: q :: l else a :: insertAfter p q l

/-- The list without the node behind `p`. -/
def eraseAfter (p : α) : List α → List α
  | [] => []
  | a :: l => if a = p then a :: l.tail else a :: eraseAfter p l

lemma Chain.following_eq (h : Chain next l) (hp : p ∈ l) : following l p = next p := by
  induction l with
  | nil => cases hp
  | cons a l ih =>
    rw [following]
    split_ifs with hap
    · rw [← hap]
      exact h.1.symm
    · exact ih h.2 (mem_of_ne_of_mem (Ne.symm hap) hp)

/-- The node behind a node is another one. -/
lemma following_ne (hnd : l.Nodup) : following l p ≠ some p := by
  induction l with
  | nil => exact fun h => nomatch h
  | cons a l ih =>
    rw [nodup_cons] at hnd
    rw [following]
    split_ifs with hap
    · exact fun hp => hnd.1 (hap ▸ mem_of_mem_head? hp)
    · exact ih hnd.2

lemma head?_insertAfter : (insertAfter p q l).head? = l.head? := by
  cases l with
  | nil => rfl
  | cons a l =>
    rw [insertAfter]
    split_ifs <;> rfl

lemma insertAfter_eq (hp : p ∈ l) :
    ∃ s t, l = s ++ p :: t ∧ ∀ q, insertAfter p q l = s ++ p :: q :: t := by
  induction l with
  | nil => cases hp
  | cons a l ih =>
    by_cases hap : a = p
    · subst hap
      exact ⟨[], l, rfl, fun q => if_pos rfl⟩
    · obtain ⟨s, t, rfl, heq⟩ := ih (mem_of_ne_of_mem (Ne.symm hap) hp)
      exact ⟨a :: s, t, rfl, fun q => by rw [insertAfter, if_neg hap, heq, cons_append]⟩

lemma nodup_insertAfter (hnd : l.Nodup) (hp : p ∈ l) (hq : q ∉ l) : (insertAfter p q l).Nodup := by
  obtain ⟨s, t, rfl, heq⟩ := insertAfter_eq hp
  rw [heq, append_cons, nodup_middle, ← append_cons, nodup_cons]
  exact ⟨hq, hnd⟩

lemma length_insertAfter (hp : p ∈ l) : (insertAfter p q l).length = l.length + 1 := by
  obtain ⟨s, t, rfl, heq⟩ := insertAfter_eq hp
  simp [heq, add_assoc]

/-- The last node changes when a node is put in behind it. -/
lemma getLast?_insertAfter (hnd : l.Nodup) (hp : p ∈ l) :
    (insertAfter p q l).getLast? = if l.getLast? = some p then some q else l.getLast? := by
  obtain ⟨s, t, rfl, heq⟩ := insertAfter_eq hp
  rw [heq]
  cases t with
  | nil => simp
  | cons b t =>
    have hpt : p ∉ b :: t := (nodup_cons.mp hnd.of_append_right).1
    have hne : (b :: t).getLast? ≠ some p := fun h => hpt (mem_of_getLast? h)
    simp_all [getLast?_append, getLast?_cons_cons]

/-- Putting a node in redirects the one in front of it. -/
lemma Chain.insertAfter (h : Chain next l) (hnd : l.Nodup) (hp : p ∈ l) (hq : next' q = next p)
    (hpq : next' p = some q) (hother : ∀ r ∈ l, r ≠ p → next' r = next r) :
    Chain next' (insertAfter p q l) := by
  induction l with
  | nil => cases hp
  | cons a l ih =>
    rw [nodup_cons] at hnd
    rw [Lib.insertAfter]
    split_ifs with hap
    · subst hap
      refine ⟨hpq, hq.trans h.1, h.2.congr fun r hr => hother r (mem_cons_of_mem _ hr) ?_⟩
      rintro rfl
      exact hnd.1 hr
    · have hpl := mem_of_ne_of_mem (Ne.symm hap) hp
      refine ⟨?_, ih h.2 hnd.2 hpl fun r hr => hother r (mem_cons_of_mem _ hr)⟩
      rw [head?_insertAfter, hother a mem_cons_self hap]
      exact h.1

/-- Behind the last node there is nothing to erase. -/
lemma eraseAfter_of_last (h : following l p = none) : eraseAfter p l = l := by
  induction l with
  | nil => rfl
  | cons a l ih =>
    rw [following] at h
    rw [eraseAfter]
    split_ifs at h ⊢
    · rw [head?_eq_none_iff.mp h]
      rfl
    · rw [ih h]

end Northport.Lib
