/-
# Linked lists of records in memory

A record stands somewhere in memory and holds the pointer to the next one; the null pointer ends
the list.  How a record is stored is a parameter.
-/
import Mathlib.Tactic

namespace Northport.Lib

open List

variable {α : Type*} {R R' : ℕ → α → ℕ → Prop} {p : ℕ} {l : List α}

/-- The records of the list that begins at the pointer `p`.  `R p x q` says that the record `x`
stands behind `p` and points at `q`. -/
def RecordList (R : ℕ → α → ℕ → Prop) : ℕ → List α → Prop
  | p, [] => p = 0
  | p, x :: l => p ≠ 0 ∧ ∃ q, R p x q ∧ RecordList R q l

lemma RecordList.eq_nil_iff (h : RecordList R p l) : l = [] ↔ p = 0 := by
  cases l with
  | nil => exact iff_of_true rfl h
  | cons x l => exact iff_of_false (by simp) h.1

/-- The records `l` stand one after the other from the pointer `p` on, and the last of them points
at `q`. -/
def RecordPath (R : ℕ → α → ℕ → Prop) : ℕ → List α → ℕ → Prop
  | p, [], q => p = q
  | p, x :: l, q => p ≠ 0 ∧ ∃ p', R p x p' ∧ RecordPath R p' l q

section Paths

variable {q : ℕ} {l' : List α}

lemma recordList_append : RecordList R p (l ++ l') ↔
    ∃ q, RecordPath R p l q ∧ RecordList R q l' := by
  induction l generalizing p with
  | nil => exact ⟨fun h => ⟨p, rfl, h⟩, fun ⟨_, hp, h⟩ => hp ▸ h⟩
  | cons x l ih =>
    constructor
    · rintro ⟨hp, p', hx, hl⟩
      obtain ⟨q, hpath, hq⟩ := ih.mp hl
      exact ⟨q, ⟨hp, p', hx, hpath⟩, hq⟩
    · rintro ⟨q, ⟨hp, p', hx, hpath⟩, hq⟩
      exact ⟨hp, p', hx, ih.mpr ⟨q, hpath, hq⟩⟩

/-- A list is a path to the null pointer. -/
lemma recordList_iff : RecordList R p l ↔ RecordPath R p l 0 := by
  rw [← l.append_nil, recordList_append, append_nil]
  refine ⟨?_, fun h => ⟨0, h, rfl⟩⟩
  rintro ⟨_, h, rfl⟩
  exact h

lemma RecordPath.congr (h : RecordPath R p l q) (hR : ∀ x ∈ l, ∀ p q, R p x q → R' p x q) :
    RecordPath R' p l q := by
  induction l generalizing p with
  | nil => exact h
  | cons x l ih =>
    obtain ⟨hp, p', hx, hl⟩ := h
    exact ⟨hp, p', hR x mem_cons_self p p' hx,
      ih hl fun y hy => hR y (mem_cons_of_mem _ hy)⟩

lemma RecordPath.concat {x : α} {q' : ℕ} (h : RecordPath R p l q) (hq : q ≠ 0) (hx : R q x q') :
    RecordPath R p (l ++ [x]) q' := by
  induction l generalizing p with
  | nil => exact ⟨h ▸ hq, q', h ▸ hx, rfl⟩
  | cons y l ih =>
    obtain ⟨hp, p', hy, hl⟩ := h
    exact ⟨hp, p', hy, ih hl⟩

/-- A list that begins where the path begins goes along the path. -/
lemma RecordPath.eq_append (h : RecordPath R p l q) (h' : RecordList R p l')
    (hR : ∀ p x x' q q', R p x q → R p x' q' → x = x' ∧ q = q') :
    ∃ rest, l' = l ++ rest ∧ RecordList R q rest := by
  induction l generalizing p l' with
  | nil => exact ⟨l', rfl, h ▸ h'⟩
  | cons x l ih =>
    obtain ⟨hp, p', hx, hl⟩ := h
    cases l' with
    | nil => exact absurd h' hp
    | cons x' l' =>
      obtain ⟨-, q', hx', hl'⟩ := h'
      obtain ⟨rfl, rfl⟩ := hR p x x' p' q' hx hx'
      obtain ⟨rest, rfl, hrest⟩ := ih hl hl'
      exact ⟨rest, rfl, hrest⟩

namespace RecordList

/-- A list stays as it is when all its records do. -/
lemma congr (h : RecordList R p l) (hR : ∀ x ∈ l, ∀ p q, R p x q → R' p x q) : RecordList R' p l :=
  recordList_iff.mpr ((recordList_iff.mp h).congr hR)

/-- The memory determines the list. -/
lemma unique (h : RecordList R p l) (h' : RecordList R p l')
    (hR : ∀ p x x' q q', R p x q → R p x' q' → x = x' ∧ q = q') : l = l' := by
  obtain ⟨rest, rfl, hrest⟩ := (recordList_iff.mp h).eq_append h' hR
  rw [hrest.eq_nil_iff.mpr rfl, append_nil]

end RecordList

end Paths

end Northport.Lib
