/-
# A supply of things

A supply hands out one thing after the other, never one that is in use, and takes them back.
What it hands out next is up to its state; the lemmas are about the sequence `nth` of the
things that it hands out when it is asked again and again.
-/
import Mathlib.Tactic

namespace Northport.Lib

structure Supply (τ α : Type*) where
  alloc : τ → α × τ
  free : τ → α → τ
  InUse : τ → α → Prop
  alloc_fresh : ∀ t, ¬ InUse t (alloc t).1
  inUse_alloc : ∀ t a, InUse (alloc t).2 a ↔ a = (alloc t).1 ∨ InUse t a
  inUse_free : ∀ t a b, InUse (free t a) b ↔ b ≠ a ∧ InUse t b

namespace Supply

variable {τ α : Type*} (S : Supply τ α)

/-- The supply after it was asked `n` times. -/
def after (t : τ) : ℕ → τ
  | 0 => t
  | n + 1 => (S.alloc (after t n)).2

/-- What it hands out when it was asked `n` times before. -/
def nth (t : τ) (n : ℕ) : α := (S.alloc (S.after t n)).1

@[simp] lemma after_zero (t : τ) : S.after t 0 = t := rfl

@[simp] lemma nth_zero (t : τ) : S.nth t 0 = (S.alloc t).1 := rfl

lemma inUse_after (t : τ) (n : ℕ) (a : α) :
    S.InUse (S.after t n) a ↔ (∃ k < n, a = S.nth t k) ∨ S.InUse t a := by
  induction n with
  | zero => simp
  | succ n ih =>
    rw [after, S.inUse_alloc, ih]
    constructor
    · rintro (h | ⟨k, hk, h⟩ | h)
      · exact .inl ⟨n, Nat.lt_succ_self n, h⟩
      · exact .inl ⟨k, hk.trans (Nat.lt_succ_self n), h⟩
      · exact .inr h
    · rintro (⟨k, hk, h⟩ | h)
      · rcases Nat.lt_succ_iff_lt_or_eq.mp hk with hk | rfl
        · exact .inr (.inl ⟨k, hk, h⟩)
        · exact .inl h
      · exact .inr (.inr h)

/-- What is handed out was not in use, neither at the time nor before. -/
lemma nth_fresh (t : τ) (n : ℕ) : ¬ S.InUse t (S.nth t n) := fun h =>
  S.alloc_fresh (S.after t n) ((S.inUse_after t n _).mpr (.inr h))

/-- Nothing is handed out twice. -/
lemma nth_injective (t : τ) : Function.Injective (S.nth t) := by
  have hlt : ∀ k n, k < n → S.nth t k ≠ S.nth t n := fun k n hk h =>
    S.alloc_fresh (S.after t n) ((S.inUse_after t n _).mpr (.inl ⟨k, hk, h.symm⟩))
  intro k n h
  rcases lt_trichotomy k n with hk | rfl | hk
  · exact absurd h (hlt k n hk)
  · rfl
  · exact absurd h.symm (hlt n k hk)

/-- The supply that keeps a list of what is in use and picks something else. -/
def ofPick {α : Type*} [DecidableEq α] (pick : List α → α) (h : ∀ inUse, pick inUse ∉ inUse) :
    Supply (List α) α where
  alloc t := (pick t, pick t :: t)
  free t a := t.filter (· ≠ a)
  InUse t a := a ∈ t
  alloc_fresh := h
  inUse_alloc _ _ := List.mem_cons
  inUse_free t a b := by simp [and_comm]

end Supply

lemma le_foldr_max {l : List ℕ} {a : ℕ} (h : a ∈ l) : a ≤ l.foldr max 0 := by
  induction l with
  | nil => cases h
  | cons b l ih =>
    rcases List.mem_cons.mp h with rfl | h
    · exact le_max_left _ _
    · exact (ih h).trans (le_max_right _ _)

end Northport.Lib
