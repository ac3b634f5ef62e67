/-
# Radix trees kept in tables

A radix tree of `L` levels maps the numbers below `b ^ L` to leaves.  A table of level
`i + 1` has `b` slots, each of which holds a table or a leaf of level `i`, or nothing.  The
tree is described by the node at every level and prefix: the node of level `i` on the path of
the key `x` is the one at the prefix `x / b ^ i`.  `Stored` says that tables in memory hold
such a tree: `entry p k` is what the slot `k` of the table `p` contains, and `enc i v n` says
that the content `v` of a slot stands for the node `n` of level `i`.
-/
import Mathlib.Tactic

namespace Northport.Lib

open Option

/-- What a slot leads to. -/
inductive RadixNode (P F : Type*) where
  | table (p : P)
  | leaf (f : F)
deriving DecidableEq

/-- The node of every level and prefix. -/
def Radix (P F : Type*) := ℕ → ℕ → Option (RadixNode P F)

variable {P F V : Type*}

/-- The tree with another node at one place. -/
def Radix.set (r : Radix P F) (i x : ℕ) (n : Option (RadixNode P F)) : Radix P F :=
  fun j y => if j = i ∧ y = x then n else r j y

/-- The tree of a root table without entries. -/
def Radix.empty (L : ℕ) (root : P) : Radix P F :=
  fun j y => if j = L ∧ y = 0 then some (.table root) else none

lemma Radix.set_self (r : Radix P F) (i x : ℕ) (n : Option (RadixNode P F)) :
    r.set i x n i x = n := if_pos ⟨rfl, rfl⟩

lemma Radix.set_of_ne (r : Radix P F) {i j x y : ℕ} (n : Option (RadixNode P F))
    (h : ¬ (j = i ∧ y = x)) : r.set i x n j y = r j y := if_neg h

/-- A node of the tree after a write is the written one or an old one. -/
lemma Radix.set_cases {r : Radix P F} {i j x y : ℕ} {n : Option (RadixNode P F)}
    {m : RadixNode P F} (h : r.set i x n j y = some m) :
    (j = i ∧ y = x ∧ n = some m) ∨ r j y = some m := by
  by_cases hjy : j = i ∧ y = x
  · rw [hjy.1, hjy.2, set_self] at h
    exact .inl ⟨hjy.1, hjy.2, h⟩
  · rw [set_of_ne _ _ hjy] at h
    exact .inr h

/-- The prefixes of two neighbouring levels. -/
lemma div_pow_succ (b x i : ℕ) : x / b ^ i / b = x / b ^ (i + 1) := by
  rw [Nat.div_div_eq_div_mul, pow_succ]

lemma div_pow_eq (b x i : ℕ) : x / b ^ i = x / b ^ (i + 1) * b + x / b ^ i % b := by
  rw [← div_pow_succ, mul_comm, Nat.div_add_mod]

lemma slot_div {b l : ℕ} (x : ℕ) (hl : l < b) : (x * b + l) / b = x := by
  rw [mul_comm, Nat.mul_add_div (by omega), Nat.div_eq_of_lt hl, add_zero]

namespace Radix

/-- **The tables hold the tree.** -/
structure Stored (b L : ℕ) (enc : ℕ → V → Option (RadixNode P F) → Prop) (entry : P → ℕ → V)
    (root : P) (r : Radix P F) : Prop where
  root_eq : r L 0 = some (.table root)
  parent : ∀ i x, i < L → r i x ≠ none → ∃ p, r (i + 1) (x / b) = some (.table p)
  /-- Every table is at one place of the tree. -/
  inj : ∀ i j x y p, r i x = some (.table p) → r j y = some (.table p) → i = j ∧ x = y
  entries : ∀ i x p k, i < L → r (i + 1) x = some (.table p) → k < b →
    enc i (entry p k) (r i (x * b + k))

namespace Stored

variable {b L : ℕ} {enc : ℕ → V → Option (RadixNode P F) → Prop} {entry entry' : P → ℕ → V}
  {root p q : P} {r : Radix P F} {i x k : ℕ}

lemma empty (hroot : ∀ i k, k < b → enc i (entry root k) none) :
    Stored b L enc entry root (empty L root : Radix P F) where
  root_eq := if_pos ⟨rfl, rfl⟩
  parent := by
    intro i x hi hne
    exact absurd (if_neg fun h => absurd h.1 hi.ne) hne
  inj := by
    intro i j x y p hx hy
    simp only [Radix.empty, ite_none_right_eq_some] at hx hy
    exact ⟨hx.1.1.trans hy.1.1.symm, hx.1.2.trans hy.1.2.symm⟩
  entries := by
    intro i x p k hi hx hk
    simp only [Radix.empty, ite_none_right_eq_some, Option.some.injEq,
      RadixNode.table.injEq] at hx
    rw [Radix.empty, if_neg fun h => absurd h.1 hi.ne, ← hx.2]
    exact hroot i k hk

section

variable (h : Stored b L enc entry root r)
include h

/-- Only the slots of the tables matter. -/
lemma congr (hentry : ∀ i x p k, r i x = some (.table p) → k < b → entry' p k = entry p k) :
    Stored b L enc entry' root r := by
  refine { h with entries := fun i x p k hi hx hk => ?_ }
  rw [hentry (i + 1) x p k hx hk]
  exact h.entries i x p k hi hx hk

/-- Below a place without a table there is nothing. -/
lemma none_below (hi : i ≤ L)
    (hx : ∀ p, r i (x / b ^ i) ≠ some (.table p)) {j : ℕ} (hj : j < i) :
    r j (x / b ^ j) = none := by
  by_contra hne
  -- the table above the node is again a node, up to the place without a table
  induction hij : i - j generalizing j with
  | zero => omega
  | succ d ih =>
    obtain ⟨p, hp⟩ := h.parent j _ (by omega) hne
    rw [div_pow_succ] at hp
    rcases Nat.lt_or_ge (j + 1) i with hlt | hge
    · exact ih hlt (by rw [hp]; exact some_ne_none _) (by omega)
    · obtain rfl : i = j + 1 := by omega
      exact hx p hp

/-- The slot of a node determines the node's place. -/
lemma slot_unique {j y l : ℕ} (hk : k < b) (hl : l < b)
    (hp : r (i + 1) x = some (.table p)) (hq : r (j + 1) y = some (.table q)) :
    (j = i ∧ y * b + l = x * b + k) ↔ (q = p ∧ l = k) := by
  constructor
  · rintro ⟨rfl, hyx⟩
    obtain rfl : y = x := by rw [← slot_div y hl, hyx, slot_div x hk]
    rw [hp] at hq
    cases hq
    exact ⟨rfl, by omega⟩
  · rintro ⟨rfl, rfl⟩
    obtain ⟨hij, rfl⟩ := h.inj _ _ _ _ _ hp hq
    exact ⟨by omega, rfl⟩

/-- **One slot is written.**  A place without a table gets the node `n`; if this is a table, it
is one that the tree does not have yet, and its slots are empty. -/
lemma set {n : Option (RadixNode P F)} (hi : i < L)
    (hp : r (i + 1) x = some (.table p)) (hk : k < b)
    (hold : ∀ q, r i (x * b + k) ≠ some (.table q)) (hslot : enc i (entry' p k) n)
    (hframe : ∀ j y q l, r j y = some (.table q) → l < b → ¬ (q = p ∧ l = k) →
      entry' q l = entry q l)
    (hn : ∀ q, n = some (.table q) → (∀ j y, r j y ≠ some (.table q)) ∧
      ∀ j l, l < b → enc j (entry' q l) none) :
    Stored b L enc entry' root (r.set i (x * b + k) n) := by
  refine ⟨?_, ?_, ?_, ?_⟩
  · rw [set_of_ne _ _ fun h => absurd h.1 hi.ne']
    exact h.root_eq
  · intro j y hj hne
    by_cases hjy : j = i ∧ y = x * b + k
    · obtain ⟨rfl, rfl⟩ := hjy
      refine ⟨p, ?_⟩
      rw [slot_div x hk, set_of_ne _ _ fun h => absurd h.1 (Nat.succ_ne_self j)]
      exact hp
    · rw [set_of_ne _ _ hjy] at hne
      obtain ⟨q, hq⟩ := h.parent j y hj hne
      refine ⟨q, ?_⟩
      rw [set_of_ne _ _ ?_]
      · exact hq
      · rintro ⟨rfl, hy⟩
        exact hold q (hy ▸ hq)
  · intro j j' y y' q hq hq'
    rcases set_cases hq with ⟨hj, hy, hq⟩ | hq <;> rcases set_cases hq' with ⟨hj', hy', hq'⟩ | hq'
    · exact ⟨hj.trans hj'.symm, hy.trans hy'.symm⟩
    · exact absurd hq' ((hn q hq).1 j' y')
    · exact absurd hq ((hn q hq').1 j y)
    · exact h.inj j j' y y' q hq hq'
  · intro j y q l hj hq hl
    by_cases hjy : j + 1 = i ∧ y = x * b + k
    · -- the new table: nothing was below its place before
      obtain ⟨rfl, rfl⟩ := hjy
      rw [set_self] at hq
      have hnone : r j ((x * b + k) * b + l) = none := by
        by_contra hne
        obtain ⟨q', hq'⟩ := h.parent j _ (by omega) hne
        rw [slot_div _ hl] at hq'
        exact hold q' hq'
      rw [set_of_ne _ _ fun h => absurd h.1 (Nat.succ_ne_self j).symm, hnone]
      exact (hn q hq).2 j l hl
    · rw [set_of_ne _ _ hjy] at hq
      have hslots := h.slot_unique hk hl hp hq
      by_cases hjl : j = i ∧ y * b + l = x * b + k
      · obtain ⟨rfl, rfl⟩ := hslots.mp hjl
        rw [hjl.1, hjl.2, set_self]
        exact hslot
      · rw [set_of_ne _ _ hjl, hframe (j + 1) y q l hq hl fun h => hjl (hslots.mpr h)]
        exact h.entries j y q l hj hq hl

end

end Stored

end Radix

end Northport.Lib
