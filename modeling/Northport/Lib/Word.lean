/-
# 64-bit words

A machine word is a natural number below `2 ^ 64`.  The operations wrap around as the
machine's do; the lemmas say when they do not.
-/
import Mathlib.Tactic

namespace Northport.Lib

open Nat

/-- The number of values of a word. -/
def wordSize : ℕ := 2 ^ 64

def add64 (a b : ℕ) : ℕ := (a + b) % wordSize

def sub64 (a b : ℕ) : ℕ := (a + (wordSize - b % wordSize)) % wordSize

def mul64 (a b : ℕ) : ℕ := a * b % wordSize

/-- The bitwise complement of a word. -/
def not64 (a : ℕ) : ℕ := wordSize - 1 - a % wordSize

/-- `sl::AlignUp`, with the addition of the source. -/
def alignUp (addr alignment : ℕ) : ℕ := mul64 (sub64 (add64 addr alignment) 1 / alignment) alignment

/-- `sl::AlignDown`. -/
def alignDown (addr alignment : ℕ) : ℕ := addr / alignment * alignment

/-- The least multiple of the step that is not below the number, without wrap around. -/
def roundUp (n step : ℕ) : ℕ := (n + step - 1) / step * step

lemma wordSize_pos : 0 < wordSize := by decide

lemma sub64_lt (a b : ℕ) : sub64 a b < wordSize := mod_lt _ wordSize_pos

variable {a b addr alignment : ℕ}

lemma add64_eq (h : a + b < wordSize) : add64 a b = a + b := mod_eq_of_lt h

lemma sub64_eq (ha : a < wordSize) (h : b ≤ a) : sub64 a b = a - b := by
  have hb : b % wordSize = b := mod_eq_of_lt (h.trans_lt ha)
  have hsum : a + (wordSize - b) = a - b + wordSize := by omega
  rw [sub64, hb, hsum, add_mod_right, mod_eq_of_lt (by omega)]

lemma sub64_of_lt (hb : b < wordSize) (h : a < b) : sub64 a b = a + wordSize - b := by
  rw [sub64, mod_eq_of_lt hb, mod_eq_of_lt (by omega)]
  omega

lemma not64_eq (h : a < wordSize) : not64 a = wordSize - 1 - a := by
  rw [not64, mod_eq_of_lt h]

lemma alignDown_le (addr alignment : ℕ) : alignDown addr alignment ≤ addr :=
  div_mul_le_self addr alignment

lemma alignDown_mono (alignment : ℕ) (h : a ≤ b) : alignDown a alignment ≤ alignDown b alignment :=
  Nat.mul_le_mul_right _ (Nat.div_le_div_right h)

/-- `AlignUp` when the addition does not wrap. -/
lemma alignUp_eq (ha : 0 < alignment) (h : addr + alignment ≤ wordSize) :
    alignUp addr alignment = (addr + alignment - 1) / alignment * alignment := by
  have hle : (addr + alignment - 1) / alignment * alignment < wordSize :=
    (div_mul_le_self _ _).trans_lt (by omega)
  have hsub : sub64 (add64 addr alignment) 1 = addr + alignment - 1 := by
    rcases h.lt_or_eq with h | h
    · rw [add64_eq h, sub64_eq h (by omega)]
    · rw [add64, h, mod_self, sub64_of_lt (by decide) (by decide)]
      omega
  rw [alignUp, hsub, mul64, mod_eq_of_lt hle]

/-- `AlignUp` wraps to 0 in the last step of the address space. -/
lemma alignUp_wrap (haddr : addr < wordSize) (ha : alignment < wordSize)
    (h : wordSize < addr + alignment) : alignUp addr alignment = 0 := by
  have hadd : add64 addr alignment = addr + alignment - wordSize := by
    rw [add64, mod_eq_sub_mod h.le, mod_eq_of_lt (by omega)]
  have hsub : sub64 (add64 addr alignment) 1 = addr + alignment - wordSize - 1 := by
    rw [hadd, sub64_eq (by omega) (by omega)]
  rw [alignUp, hsub, div_eq_of_lt (by omega), mul64, zero_mul, zero_mod]

/-- The rounded value is the least multiple that is not below the address. -/
lemma alignUp_le {fine q : ℕ} (hpos : 0 < fine) (h : addr + fine ≤ wordSize)
    (hle : addr ≤ q * fine) : alignUp addr fine ≤ q * fine := by
  rw [alignUp_eq hpos h]
  refine Nat.mul_le_mul_right _ (Nat.le_of_lt_succ (Nat.div_lt_of_lt_mul ?_))
  rw [Nat.mul_succ, mul_comm]
  omega

lemma alignUp_lt (addr alignment : ℕ) : alignUp addr alignment < wordSize :=
  mod_lt _ wordSize_pos

/-- The rounded value lies less than one step above. -/
lemma le_alignUp (ha : 0 < alignment) (h : addr + alignment ≤ wordSize) :
    addr ≤ alignUp addr alignment ∧ alignUp addr alignment < addr + alignment := by
  rw [alignUp_eq ha h]
  have hdiv := div_add_mod (addr + alignment - 1) alignment
  have hmod := mod_lt (addr + alignment - 1) ha
  rw [mul_comm] at hdiv
  omega

lemma le_roundUp {n step : ℕ} (h : 0 < step) : n ≤ roundUp n step ∧ roundUp n step < n + step := by
  rw [roundUp]
  have hdiv := div_add_mod (n + step - 1) step
  have hmod := mod_lt (n + step - 1) h
  rw [mul_comm] at hdiv
  omega

lemma roundUp_mod (n step : ℕ) : roundUp n step % step = 0 := mul_mod_left _ _

end Northport.Lib
