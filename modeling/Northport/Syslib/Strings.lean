/-
# Bytes and strings of the system library (`Memory.cpp`, `String.cpp`)

A span of bytes is the list of its bytes, and a string is the list of its characters without the
terminating NUL.
-/
import Mathlib.Tactic

namespace Northport.Syslib

/-- `memcmp`: the first difference among the first `count` bytes. -/
def memcmp : List UInt8 → List UInt8 → ℕ → ℤ
  | a :: as, b :: bs, count + 1 =>
    if a > b then 1 else if b > a then -1 else memcmp as bs count
  | _, _, _ => 0

/-- `String::operator==`. -/
def stringEq (a b : List UInt8) : Bool := a.length == b.length && memcmp a b a.length == 0

/-- `String::String(StringSpan)`: a NUL at the end of the span is not part of the string. -/
def stringOfSpan (span : List UInt8) : List UInt8 :=
  if span.getLast? = some 0 then span.dropLast else span

lemma memcmp_eq_zero_iff {a b : List UInt8} (h : a.length = b.length) :
    memcmp a b a.length = 0 ↔ a = b := by
  induction a generalizing b with
  | nil =>
    rw [List.length_eq_zero_iff.mp h.symm]
    exact iff_of_true rfl rfl
  | cons x a ih =>
    cases b with
    | nil => cases h
    | cons y b =>
      rw [List.length_cons, memcmp, List.cons.injEq, ← ih (by simpa using h)]
      split_ifs with hgt hlt
      · exact iff_of_false (by decide) fun heq => absurd hgt (by simp [heq.1])
      · exact iff_of_false (by decide) fun heq => absurd hlt (by simp [heq.1])
      · have heq : x = y := UInt8.le_antisymm (UInt8.not_lt.mp hgt) (UInt8.not_lt.mp hlt)
        exact (and_iff_right heq).symm

@[simp] lemma stringEq_iff {a b : List UInt8} : stringEq a b = true ↔ a = b := by
  rw [stringEq, Bool.and_eq_true, beq_iff_eq, beq_iff_eq]
  constructor
  · rintro ⟨hlen, hcmp⟩
    exact (memcmp_eq_zero_iff hlen).mp hcmp
  · rintro rfl
    exact ⟨rfl, (memcmp_eq_zero_iff rfl).mpr rfl⟩

end Northport.Syslib
