/-
# Moving bytes (`Memory.cpp` of the system library)

`memmove` copies byte by byte, from the last one to the first.  A destination below the source
that overlaps it is thus written before all of the source has been read, and the move is right
only if the bytes repeat at the distance of the two (`memmove_correct_iff`).
-/
import Northport.Lib.ByteMem

namespace Northport.Syslib

open Lib Function

/-- `memmove`; the number is that of the bytes that are still to be copied. -/
def memmove (m : ByteMem) (dest src : ℕ) : ℕ → ByteMem
  | 0 => m
  | i + 1 => memmove (update m (dest + i) (m (src + i))) dest src i

/-- The destination holds what was in the source, and nothing else has changed. -/
structure Moved (m : ByteMem) (dest src len : ℕ) (m' : ByteMem) : Prop where
  copied : ∀ k < len, m' (dest + k) = m (src + k)
  frame : ∀ x, x < dest ∨ dest + len ≤ x → m' x = m x

variable {m : ByteMem} {dest src len k : ℕ}

lemma memmove_frame {x : ℕ} (hx : x < dest ∨ dest + len ≤ x) : memmove m dest src len x = m x := by
  induction len generalizing m with
  | zero => rfl
  | succ n ih => rw [memmove, ih (by omega), update_of_ne (by omega)]

/-- A byte of the source that lies above its place in the destination, but still in the destination,
has been overwritten when it is read. -/
lemma memmove_copied (hk : k < len) : memmove m dest src len (dest + k) =
    if dest < src ∧ src + k < dest + len then memmove m dest src len (src + k) else m (src + k) := by
  induction len generalizing m with
  | zero => omega
  | succ n ih =>
    rw [memmove]
    obtain rfl | hk := Nat.eq_or_lt_of_le (Nat.le_of_lt_succ hk)
    · rw [memmove_frame (.inr le_rfl), update_self, if_neg (by omega)]
    · rw [ih hk]
      by_cases hlast : src + k = dest + n
      · -- the byte that this step has written
        rw [if_neg (by omega), if_pos (by omega), memmove_frame (.inr (by omega))]
      · rw [update_of_ne hlast]
        exact if_congr (by omega) rfl rfl

/-- **The bytes are moved** exactly if every byte of the source that lies in a destination below
it is the same as the byte behind it at the distance of the two. -/
theorem memmove_correct_iff (m : ByteMem) (dest src len : ℕ) :
    Moved m dest src len (memmove m dest src len) ↔
      ∀ k, dest < src → src + k < dest + len → m (src + k) = m (src + (k + (src - dest))) := by
  have hplace : ∀ {k}, dest < src → src + k = dest + (k + (src - dest)) := by omega
  constructor
  · intro h k hlt hk
    have hread := @memmove_copied m dest src len k (by omega)
    rw [h.copied k (by omega), if_pos ⟨hlt, hk⟩] at hread
    rw [hread, hplace hlt, h.copied _ (by omega)]
  · refine fun h => ⟨fun k hk => ?_, fun x hx => memmove_frame hx⟩
    -- the bytes are copied from the last one down
    induction hn : len - k using Nat.strong_induction_on generalizing k with
    | _ n ih =>
      rw [memmove_copied hk]
      split_ifs with hover
      · rw [h k hover.1 hover.2, hplace hover.1]
        exact ih _ (by omega) _ (by omega) rfl
      · rfl

/-- Two bytes moved down by one: the second byte is copied first, over the first one. -/
theorem memmove_down_by_one : ¬ Moved (BitVec.ofNat 8) 0 1 2 (memmove (BitVec.ofNat 8) 0 1 2) :=
  fun h => absurd (h.copied 0 (by decide)) (by decide)

end Northport.Syslib
