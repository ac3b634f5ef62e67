/-
# Run levels (`RunLevels.h`)

The run level of a core says what may interrupt it.  The levels are ordered by their numbers.
-/
import Mathlib.Order.Lattice
import Mathlib.Tactic

namespace Northport.Tasking

inductive RunLevel where
  | normal
  | apc
  | dpc
  | clock
  | interrupt
deriving DecidableEq, Repr

namespace RunLevel

def toNat : RunLevel → ℕ
  | normal => 0
  | apc => 1
  | dpc => 2
  | clock => 3
  | interrupt => 4

lemma toNat_injective : Function.Injective toNat := by
  intro a b h
  cases a <;> cases b <;> first | rfl | exact absurd h (by decide)

instance : LinearOrder RunLevel := LinearOrder.lift' toNat toNat_injective

lemma lt_iff {a b : RunLevel} : a < b ↔ a.toNat < b.toNat := Iff.rfl

lemma le_iff {a b : RunLevel} : a ≤ b ↔ a.toNat ≤ b.toNat := Iff.rfl

end RunLevel

end Northport.Tasking
