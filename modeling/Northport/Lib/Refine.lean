/-
# An implementation that follows a specification

Both answer each operation with a new state and a result.  The specification has no answer to an
operation that must not be called; to every other one the implementation has to give the same result
and reach a state that still represents the state of the specification.
-/
import Northport.Lib.Run

namespace Northport.Lib

variable {S T O R : Type*} (step : S → O → Option (S × R)) (spec : T → O → Option (T × R))
  (Rep : S → T → Prop)

/-- The state of the specification after an operation. -/
def specState (t : T) (o : O) : Option T := (spec t o).map Prod.fst

/-- The implementation gives the answer of the specification to one operation. -/
def Answers (s : S) (t : T) (o : O) : Prop :=
  ∀ t' r, spec t o = some (t', r) → ∃ s', step s o = some (s', r) ∧ Rep s' t'

/-- **The implementation follows the specification** along a run. -/
def Follows : S → T → List O → Prop
  | s, t, [] => Rep s t
  | s, t, o :: os => Rep s t ∧
      ∀ t' r, spec t o = some (t', r) → ∃ s', step s o = some (s', r) ∧ Follows s' t' os

variable {step spec Rep}

lemma Follows.rep {s : S} {t : T} {os : List O} (h : Follows step spec Rep s t os) : Rep s t := by
  cases os with
  | nil => exact h
  | cons o os => exact h.1

/-- **The rule for an exact condition**: when one operation is answered rightly exactly under a
condition, the implementation follows the specification along a run exactly if every operation of
the run meets the condition. -/
theorem follows_iff_allowed {ok : T → O → Prop}
    (hok : ∀ s t o, Rep s t → (Answers step spec Rep s t o ↔ ok t o)) {s : S} {t : T}
    (hrep : Rep s t) (os : List O) :
    Follows step spec Rep s t os ↔ Allowed (specState spec) ok t os := by
  induction os generalizing s t with
  | nil => exact iff_of_true hrep trivial
  | cons o os ih =>
    rw [Follows, Allowed, ← hok s t o hrep]
    constructor
    · rintro ⟨-, h⟩
      refine ⟨fun t' r hspec => ?_, fun t' ht' => ?_⟩
      · obtain ⟨s', hs', hfollows⟩ := h t' r hspec
        exact ⟨s', hs', hfollows.rep⟩
      · obtain ⟨⟨t'', r⟩, hspec, rfl⟩ := Option.map_eq_some_iff.mp ht'
        obtain ⟨s', -, hfollows⟩ := h t'' r hspec
        exact (ih hfollows.rep).mp hfollows
    · rintro ⟨hanswers, h⟩
      refine ⟨hrep, fun t' r hspec => ?_⟩
      obtain ⟨s', hs', hrep'⟩ := hanswers t' r hspec
      refine ⟨s', hs', (ih hrep').mpr (h t' ?_)⟩
      rw [specState, hspec]
      rfl

end Northport.Lib
