/-
# Computations that may fail

A computation returns a result or, where the program stops, nothing.  The rules below follow
the way it is put together: what holds of its results, and when another computation returns
at least what it returns.
-/
import Mathlib.Data.Option.Basic
import Mathlib.Tactic.SplitIfs

namespace Northport.Lib

open Option

variable {α β : Type*}

/-! ### Postconditions -/

/-- Every result of the computation has the property. -/
def Post (Q : α → Prop) (x : Option α) : Prop := ∀ r, x = some r → Q r

namespace Post

variable {Q : α → Prop} {x y : Option α} {f : α → Option β}

lemma none : Post Q none := fun _ h => nomatch h

lemma some {a : α} (ha : Q a) : Post Q (some a) := fun _ h => some.inj h ▸ ha

lemma bind {Q : β → Prop} (hf : ∀ a, x = Option.some a → Post Q (f a)) : Post Q (x.bind f) := by
  intro r hr
  obtain ⟨a, ha, hfa⟩ := bind_eq_some_iff.mp hr
  exact hf a ha r hfa

/-- A computation after one with a postcondition. -/
lemma seq {Q : β → Prop} {R : α → Prop} (hx : Post R x) (hf : ∀ a, R a → Post Q (f a)) :
    Post Q (x.bind f) := bind fun a ha => hf a (hx a ha)

lemma map {Q : β → Prop} {f : α → β} (hf : ∀ a, x = Option.some a → Q (f a)) :
    Post Q (x.map f) := by
  intro r hr
  obtain ⟨a, ha, rfl⟩ := map_eq_some_iff.mp hr
  exact hf a ha

lemma ite {p : Prop} [Decidable p] (h : p → Post Q x) (h' : ¬ p → Post Q y) :
    Post Q (if p then x else y) := by
  split_ifs with hp
  · exact h hp
  · exact h' hp

end Post

/-! ### Computations that return more -/

/-- Whatever the first computation returns, the second one returns, too. -/
def Below (x y : Option α) : Prop := ∀ r, x = some r → y = some r

namespace Below

variable {x y x' y' : Option α}

lemma refl (x : Option α) : Below x x := fun _ h => h

lemma none (x : Option α) : Below none x := fun _ h => nomatch h

lemma bind {f g : α → Option β} (h : Below x y) (hfg : ∀ a, Below (f a) (g a)) :
    Below (x.bind f) (y.bind g) := by
  intro r hr
  obtain ⟨a, ha, hfa⟩ := bind_eq_some_iff.mp hr
  exact bind_eq_some_iff.mpr ⟨a, h a ha, hfg a r hfa⟩

lemma map (h : Below x y) (f : α → β) : Below (x.map f) (y.map f) := by
  intro r hr
  obtain ⟨a, ha, hfa⟩ := map_eq_some_iff.mp hr
  exact map_eq_some_iff.mpr ⟨a, h a ha, hfa⟩

lemma ite {p : Prop} [Decidable p] (h : Below x y) (h' : Below x' y') :
    Below (if p then x else x') (if p then y else y') := by
  split_ifs
  · exact h
  · exact h'

end Below

end Northport.Lib
