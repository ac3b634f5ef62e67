/-
# Runs of a system that takes one operation after the other

`step s o` is the state after the operation `o`, or `none` when the operation fails in the
state `s` (a fired assertion, a null pointer, a loop that does not end).  A run is allowed
when each of its operations satisfies the precondition `ok` in the state in which it is
called.  An invariant that every allowed operation keeps, and that rules out failure,
holds after every allowed run.
-/
import Mathlib.Tactic

namespace Northport.Lib

open List

variable {S O : Type*} (step : S → O → Option S) (ok : S → O → Prop)

/-- Run a list of operations, one after the other. -/
def run : S → List O → Option S
  | s, [] => some s
  | s, o :: os => (step s o).bind fun s' => run s' os

/-- Every operation of the run satisfies its precondition when it is called. -/
def Allowed : S → List O → Prop
  | _, [] => True
  | s, o :: os => ok s o ∧ ∀ s', step s o = some s' → Allowed s' os

/-- The property holds in every state that the run goes through. -/
def Always (Q : S → Prop) : S → List O → Prop
  | s, [] => Q s
  | s, o :: os => Q s ∧ ∀ s', step s o = some s' → Always Q s' os

variable {step ok}

lemma allowed_cons {s : S} {o : O} {os : List O} : Allowed step ok s (o :: os) ↔
    ok s o ∧ (step s o).elim True fun s' => Allowed step ok s' os := by
  rw [Allowed]
  cases step s o <;> simp

/-- Whether a run is allowed can be found out by running it. -/
instance decidableAllowed [∀ s o, Decidable (ok s o)] :
    ∀ (s : S) (os : List O), Decidable (Allowed step ok s os)
  | _, [] => .isTrue trivial
  | s, o :: os =>
    have : Decidable ((step s o).elim True fun s' => Allowed step ok s' os) :=
      match step s o with
      | none => .isTrue trivial
      | some s' => decidableAllowed s' os
    decidable_of_iff _ allowed_cons.symm

/-- A precondition that always holds restricts no run. -/
lemma allowed_of_forall (h : ∀ s o, ok s o) (s : S) (os : List O) : Allowed step ok s os := by
  induction os generalizing s with
  | nil => exact trivial
  | cons o os ih => exact ⟨h s o, fun s' _ => ih s'⟩

@[simp] lemma run_nil (s : S) : run step s [] = some s := rfl

lemma run_cons {s s' : S} {o : O} (h : step s o = some s') (os : List O) :
    run step s (o :: os) = run step s' os := by
  rw [run, h]
  rfl

lemma run_append (s : S) (os os' : List O) :
    run step s (os ++ os') = (run step s os).bind fun s' => run step s' os' := by
  induction os generalizing s with
  | nil => rfl
  | cons o os ih =>
    rw [cons_append, run, run]
    cases step s o with
    | none => rfl
    | some s' => exact ih s'

/-- **The invariant rule.**  Every allowed run from a state with the invariant succeeds and
ends in a state with the invariant. -/
theorem run_invariant (Inv : S → Prop)
    (hstep : ∀ s o, Inv s → ok s o → ∃ s', step s o = some s' ∧ Inv s') {s : S} {os : List O}
    (hs : Inv s) (hos : Allowed step ok s os) : ∃ s', run step s os = some s' ∧ Inv s' := by
  induction os generalizing s with
  | nil => exact ⟨s, rfl, hs⟩
  | cons o os ih =>
    obtain ⟨ho, hos⟩ := hos
    obtain ⟨s', h, hs'⟩ := hstep s o hs ho
    rw [run_cons h]
    exact ih hs' (hos s' h)

/-- **The rule for two preconditions** that agree wherever an invariant holds: a run that meets one
of them from step to step also meets the other one. -/
theorem allowed_iff {ok' : S → O → Prop} (Inv : S → Prop)
    (hok : ∀ s o, Inv s → (ok s o ↔ ok' s o))
    (hstep : ∀ s o s', Inv s → ok s o → step s o = some s' → Inv s') {s : S} (hs : Inv s)
    (os : List O) : Allowed step ok s os ↔ Allowed step ok' s os := by
  induction os generalizing s with
  | nil => exact Iff.rfl
  | cons o os ih =>
    rw [Allowed, Allowed, ← hok s o hs]
    refine and_congr_right fun ho => forall_congr' fun s' => forall_congr' fun h => ?_
    exact ih (hstep s o s' hs ho h)

/-- **The rule for an exact condition**: when a step keeps a property exactly if it meets a
condition, the property holds along a run exactly if every step of the run meets the condition. -/
theorem always_iff_allowed (Inv Q : S → Prop)
    (hok : ∀ s o, Inv s → Q s → ((∀ s', step s o = some s' → Q s') ↔ ok s o))
    (hstep : ∀ s o s', Inv s → ok s o → step s o = some s' → Inv s') {s : S} (hs : Inv s) (hq : Q s)
    (os : List O) : Always step Q s os ↔ Allowed step ok s os := by
  induction os generalizing s with
  | nil => exact iff_of_true hq trivial
  | cons o os ih =>
    rw [Always, Allowed, ← hok s o hs hq]
    constructor
    · rintro ⟨-, hall⟩
      have hnext : ∀ s', step s o = some s' → Q s' := by
        intro s' h
        have halways := hall s' h
        cases os with
        | nil => exact halways
        | cons o' os => exact halways.1
      have ho := (hok s o hs hq).mp hnext
      exact ⟨hnext, fun s' h => (ih (hstep s o s' hs ho h) (hnext s' h)).mp (hall s' h)⟩
    · rintro ⟨hnext, hall⟩
      have ho := (hok s o hs hq).mp hnext
      exact ⟨hq, fun s' h => (ih (hstep s o s' hs ho h) (hnext s' h)).mpr (hall s' h)⟩

/-- **The rule for a property of all states**: it follows from an invariant of the steps. -/
theorem always_of_invariant {Q : S → Prop} (Inv : S → Prop) (hq : ∀ s, Inv s → Q s)
    (hstep : ∀ s o s', Inv s → step s o = some s' → Inv s') {s : S} (hs : Inv s) (os : List O) :
    Always step Q s os := by
  induction os generalizing s with
  | nil => exact hq s hs
  | cons o os ih => exact ⟨hq s hs, fun s' h => ih (hstep s o s' hs h)⟩

lemma Always.of_run {Q : S → Prop} {s s' : S} {os : List O} (h : Always step Q s os)
    (hrun : run step s os = some s') : Q s' := by
  induction os generalizing s with
  | nil => exact Option.some.inj hrun ▸ h
  | cons o os ih =>
    obtain ⟨s₁, h₁, hrun⟩ := Option.bind_eq_some_iff.mp hrun
    exact ih (h.2 s₁ h₁) hrun

/-! ### Letting what is under way finish

An operation that begins something new may already be at fault while its effect shows only
later.  A state is settled when the property holds in it and stays true as long as nothing new
begins. -/

variable (step) in
/-- The property holds in every state that quiet operations lead to. -/
def Settled (quiet : O → Prop) (Q : S → Prop) (s : S) : Prop :=
  ∀ os, (∀ o ∈ os, quiet o) → Always step Q s os

section Settled

variable {quiet : O → Prop} {Q : S → Prop} {s s' : S} {o : O}

lemma Settled.now (h : Settled step quiet Q s) : Q s := h [] nofun

lemma Settled.next (h : Settled step quiet Q s) (hs : step s o = some s') (ho : quiet o) :
    Settled step quiet Q s' := by
  intro os hos
  refine (h (o :: os) fun o' ho' => ?_).2 s' hs
  rcases mem_cons.mp ho' with rfl | ho'
  · exact ho
  · exact hos o' ho'

/-- An invariant of the quiet operations keeps a state settled. -/
lemma settled_of_invariant (Inv : S → Prop) (hq : ∀ s, Inv s → Q s)
    (hstep : ∀ s o s', Inv s → quiet o → step s o = some s' → Inv s') (hs : Inv s) :
    Settled step quiet Q s := by
  intro os hos
  induction os generalizing s with
  | nil => exact hq s hs
  | cons o os ih =>
    refine ⟨hq s hs, fun s' h => ih (hstep s o s' hs (hos o mem_cons_self) h) fun o' ho' => ?_⟩
    exact hos o' (mem_cons_of_mem _ ho')

/-- **The rule for an exact condition on what begins**: when an allowed operation keeps an
invariant of settled states, and one that is not allowed leads to a state that is not settled, the
states of a run are settled exactly if every operation of the run is allowed. -/
theorem always_settled_iff_allowed (Inv : S → Prop) (hq : ∀ s, Inv s → Settled step quiet Q s)
    (hok : ∀ s o, Inv s → ¬ ok s o → ∃ s', step s o = some s' ∧ ¬ Settled step quiet Q s')
    (hstep : ∀ s o s', Inv s → ok s o → step s o = some s' → Inv s') (hs : Inv s) (os : List O) :
    Always step (Settled step quiet Q) s os ↔ Allowed step ok s os := by
  induction os generalizing s with
  | nil => exact iff_of_true (hq s hs) trivial
  | cons o os ih =>
    constructor
    · rintro ⟨-, hall⟩
      have ho : ok s o := by
        by_contra hnot
        obtain ⟨s', h, hbad⟩ := hok s o hs hnot
        have halways := hall s' h
        cases os with
        | nil => exact hbad halways
        | cons o' os => exact hbad halways.1
      exact ⟨ho, fun s' h => (ih (hstep s o s' hs ho h)).mp (hall s' h)⟩
    · rintro ⟨ho, hall⟩
      exact ⟨hq s hs, fun s' h => (ih (hstep s o s' hs ho h)).mpr (hall s' h)⟩

end Settled

/-- **The simulation rule.**  When related states answer every allowed operation of the first
system with related states, they do so along every allowed run. -/
theorem run_simulation {T : Type*} {step' : T → O → Option T} (R : S → T → Prop)
    (hstep : ∀ s t o, R s t → ok s o →
      ∃ s' t', step s o = some s' ∧ step' t o = some t' ∧ R s' t') {s : S} {t : T} {os : List O}
    (hst : R s t) (hos : Allowed step ok s os) :
    ∃ s' t', run step s os = some s' ∧ run step' t os = some t' ∧ R s' t' := by
  induction os generalizing s t with
  | nil => exact ⟨s, t, rfl, rfl, hst⟩
  | cons o os ih =>
    obtain ⟨ho, hos⟩ := hos
    obtain ⟨s', t', hs, ht, hst'⟩ := hstep s t o hst ho
    rw [run_cons hs, run_cons ht]
    exact ih hst' (hos s' hs)

end Northport.Lib
