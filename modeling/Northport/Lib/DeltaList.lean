/-
# Delta-coded lists

Each entry of a delta-coded list holds the distance from the entry before it.  The position of an
entry is the sum of the distances up to it.  Moving the origin takes from the front of the list,
and inserting an entry has to take its distance from the entry behind it.
-/
import Mathlib.Algebra.BigOperators.Group.List.Basic
import Mathlib.Tactic

namespace Northport.Lib

open List Option

variable {α : Type*}

/-- The sum of all distances. -/
def deltaSum (l : List (α × ℕ)) : ℕ := (l.map (·.2)).sum

@[simp] lemma deltaSum_nil : deltaSum ([] : List (α × ℕ)) = 0 := rfl

@[simp] lemma deltaSum_cons (x : α × ℕ) (l : List (α × ℕ)) :
    deltaSum (x :: l) = x.2 + deltaSum l := by
  simp [deltaSum]

@[simp] lemma deltaSum_append (l l' : List (α × ℕ)) :
    deltaSum (l ++ l') = deltaSum l + deltaSum l' := by
  simp [deltaSum]

/-- The origin moves forward by `n`. -/
def advance : ℕ → List (α × ℕ) → List (α × ℕ)
  | _, [] => []
  | n, (a, d) :: l => (a, d - n) :: advance (n - d) l

/-- The first entry comes nearer by `n`. -/
def shorten (n : ℕ) : List (α × ℕ) → List (α × ℕ)
  | [] => []
  | (a, d) :: l => (a, d - n) :: l

/-- The entry `a` is inserted between `front` and `back`, at the position `n`. -/
def insertAt (front back : List (α × ℕ)) (a : α) (n : ℕ) : List (α × ℕ) :=
  front ++ (a, n - deltaSum front) :: shorten (n - deltaSum front) back

@[simp] lemma advance_zero (l : List (α × ℕ)) : advance 0 l = l := by
  induction l with
  | nil => rfl
  | cons x l ih => rw [advance, Nat.sub_zero, Nat.zero_sub, ih]

@[simp] lemma keys_advance (n : ℕ) (l : List (α × ℕ)) : (advance n l).map (·.1) = l.map (·.1) := by
  induction l generalizing n with
  | nil => rfl
  | cons x l ih => rw [advance, map_cons, map_cons, ih]

lemma length_advance (n : ℕ) (l : List (α × ℕ)) : (advance n l).length = l.length := by
  induction l generalizing n with
  | nil => rfl
  | cons x l ih => rw [advance, length_cons, length_cons, ih]

@[simp] lemma shorten_zero (l : List (α × ℕ)) : shorten 0 l = l := by
  cases l <;> rfl

variable [DecidableEq α] {p : α} {l : List (α × ℕ)} {n : ℕ}

/-- The position of an entry. -/
def position : List (α × ℕ) → α → Option ℕ
  | [], _ => none
  | (a, d) :: l, p => if a = p then some d else (position l p).map (d + ·)

lemma position_cons_self (a : α) (d : ℕ) (l : List (α × ℕ)) :
    position ((a, d) :: l) a = some d := if_pos rfl

lemma position_cons_of_ne {a : α} (h : a ≠ p) (d : ℕ) (l : List (α × ℕ)) :
    position ((a, d) :: l) p = (position l p).map (d + ·) := if_neg h

lemma position_append_of_notMem {l' : List (α × ℕ)} (h : p ∉ l.map (·.1)) :
    position (l ++ l') p = (position l' p).map (deltaSum l + ·) := by
  induction l with
  | nil => simp
  | cons x l ih =>
    rw [map_cons, mem_cons, not_or] at h
    rw [cons_append, position_cons_of_ne (Ne.symm h.1), ih h.2, Option.map_map]
    congr 1
    funext n
    simp [add_assoc]

lemma position_of_notMem (h : p ∉ l.map (·.1)) : position l p = none := by
  rw [← l.append_nil, position_append_of_notMem h]
  rfl

lemma position_append_of_mem (h : p ∈ l.map (·.1)) (l' : List (α × ℕ)) :
    position (l ++ l') p = position l p := by
  induction l with
  | nil => cases h
  | cons x l ih =>
    by_cases e : x.1 = p
    · rw [cons_append, position, position, if_pos e, if_pos e]
    · have h' : p ∈ l.map (·.1) := by
        rw [map_cons, mem_cons] at h
        exact h.resolve_left (Ne.symm e)
      rw [cons_append, position_cons_of_ne e, position_cons_of_ne e, ih h']

/-- An entry is not before its own distance. -/
lemma le_of_position (h : position l p = some n) : ∃ d, (p, d) ∈ l ∧ d ≤ n := by
  induction l generalizing n with
  | nil => simp [position] at h
  | cons x l ih =>
    by_cases e : x.1 = p
    · rw [position, if_pos e] at h
      exact ⟨x.2, by rw [← e]; exact mem_cons_self, (some.inj h).le⟩
    · rw [position_cons_of_ne e] at h
      obtain ⟨m, hm, rfl⟩ := map_eq_some_iff.mp h
      obtain ⟨d, hd, hle⟩ := ih hm
      exact ⟨d, mem_cons_of_mem _ hd, hle.trans (Nat.le_add_left _ _)⟩

/-- The positions do not decrease along the list. -/
lemma pairwise_position (hnd : (l.map (·.1)).Nodup) :
    l.Pairwise fun x y => ∀ n m, position l x.1 = some n → position l y.1 = some m → n ≤ m := by
  induction l with
  | nil => exact List.Pairwise.nil
  | cons z l ih =>
    rw [map_cons, nodup_cons] at hnd
    have hne : ∀ x ∈ l, z.1 ≠ x.1 := fun x hx e => hnd.1 (mem_map.mpr ⟨x, hx, e.symm⟩)
    refine pairwise_cons.mpr ⟨fun y hy n m hn hm => ?_, ?_⟩
    · rw [position_cons_self] at hn
      rw [position_cons_of_ne (hne y hy)] at hm
      obtain ⟨k, -, rfl⟩ := map_eq_some_iff.mp hm
      exact (some.inj hn).symm.le.trans (Nat.le_add_right _ _)
    · refine (ih hnd.2).imp_of_mem fun {x y} hx hy hxy n m hn hm => ?_
      rw [position_cons_of_ne (hne x hx)] at hn
      rw [position_cons_of_ne (hne y hy)] at hm
      obtain ⟨n', hn', rfl⟩ := map_eq_some_iff.mp hn
      obtain ⟨m', hm', rfl⟩ := map_eq_some_iff.mp hm
      exact Nat.add_le_add_left (hxy n' m' hn' hm') _

/-- **Moving the origin** takes the same from every position. -/
theorem position_advance (n : ℕ) (l : List (α × ℕ)) (p : α) :
    position (advance n l) p = (position l p).map (· - n) := by
  induction l generalizing n with
  | nil => rfl
  | cons x l ih =>
    by_cases e : x.1 = p
    · rw [advance, position, position, if_pos e, if_pos e]
      rfl
    · rw [advance, position_cons_of_ne e, position_cons_of_ne e, ih, Option.map_map, Option.map_map]
      congr 1
      funext m
      simp only [Function.comp_apply]
      omega

lemma position_shorten {d : ℕ} {a : α} (h : n ≤ d) (p : α) :
    (position (shorten n ((a, d) :: l)) p).map (n + ·) = position ((a, d) :: l) p := by
  rw [shorten]
  by_cases e : a = p
  · rw [position, position, if_pos e, if_pos e, map_some, Nat.add_sub_cancel' h]
  · rw [position_cons_of_ne e, position_cons_of_ne e, Option.map_map]
    congr 1
    funext m
    simp only [Function.comp_apply]
    omega

lemma position_of_mem (h : p ∈ l.map (·.1)) :
    ∃ n ≤ deltaSum l, position l p = some n ∧ ∀ x ∈ l.head?, x.2 ≤ n := by
  induction l with
  | nil => cases h
  | cons x l ih =>
    by_cases e : x.1 = p
    · exact ⟨x.2, by simp, if_pos e, by simp⟩
    · obtain ⟨n, hn, heq, -⟩ := ih ((mem_cons.mp h).resolve_left (Ne.symm e))
      refine ⟨x.2 + n, by rw [deltaSum_cons]; omega, ?_, by simp⟩
      rw [position_cons_of_ne e, heq]
      rfl

omit [DecidableEq α] in
/-- The entries up to the new origin. -/
lemma advance_eq (n : ℕ) (l : List (α × ℕ)) : ∃ due rest, l = due ++ rest ∧ deltaSum due ≤ n ∧
    (∀ x ∈ rest.head?, n < deltaSum due + x.2) ∧
      advance n l = due.map (fun x => (x.1, 0)) ++ advance (n - deltaSum due) rest := by
  induction l generalizing n with
  | nil => exact ⟨[], [], rfl, Nat.zero_le n, by simp, rfl⟩
  | cons x l ih =>
    obtain ⟨a, d⟩ := x
    by_cases hd : d ≤ n
    · obtain ⟨due, rest, rfl, hle, hlt, heq⟩ := ih (n - d)
      refine ⟨(a, d) :: due, rest, rfl, by simp; omega, fun x hx => ?_, ?_⟩
      · have := hlt x hx
        simp
        omega
      · rw [advance, heq, Nat.sub_eq_zero_of_le hd, deltaSum_cons, Nat.sub_sub]
        rfl
    · exact ⟨[], (a, d) :: l, rfl, Nat.zero_le n, by simpa using hd, by simp⟩

section Insert

variable {front back : List (α × ℕ)} {a : α} {n : ℕ}

/-- **An insertion** puts the entry where it belongs. -/
theorem position_insertAt_self (hle : deltaSum front ≤ n) (ha : a ∉ front.map (·.1)) :
    position (insertAt front back a n) a = some n := by
  rw [insertAt, position_append_of_notMem ha, position_cons_self, map_some,
    Nat.add_sub_cancel' hle]

/-- The insertion leaves every other entry where it is. -/
theorem position_insertAt_of_ne (hback : ∀ x ∈ back.head?, n - deltaSum front ≤ x.2) {p : α}
    (hp : p ≠ a) : position (insertAt front back a n) p = position (front ++ back) p := by
  rw [insertAt]
  by_cases hmem : p ∈ front.map (·.1)
  · rw [position_append_of_mem hmem, position_append_of_mem hmem]
  · rw [position_append_of_notMem hmem, position_append_of_notMem hmem,
      position_cons_of_ne (Ne.symm hp)]
    congr 1
    cases back with
    | nil => rfl
    | cons x back => exact position_shorten (hback x rfl) p

end Insert

end Northport.Lib
