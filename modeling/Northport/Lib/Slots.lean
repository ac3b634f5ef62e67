/-
# Storage for objects

A block of raw storage is divided into slots.  An object is constructed in a slot that has none and
destroyed in a slot that has one; an object that was moved away is still to be destroyed.  The
operations fail on everything else: on a slot outside of the block, on a construction over an object
(which then is never destroyed), on a destruction or a move where there is no object.
-/
import Mathlib.Tactic

namespace Northport.Lib

open List Option

/-- `for (i = start; i < start + n; i++)`, where each turn may fail. -/
def forUp {S : Type*} (turn : ℕ → S → Option S) : ℕ → ℕ → S → Option S
  | _, 0, s => some s
  | i, n + 1, s => (turn i s).bind (forUp turn (i + 1) n)

section Loop

variable {S : Type*} {turn : ℕ → S → Option S} {i n : ℕ} {s s' : S}

lemma forUp_succ (h : turn i s = some s') (n : ℕ) : forUp turn i (n + 1) s = forUp turn (i + 1) n s' := by
  rw [forUp, h]
  rfl

lemma forUp_congr {turn' : ℕ → S → Option S}
    (h : ∀ j, i ≤ j → j < i + n → ∀ s, turn' j s = turn j s) (s : S) :
    forUp turn' i n s = forUp turn i n s := by
  induction n generalizing i s with
  | zero => rfl
  | succ n ih =>
    rw [forUp, h i le_rfl (by omega) s]
    exact congrArg _ (funext fun s' => ih (fun j h₁ h₂ => h j (by omega) (by omega)) s')

variable (I : S → Prop) (hI : ∀ i s s', I s → turn i s = some s' → I s')

include I hI

/-- What every turn keeps, the loop keeps. -/
lemma forUp_keeps (hs : I s) (h : forUp turn i n s = some s') : I s' := by
  induction n generalizing i s with
  | zero => exact some.inj h ▸ hs
  | succ n ih =>
    obtain ⟨s₁, h₁, h⟩ := bind_eq_some_iff.mp h
    exact ih (hI i s s₁ hs h₁) h

/-- The loop fails when it comes to a turn that does. -/
lemma forUp_none {j : ℕ}
    (hj : ∀ s, I s → turn j s = none) (hs : I s) (hi : i ≤ j) (hn : j < i + n) :
    forUp turn i n s = none := by
  induction n generalizing i s with
  | zero => omega
  | succ n ih =>
    rw [forUp]
    rcases hi.lt_or_eq with hlt | rfl
    · cases h : turn i s with
      | none => rfl
      | some s₁ => exact ih (hI i s s₁ hs h) (by omega) (by omega)
    · rw [hj s hs]
      rfl

end Loop

/-- What is in a slot: nothing, an object, or an object that was moved away. -/
inductive Slot (T : Type*) where
  | raw
  | live (value : T)
  | moved
deriving DecidableEq, Repr

namespace Slot

variable {T : Type*} {a b m : List (Slot T)} {x : Slot T} {i j n k : ℕ} {s s' : List (Slot T)}

/-- Placement `new`. -/
def construct (x : Slot T) (i : ℕ) (s : List (Slot T)) : Option (List (Slot T)) :=
  match s[i]? with
  | some .raw => some (s.set i x)
  | _ => none

/-- A call of the destructor. -/
def destroy (i : ℕ) (s : List (Slot T)) : Option (List (Slot T)) :=
  match s[i]? with
  | some .raw | none => none
  | some _ => some (s.set i .raw)

/-- The object that a move constructor takes over; the source stays behind without its value. -/
def move (i : ℕ) (s : List (Slot T)) : Option (Slot T × List (Slot T)) :=
  match s[i]? with
  | some .raw | none => none
  | some x => some (x, s.set i .moved)

lemma getElem?_split (a : List (Slot T)) (x : Slot T) (b : List (Slot T)) (h : a.length = i) :
    (a ++ x :: b)[i]? = some x := by
  rw [← h]
  simp

lemma set_split (a : List (Slot T)) (x y : Slot T) (b : List (Slot T)) (h : a.length = i) :
    (a ++ x :: b).set i y = a ++ y :: b := by
  rw [← h]
  simp

lemma construct_raw (h : a.length = i) (x : Slot T) (b : List (Slot T)) :
    construct x i (a ++ .raw :: b) = some (a ++ x :: b) := by
  rw [construct, getElem?_split a _ b h]
  exact congrArg some (set_split a _ _ b h)

lemma destroy_object (h : a.length = i) (hx : x ≠ .raw) (b : List (Slot T)) :
    destroy i (a ++ x :: b) = some (a ++ .raw :: b) := by
  rw [destroy, getElem?_split a _ b h, set_split a _ _ b h]
  cases x with
  | raw => exact absurd rfl hx
  | live v => rfl
  | moved => rfl

lemma move_live (h : a.length = i) (v : T) (b : List (Slot T)) :
    move i (a ++ .live v :: b) = some (.live v, a ++ .moved :: b) := by
  rw [move, getElem?_split a _ b h, set_split a _ _ b h]

/-! ### Failures -/

lemma construct_none (h : s[i]? ≠ some .raw) : construct x i s = none := by
  rw [construct]
  split
  · exact absurd ‹_› h
  · rfl

lemma construct_short (h : s.length ≤ i) : construct x i s = none :=
  construct_none (by rw [getElem?_eq_none h]; exact nofun)

lemma destroy_none (h : s[i]? = some .raw ∨ s[i]? = none) : destroy i s = none := by
  rw [destroy]
  rcases h with h | h <;> rw [h]

lemma move_raw (h : s[i]? = some .raw) : move i s = none := by
  rw [move, h]

lemma construct_length (h : construct x i s = some s') : s'.length = s.length := by
  rw [construct] at h
  split at h
  · rw [← some.inj h, length_set]
  · cases h

lemma destroy_eq (h : destroy i s = some s') :
    s[i]? ≠ some .raw ∧ s[i]? ≠ none ∧ s' = s.set i .raw := by
  rw [destroy] at h
  split at h
  · cases h
  · cases h
  · next hraw hnone =>
    refine ⟨?_, ?_, (some.inj h).symm⟩ <;> simp_all

lemma move_eq (h : move i s = some (x, s')) : s[i]? ≠ some .raw ∧ s' = s.set i .moved := by
  rw [move] at h
  split at h
  · cases h
  · cases h
  · next hraw hnone =>
    refine ⟨?_, (Prod.mk.inj (some.inj h)).2.symm⟩
    simp_all

/-! ### Loops over the slots -/

/-- Destroying some objects, one after the other. -/
lemma forUp_destroy (m : List (Slot T)) (hm : ∀ x ∈ m, x ≠ .raw) (h : a.length = i)
    (b : List (Slot T)) :
    forUp destroy i m.length (a ++ (m ++ b)) = some (a ++ (replicate m.length .raw ++ b)) := by
  induction m generalizing a i with
  | nil => rfl
  | cons x m ih =>
    rw [length_cons, cons_append,
      forUp_succ (destroy_object h (hm x mem_cons_self) _), append_cons,
      ih (fun y hy => hm y (mem_cons_of_mem _ hy)) (by simp [h])]
    simp [replicate_succ]

/-- Constructing equal objects in raw slots. -/
lemma forUp_construct (x : Slot T) (n k : ℕ) (h : a.length = i) :
    forUp (construct x) i n (a ++ replicate (n + k) .raw) =
      some (a ++ (replicate n x ++ replicate k .raw)) := by
  induction n generalizing a i with
  | zero =>
    rw [zero_add]
    rfl
  | succ n ih =>
    rw [Nat.succ_add, replicate_succ, forUp_succ (construct_raw h x _), append_cons,
      ih (by simp [h])]
    simp [replicate_succ]

/-- One turn of a loop that moves the objects of one block to another one. -/
def relocate (i : ℕ) (s : List (Slot T) × List (Slot T)) :
    Option (List (Slot T) × List (Slot T)) :=
  (move i s.1).bind fun (x, old) => (construct x i s.2).map fun new => (old, new)

/-- Moving all objects of a block to a new one that is large enough. -/
lemma forUp_relocate (l m : List T) (k : ℕ) :
    forUp relocate l.length m.length
      (replicate l.length .moved ++ m.map .live,
        l.map .live ++ replicate (m.length + k) .raw) =
      some (replicate (l.length + m.length) .moved, (l ++ m).map .live ++ replicate k .raw) := by
  induction m generalizing l with
  | nil => simp [forUp]
  | cons v m ih =>
    have hturn : relocate l.length (replicate l.length .moved ++ (v :: m).map .live,
        l.map .live ++ replicate ((v :: m).length + k) .raw) =
        some (replicate (l ++ [v]).length .moved ++ m.map .live,
          (l ++ [v]).map .live ++ replicate (m.length + k) .raw) := by
      rw [relocate, map_cons, move_live (length_replicate), length_cons,
        Nat.succ_add, replicate_succ]
      simp only [bind_some]
      rw [construct_raw (length_map _)]
      simp [replicate_succ']
    have hlen : (l ++ [v]).length = l.length + 1 := by simp
    rw [show (v :: m).length = m.length + 1 from rfl] at hturn ⊢
    rw [forUp_succ hturn, ← hlen, ih (l ++ [v])]
    simp [add_assoc, add_comm 1]

/-- A move from a slot without an object fails. -/
lemma forUp_relocate_raw {s : List (Slot T) × List (Slot T)} (hraw : s.1[j]? = some .raw)
    (hj : j < n) : forUp relocate 0 n s = none := by
  refine forUp_none (fun s => s.1[j]? = some .raw) ?_ ?_ hraw (Nat.zero_le j) (by omega)
  · intro i s s' hs h
    obtain ⟨⟨x, old⟩, hmove, h⟩ := bind_eq_some_iff.mp h
    obtain ⟨new, -, rfl⟩ := map_eq_some_iff.mp h
    obtain ⟨hi, rfl⟩ := move_eq hmove
    exact (getElem?_set_ne fun (heq : i = j) => hi (heq ▸ hs)).trans hs
  · intro s hs
    rw [relocate, move_raw hs]
    rfl

/-- The new block keeps its length. -/
lemma forUp_relocate_length {s s' : List (Slot T) × List (Slot T)}
    (h : forUp relocate i n s = some s') : s'.2.length = s.2.length := by
  refine forUp_keeps (fun s' => s'.2.length = s.2.length) ?_ rfl h
  intro i s₁ s₂ hs h
  obtain ⟨⟨x, old⟩, -, h⟩ := bind_eq_some_iff.mp h
  obtain ⟨new, hnew, rfl⟩ := map_eq_some_iff.mp h
  exact (construct_length hnew).trans hs

/-- One turn of a loop that closes a gap of `n` slots. -/
def shiftDown (n i : ℕ) (s : List (Slot T)) : Option (List (Slot T)) :=
  (move i s).bind fun (x, s) => (construct x (i - n) s).bind (destroy i)

lemma forUp_shiftDown (m : List T) (n : ℕ) (h : a.length = j) (b : List (Slot T)) :
    forUp (shiftDown (n + 1)) (j + (n + 1)) m.length
      (a ++ (replicate (n + 1) .raw ++ (m.map .live ++ b))) =
      some (a ++ (m.map .live ++ (replicate (n + 1) .raw ++ b))) := by
  induction m generalizing a j with
  | nil => rfl
  | cons v m ih =>
    have hturn : shiftDown (n + 1) (j + (n + 1))
        (a ++ (replicate (n + 1) .raw ++ ((v :: m).map .live ++ b))) =
        some ((a ++ [.live v]) ++ (replicate (n + 1) .raw ++ (m.map .live ++ b))) := by
      have hlen : (a ++ replicate (n + 1) raw).length = j + (n + 1) := by
        rw [length_append, length_replicate, h]
      rw [shiftDown, map_cons, cons_append, ← append_assoc, move_live hlen]
      simp only [bind_some, Nat.add_sub_cancel]
      rw [replicate_succ, append_assoc, cons_append, construct_raw h]
      simp only [bind_some]
      have hlen' : (a ++ live v :: replicate n raw).length = j + (n + 1) := by
        rw [length_append, length_cons, length_replicate, h]
      rw [← cons_append, ← append_assoc, destroy_object hlen' (by simp)]
      rw [append_assoc, append_assoc, cons_append, append_cons (replicate n _),
        ← replicate_succ', replicate_succ]
      rfl
    rw [length_cons, forUp_succ hturn, show j + (n + 1) + 1 = j + 1 + (n + 1) by omega,
      ih (by simp [h])]
    simp

end Slot

end Northport.Lib
