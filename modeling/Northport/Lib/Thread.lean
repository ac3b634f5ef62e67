/-
# Doubly linked lists threaded through memory

`Threaded pred succ p l q` says that the nodes of `l` are linked in this order by the two
pointer maps, that the first one points back to `p` and that the last one points forward
to `q`.  A node is inserted, removed or replaced by writing the pointers of its two
neighbours; the three lemmas at the end say so for a list that is cut at that node.
-/
import Mathlib.Data.List.Nodup
import Mathlib.Tactic

namespace Northport.Lib

open List

variable {P : Type*} {pred succ pred' succ' : P → Option P} {p p' q q' : Option P}
  {l l₁ l₂ : List P} {x : P}

/-- The nodes of `l` are linked in order, from `p` to `q`. -/
def Threaded (pred succ : P → Option P) : Option P → List P → Option P → Prop
  | _, [], _ => True
  | p, x :: l, q => pred x = p ∧ succ x = l.head?.or q ∧ Threaded pred succ (some x) l q

lemma threaded_append : Threaded pred succ p (l₁ ++ l₂) q ↔
    Threaded pred succ p l₁ (l₂.head?.or q) ∧ Threaded pred succ (l₁.getLast?.or p) l₂ q := by
  induction l₁ generalizing p with
  | nil => simp [Threaded]
  | cons x l₁ ih =>
    have hlast : (x :: l₁).getLast?.or p = l₁.getLast?.or (some x) := by
      rw [getLast?_cons]
      cases l₁.getLast? <;> rfl
    simp [cons_append, Threaded, ih, head?_append, Option.or_assoc, hlast, and_assoc]

lemma Threaded.congr (h : Threaded pred succ p l q) (hp : ∀ x ∈ l, pred' x = pred x)
    (hs : ∀ x ∈ l, succ' x = succ x) : Threaded pred' succ' p l q := by
  induction l generalizing p with
  | nil => trivial
  | cons x l ih =>
    obtain ⟨hx, hsx, hl⟩ := h
    exact ⟨by rw [hp x (by simp), hx], by rw [hs x (by simp), hsx],
      ih hl (fun y hy => hp y (by simp [hy])) (fun y hy => hs y (by simp [hy]))⟩

/-- The two neighbours of a node. -/
lemma Threaded.neighbours (h : Threaded pred succ none (l₁ ++ x :: l₂) none) :
    pred x = l₁.getLast? ∧ succ x = l₂.head? := by
  obtain ⟨-, hp, hs, -⟩ := threaded_append.mp h
  exact ⟨by simpa using hp, by simpa using hs⟩

/-- The neighbours of a node of the list are nodes of the list. -/
lemma Threaded.neighbours_mem (h : Threaded pred succ none l none) (hx : x ∈ l) :
    (∀ y ∈ pred x, y ∈ l) ∧ ∀ y ∈ succ x, y ∈ l := by
  obtain ⟨l₁, l₂, rfl⟩ := append_of_mem hx
  obtain ⟨hp, hs⟩ := h.neighbours
  rw [hp, hs]
  constructor
  · intro y hy
    exact mem_append_left _ (mem_of_getLast? hy)
  · intro y hy
    exact mem_append_right _ (mem_cons_of_mem _ (mem_of_head? hy))

variable [DecidableEq P]

/-- The pointers out of a segment may be redirected at its two ends. -/
lemma Threaded.relink_head (h : Threaded pred succ p l q) (hnd : l.Nodup)
    (hp : ∀ x ∈ l, pred' x = if l.head? = some x then p' else pred x)
    (hs : ∀ x ∈ l, succ' x = succ x) : Threaded pred' succ' p' l q := by
  cases l with
  | nil => trivial
  | cons x l =>
    obtain ⟨-, hx, hl⟩ := h
    refine ⟨by simp [hp x], by rw [hs x (by simp), hx],
      hl.congr (fun y hy => ?_) fun y hy => hs y (by simp [hy])⟩
    have hxy : x ≠ y := fun h => (nodup_cons.mp hnd).1 (h ▸ hy)
    rw [hp y (by simp [hy]), if_neg (by simpa using hxy)]

lemma Threaded.relink_last (h : Threaded pred succ p l q) (hnd : l.Nodup)
    (hp : ∀ x ∈ l, pred' x = pred x)
    (hs : ∀ x ∈ l, succ' x = if l.getLast? = some x then q' else succ x) :
    Threaded pred' succ' p l q' := by
  rcases eq_nil_or_concat' l with rfl | ⟨l, x, rfl⟩
  · trivial
  · obtain ⟨hl, hx, -⟩ := threaded_append.mp h
    refine threaded_append.mpr ⟨hl.congr (fun y hy => hp y (by simp [hy])) fun y hy => ?_,
      by rw [hp x (by simp), hx], by simpa using hs x (by simp), trivial⟩
    have hyx : y ≠ x := fun h => (nodup_append.mp hnd).2.2 y hy x (by simp) h
    rw [hs y (by simp [hy]), if_neg (by simpa using hyx.symm)]

omit [DecidableEq P] in
lemma getLast?_ne_of_notMem (h : x ∉ l) : l.getLast? ≠ some x :=
  fun hx => h (mem_of_getLast? hx)

omit [DecidableEq P] in
lemma head?_ne_of_notMem (h : x ∉ l) : l.head? ≠ some x :=
  fun hx => h (mem_of_head? hx)

/-- The two parts of a list that is cut, with the pointers across the cut redirected. -/
lemma Threaded.cut {p₂ q₁ : Option P} (h₁ : Threaded pred succ none l₁ q₁)
    (h₂ : Threaded pred succ p₂ l₂ none) (hnd : (l₁ ++ l₂).Nodup)
    (hp : ∀ x ∈ l₁ ++ l₂, pred' x = if l₂.head? = some x then p' else pred x)
    (hs : ∀ x ∈ l₁ ++ l₂, succ' x = if l₁.getLast? = some x then q' else succ x) :
    Threaded pred' succ' none l₁ q' ∧ Threaded pred' succ' p' l₂ none := by
  obtain ⟨hnd₁, hnd₂, hd⟩ := nodup_append.mp hnd
  constructor
  · refine h₁.relink_last hnd₁ (fun x hx => ?_) (fun x hx => hs x (by simp [hx]))
    rw [hp x (by simp [hx]), if_neg (head?_ne_of_notMem fun hx' => hd x hx x hx' rfl)]
  · refine h₂.relink_head hnd₂ (fun x hx => hp x (by simp [hx])) (fun x hx => ?_)
    rw [hs x (by simp [hx]), if_neg (getLast?_ne_of_notMem fun hx' => hd x hx' x hx rfl)]

lemma Threaded.insert {n : P} (h : Threaded pred succ none (l₁ ++ l₂) none)
    (hnd : (l₁ ++ l₂).Nodup) (hpn : pred' n = l₁.getLast?) (hsn : succ' n = l₂.head?)
    (hp : ∀ x ∈ l₁ ++ l₂, pred' x = if l₂.head? = some x then some n else pred x)
    (hs : ∀ x ∈ l₁ ++ l₂, succ' x = if l₁.getLast? = some x then some n else succ x) :
    Threaded pred' succ' none (l₁ ++ n :: l₂) none := by
  obtain ⟨h₁, h₂⟩ := threaded_append.mp h
  obtain ⟨h₁, h₂⟩ := h₁.cut h₂ hnd hp hs
  exact threaded_append.mpr ⟨h₁, by simpa using hpn, by simpa using hsn, h₂⟩

variable (h : Threaded pred succ none (l₁ ++ x :: l₂) none) (hnd : (l₁ ++ l₂).Nodup)

include h hnd

lemma Threaded.erase (hp : ∀ y ∈ l₁ ++ l₂, pred' y = if l₂.head? = some y then pred x else pred y)
    (hs : ∀ y ∈ l₁ ++ l₂, succ' y = if l₁.getLast? = some y then succ x else succ y) :
    Threaded pred' succ' none (l₁ ++ l₂) none := by
  obtain ⟨hpx, hsx⟩ := h.neighbours
  obtain ⟨h₁, -, -, h₂⟩ := threaded_append.mp h
  obtain ⟨h₁, h₂⟩ := h₁.cut h₂ hnd hp hs
  rw [hsx] at h₁
  rw [hpx] at h₂
  exact threaded_append.mpr ⟨by simpa using h₁, by simpa using h₂⟩

lemma Threaded.replace {z : P} (hpz : pred' z = pred x) (hsz : succ' z = succ x)
    (hp : ∀ y ∈ l₁ ++ l₂, pred' y = if l₂.head? = some y then some z else pred y)
    (hs : ∀ y ∈ l₁ ++ l₂, succ' y = if l₁.getLast? = some y then some z else succ y) :
    Threaded pred' succ' none (l₁ ++ z :: l₂) none := by
  obtain ⟨hpx, hsx⟩ := h.neighbours
  obtain ⟨h₁, -, -, h₂⟩ := threaded_append.mp h
  obtain ⟨h₁, h₂⟩ := h₁.cut h₂ hnd hp hs
  exact threaded_append.mpr ⟨h₁, by simpa [hpz] using hpx, by simpa [hsz] using hsx, h₂⟩

end Northport.Lib
