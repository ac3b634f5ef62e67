/-
# Binary trees, contexts and red-black balance

A shape is a binary tree whose nodes are labelled.  A context is a path from a hole up
to the root: one frame for each ancestor, with the side on which the hole hangs and the
other subtree.  Every statement that has a left and a right variant is made once, for a
side `d`: `join d a x b` is the tree with root `x`, the subtree `a` on side `d` and the
subtree `b` on the other side.
-/
import Mathlib.Data.List.Nodup
import Mathlib.Tactic

namespace Northport.Lib

open List

/-- The two sides of a node. -/
inductive Side where
  | left
  | right
deriving DecidableEq, Repr

namespace Side

/-- The other side. -/
def flip : Side → Side
  | left => right
  | right => left

@[simp] lemma flip_flip (d : Side) : d.flip.flip = d := by cases d <;> rfl

@[simp] lemma flip_ne (d : Side) : d.flip ≠ d := by cases d <;> decide

@[simp] lemma ne_flip (d : Side) : d ≠ d.flip := by cases d <;> decide

lemma eq_or_eq_flip (d e : Side) : e = d ∨ e = d.flip := by
  cases d <;> cases e <;> simp [flip]

end Side

/-- Binary trees with labelled nodes. -/
inductive Shape (α : Type*) where
  | nil
  | node (l : Shape α) (x : α) (r : Shape α)
deriving DecidableEq, Repr

/-- A frame of a context: the hole is the child on side `side` of `item`, and `sib` is
the subtree on the other side. -/
structure Frame (α : Type*) where
  side : Side
  item : α
  sib : Shape α

variable {α β M : Type*}

namespace Shape

/-- The labels in symmetric order. -/
def toList : Shape α → List α
  | nil => []
  | node l x r => l.toList ++ x :: r.toList

/-- The tree with root `x`, `a` on side `d` and `b` on the other side. -/
def join : Side → Shape α → α → Shape α → Shape α
  | .left, a, x, b => node a x b
  | .right, a, x, b => node b x a

@[simp] lemma toList_nil : (nil : Shape α).toList = [] := rfl

@[simp] lemma toList_node (l : Shape α) (x : α) (r : Shape α) :
    (node l x r).toList = l.toList ++ x :: r.toList := rfl

lemma join_flip (d : Side) (a : Shape α) (x : α) (b : Shape α) :
    join d.flip a x b = join d b x a := by
  cases d <;> rfl

lemma exists_join (d : Side) (l : Shape α) (x : α) (r : Shape α) :
    ∃ a b, node l x r = join d a x b := by
  cases d with
  | left => exact ⟨l, r, rfl⟩
  | right => exact ⟨r, l, rfl⟩

lemma exists_node (d : Side) (a : Shape α) (x : α) (b : Shape α) :
    ∃ l r, join d a x b = node l x r := by
  cases d with
  | left => exact ⟨a, b, rfl⟩
  | right => exact ⟨b, a, rfl⟩

@[simp] lemma mem_join {d : Side} {a b : Shape α} {x y : α} :
    y ∈ (join d a x b).toList ↔ y = x ∨ y ∈ a.toList ∨ y ∈ b.toList := by
  cases d <;> simp [join] <;> tauto

lemma perm_join (d : Side) (a : Shape α) (x : α) (b : Shape α) :
    (join d a x b).toList.Perm (x :: (a.toList ++ b.toList)) := by
  cases d with
  | left => exact perm_middle
  | right => exact perm_middle.trans (perm_append_comm.cons x)

lemma nodup_join {d : Side} {a b : Shape α} {x : α} :
    (join d a x b).toList.Nodup ↔
      a.toList.Nodup ∧ b.toList.Nodup ∧ x ∉ a.toList ∧ x ∉ b.toList ∧
        (∀ y ∈ a.toList, y ∉ b.toList) := by
  rw [(perm_join d a x b).nodup_iff, nodup_cons, mem_append, nodup_append']
  simp only [List.Disjoint]
  tauto

/-- The product of the values of the labels, in symmetric order. -/
def fold (op : M → M → M) (one : M) (f : α → M) : Shape α → M
  | nil => one
  | node l x r => op (op (l.fold op one f) (f x)) (r.fold op one f)

variable {one : M} {op : M → M → M}

lemma fold_congr {f g : α → M} {s : Shape α} (h : ∀ x ∈ s.toList, f x = g x) :
    s.fold op one f = s.fold op one g := by
  induction s with
  | nil => rfl
  | node l x r ihl ihr =>
    rw [fold, fold, ihl (fun y hy => h y (by simp [hy])),
      ihr (fun y hy => h y (by simp [hy])), h x (by simp)]

/-- A fold is a fold of the list of labels: it does not depend on the shape. -/
lemma fold_eq_foldl (f : α → M) (hassoc : ∀ a b c, op (op a b) c = op a (op b c))
    (hone : ∀ a, op one a = a) (hone' : ∀ a, op a one = a) (s : Shape α) :
    s.fold op one f = s.toList.foldl (fun m x => op m (f x)) one := by
  have key : ∀ (l : List α) (m : M),
      l.foldl (fun m x => op m (f x)) m
        = op m (l.foldl (fun m x => op m (f x)) one) := by
    intro l
    induction l with
    | nil => intro m; simp [hone']
    | cons y l ih =>
      intro m
      rw [foldl_cons, foldl_cons, ih, ih (op one (f y)), hone, hassoc]
  induction s with
  | nil => rfl
  | node l x r ihl ihr =>
    rw [fold, ihl, ihr, toList_node, foldl_append, foldl_cons,
      key r.toList (op _ (f x))]

end Shape

open Shape

/-! ### Contexts -/

/-- Fill the hole of a context; the innermost frame comes first. -/
def plug : List (Frame α) → Shape α → Shape α
  | [], s => s
  | f :: c, s => plug c (join f.side s f.item f.sib)

@[simp] lemma plug_nil (s : Shape α) : plug [] s = s := rfl

@[simp] lemma plug_cons (f : Frame α) (c : List (Frame α)) (s : Shape α) :
    plug (f :: c) s = plug c (join f.side s f.item f.sib) := rfl

lemma plug_append (c c' : List (Frame α)) (s : Shape α) :
    plug (c ++ c') s = plug c' (plug c s) := by
  induction c generalizing s with
  | nil => rfl
  | cons f c ih => simp [ih]

/-- The labels of a context that come before its hole. -/
def before : List (Frame α) → List α
  | [] => []
  | ⟨.left, _, _⟩ :: c => before c
  | ⟨.right, x, a⟩ :: c => before c ++ (a.toList ++ [x])

/-- The labels of a context that come after its hole. -/
def after : List (Frame α) → List α
  | [] => []
  | ⟨.left, x, b⟩ :: c => x :: b.toList ++ after c
  | ⟨.right, _, _⟩ :: c => after c

lemma toList_plug (c : List (Frame α)) (s : Shape α) :
    (plug c s).toList = before c ++ s.toList ++ after c := by
  induction c generalizing s with
  | nil => simp [before, after]
  | cons f c ih =>
    obtain ⟨d, x, b⟩ := f
    cases d <;> simp [ih, join, before, after]

/-- The labels of a context. -/
def ctxItems (c : List (Frame α)) : List α := before c ++ after c

variable {c : List (Frame α)} {y x : α} {s a b : Shape α} {n : ℕ} {d : Side}

lemma mem_ctxItems_cons {f : Frame α} :
    y ∈ ctxItems (f :: c) ↔ y = f.item ∨ y ∈ f.sib.toList ∨ y ∈ ctxItems c := by
  obtain ⟨d, x, b⟩ := f
  cases d <;> simp [ctxItems, before, after] <;> tauto

lemma length_le_ctxItems (c : List (Frame α)) : c.length ≤ (ctxItems c).length := by
  induction c with
  | nil => simp
  | cons f c ih =>
    obtain ⟨d, x, b⟩ := f
    cases d <;> simp only [ctxItems, before, after, length_append, length_cons] at ih ⊢ <;>
      omega

lemma mem_plug : y ∈ (plug c s).toList ↔ y ∈ s.toList ∨ y ∈ ctxItems c := by
  simp only [toList_plug, ctxItems, mem_append]
  tauto

lemma nodup_plug :
    (plug c s).toList.Nodup ↔
      s.toList.Nodup ∧ (ctxItems c).Nodup ∧ ∀ y ∈ s.toList, y ∉ ctxItems c := by
  rw [toList_plug, append_assoc, (perm_append_comm_assoc _ _ _).nodup_iff, nodup_append']
  rfl

/-- A tree that contains `x` is a context whose hole is filled with a subtree of root `x`. -/
lemma exists_plug_of_mem (h : x ∈ s.toList) : ∃ c l r, s = plug c (node l x r) := by
  induction s with
  | nil => simp at h
  | node l y r ihl ihr =>
    simp only [toList_node, mem_append, mem_cons] at h
    rcases h with h | rfl | h
    · obtain ⟨c, a, b, rfl⟩ := ihl h
      exact ⟨c ++ [⟨.left, y, r⟩], a, b, by simp [plug_append, join]⟩
    · exact ⟨[], l, r, rfl⟩
    · obtain ⟨c, a, b, rfl⟩ := ihr h
      exact ⟨c ++ [⟨.right, y, l⟩], a, b, by simp [plug_append, join]⟩

/-- The last label of a nonempty tree is at the end of its right spine. -/
lemma exists_plug_last (l : Shape α) (x : α) (r : Shape α) :
    ∃ c a y, node l x r = plug c (node a y nil) ∧ ∀ f ∈ c, f.side = .right := by
  induction r generalizing l x with
  | nil => exact ⟨[], l, x, rfl, by simp⟩
  | node rl rx rr _ ihr =>
    obtain ⟨c, a, y, h, hc⟩ := ihr rl rx
    refine ⟨c ++ [⟨.right, x, l⟩], a, y, by rw [plug_append, ← h]; rfl, ?_⟩
    intro f hf
    rcases mem_append.mp hf with hf | hf
    · exact hc f hf
    · simp only [mem_singleton] at hf
      rw [hf]

lemma after_eq_nil_of_right (h : ∀ f ∈ c, f.side = .right) : after c = [] := by
  induction c with
  | nil => rfl
  | cons f c ih =>
    obtain ⟨d, x, b⟩ := f
    have hd : d = .right := h _ mem_cons_self
    subst hd
    exact ih (fun g hg => h g (mem_cons_of_mem _ hg))

/-! ### Red-black balance -/

/-- `Balanced R B s c n`: on every path of `s` there are `n` black nodes and no red node
has a red child; `c` says whether the root is red. -/
inductive Balanced (R B : α → Prop) : Shape α → Bool → ℕ → Prop
  | nil : Balanced R B nil false 0
  | red {l r : Shape α} {x : α} {n : ℕ} : R x → Balanced R B l false n →
      Balanced R B r false n → Balanced R B (node l x r) true n
  | black {l r : Shape α} {x : α} {n : ℕ} {c c' : Bool} : B x → Balanced R B l c n →
      Balanced R B r c' n → Balanced R B (node l x r) false (n + 1)

/-- The frames of a context are balanced around a hole of black height `n`. -/
def CtxBalanced (R B : α → Prop) : List (Frame α) → ℕ → Prop
  | [], _ => True
  | f :: c, n =>
      (R f.item ∧ Balanced R B f.sib false n ∧ CtxBalanced R B c n ∧
        ∃ g c', c = g :: c' ∧ B g.item) ∨
      (B f.item ∧ (∃ k, Balanced R B f.sib k n) ∧ CtxBalanced R B c (n + 1))

/-- A red subtree may fill the hole only below a black node. -/
def RedAllowed (B : α → Prop) : List (Frame α) → Prop
  | [] => False
  | f :: _ => B f.item

variable {R B R' B' : α → Prop}

lemma Balanced.congr {c : Bool} (h : Balanced R B s c n)
    (hRB : ∀ x ∈ s.toList, (R x → R' x) ∧ (B x → B' x)) : Balanced R' B' s c n := by
  induction h with
  | nil => exact .nil
  | red hx _ _ ihl ihr =>
    exact .red ((hRB _ (by simp)).1 hx) (ihl fun y hy => hRB y (by simp [hy]))
      (ihr fun y hy => hRB y (by simp [hy]))
  | black hx _ _ ihl ihr =>
    exact .black ((hRB _ (by simp)).2 hx) (ihl fun y hy => hRB y (by simp [hy]))
      (ihr fun y hy => hRB y (by simp [hy]))

lemma CtxBalanced.congr (h : CtxBalanced R B c n)
    (hRB : ∀ x ∈ ctxItems c, (R x → R' x) ∧ (B x → B' x)) : CtxBalanced R' B' c n := by
  induction c generalizing n with
  | nil => trivial
  | cons f c ih =>
    have hRB' := fun x hx => hRB x (mem_ctxItems_cons.mpr (.inr (.inr hx)))
    have hsib := fun x hx => hRB x (mem_ctxItems_cons.mpr (.inr (.inl hx)))
    have hitem := hRB f.item (mem_ctxItems_cons.mpr (.inl rfl))
    rcases h with ⟨hx, hs, hc, g, c', rfl, hg⟩ | ⟨hx, ⟨k, hs⟩, hc⟩
    · exact .inl ⟨hitem.1 hx, hs.congr hsib, ih hc hRB', g, c', rfl,
        (hRB' _ (mem_ctxItems_cons.mpr (.inl rfl))).2 hg⟩
    · exact .inr ⟨hitem.2 hx, ⟨k, hs.congr hsib⟩, ih hc hRB'⟩

lemma Balanced.join_red (hx : R x) (ha : Balanced R B a false n) (hb : Balanced R B b false n) :
    Balanced R B (join d a x b) true n := by
  cases d
  · exact .red hx ha hb
  · exact .red hx hb ha

lemma Balanced.join_black {c c' : Bool} (hx : B x) (ha : Balanced R B a c n)
    (hb : Balanced R B b c' n) : Balanced R B (join d a x b) false (n + 1) := by
  cases d
  · exact .black hx ha hb
  · exact .black hx hb ha

lemma balanced_join {c : Bool} (h : Balanced R B (join d a x b) c n) :
    (c = true ∧ R x ∧ Balanced R B a false n ∧ Balanced R B b false n) ∨
      (c = false ∧ B x ∧ ∃ m k k', n = m + 1 ∧ Balanced R B a k m ∧ Balanced R B b k' m) := by
  cases d with
  | left =>
    cases h with
    | red hx ha hb => exact .inl ⟨rfl, hx, ha, hb⟩
    | black hx ha hb => exact .inr ⟨rfl, hx, _, _, _, rfl, ha, hb⟩
  | right =>
    cases h with
    | red hx ha hb => exact .inl ⟨rfl, hx, hb, ha⟩
    | black hx ha hb => exact .inr ⟨rfl, hx, _, _, _, rfl, hb, ha⟩

/-- Filling a balanced context with a balanced tree of the right height. -/
lemma CtxBalanced.plug {k : Bool} (hRB : ∀ x, R x → ¬ B x) (hc : CtxBalanced R B c n)
    (hs : Balanced R B s k n) (hk : k = true → RedAllowed B c) :
    ∃ m, Balanced R B (plug c s) false m := by
  induction c generalizing s k n with
  | nil =>
    cases k with
    | true => exact absurd (hk rfl) (by simp [RedAllowed])
    | false => exact ⟨n, hs⟩
  | cons f c ih =>
    rcases hc with ⟨hx, hsib, hc, g, c', rfl, hg⟩ | ⟨hx, ⟨k', hsib⟩, hc⟩
    · cases k with
      | false => exact ih hc (Balanced.join_red hx hs hsib) (fun _ => hg)
      | true => exact absurd (hk rfl) (hRB _ hx)
    · exact ih hc (Balanced.join_black hx hs hsib) (by simp)

/-- A balanced tree taken apart at any of its subtrees. -/
lemma balanced_plug {m : ℕ} (h : Balanced R B (plug c s) false m) :
    ∃ k n, Balanced R B s k n ∧ CtxBalanced R B c n ∧ (k = true → RedAllowed B c) := by
  induction c generalizing s with
  | nil => exact ⟨false, m, h, trivial, by simp⟩
  | cons f c ih =>
    obtain ⟨k, n, hj, hc, hk⟩ := ih h
    rcases balanced_join hj with ⟨rfl, hx, hs, hsib⟩ | ⟨rfl, hx, i, k, k', rfl, hs, hsib⟩
    · refine ⟨false, n, hs, .inl ⟨hx, hsib, hc, ?_⟩, by simp⟩
      cases c with
      | nil => exact absurd (hk rfl) (by simp [RedAllowed])
      | cons g c => exact ⟨g, c, rfl, hk rfl⟩
    · exact ⟨k, i, hs, .inr ⟨hx, ⟨k', hsib⟩, hc⟩, fun _ => hx⟩

end Northport.Lib
