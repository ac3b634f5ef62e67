/-
# Binary trees in memory, linked by parent and child pointers

`Links P` is the part of a memory that holds the pointers of a tree: a root and, for
each address, a parent pointer and two child pointers.  `Rep k par p s` says that
following the child pointers from `p` gives exactly the shape `s`, and that every node of
`s` points back to its parent.  A represented tree can be taken apart at any node
(`rep_plug`): what remains is a context, which only the hole pointer connects with the
subtree.
-/
import Northport.Lib.BinTree

namespace Northport.Lib

open Shape

/-- The pointers of a linked binary tree. -/
structure Links (P : Type*) where
  root : Option P
  parent : P → Option P
  child : Side → P → Option P

namespace Links

variable {P : Type*} [DecidableEq P]

def setRoot (k : Links P) (v : Option P) : Links P := { k with root := v }

def setParent (k : Links P) (p : P) (v : Option P) : Links P :=
  { k with parent := Function.update k.parent p v }

def setChild (k : Links P) (d : Side) (p : P) (v : Option P) : Links P :=
  { k with child := fun e x => if e = d ∧ x = p then v else k.child e x }

/-- The child pointer of `w` that holds `u` (the root pointer, when `w` is null) is
overwritten by `v`. -/
def replaceChild (k : Links P) (w : Option P) (u : P) (v : Option P) : Links P :=
  match w with
  | none => k.setRoot v
  | some w =>
    if k.child .left w = some u then k.setChild .left w v else k.setChild .right w v

/-- A write to the parent pointer of a node that may be null. -/
def guardedSetParent (k : Links P) (p : Option P) (v : Option P) : Links P :=
  match p with
  | none => k
  | some p => k.setParent p v

/-- The pointers of a node that leaves the tree are cleared. -/
def clear (k : Links P) (n : P) : Links P :=
  ((k.setChild .left n none).setChild .right n none).setParent n none

/-- The node `n` takes the place of its parent `u`, which becomes its child on side `d`. -/
def rotate (k : Links P) (d : Side) (n u : P) : Links P :=
  (((((k.guardedSetParent (k.child d n) (some u)).setChild d.flip u (k.child d n)).setParent u
    (some n)).setChild d n (some u)).setParent n (k.parent u)).replaceChild (k.parent u) u (some n)

section

variable (k : Links P) (v : Option P)

section

omit [DecidableEq P]

@[simp] lemma root_setRoot : (k.setRoot v).root = v := rfl

@[simp] lemma parent_setRoot : (k.setRoot v).parent = k.parent := rfl

@[simp] lemma child_setRoot : (k.setRoot v).child = k.child := rfl

end

@[simp] lemma root_setParent (p : P) : (k.setParent p v).root = k.root := rfl

@[simp] lemma parent_setParent (p x : P) :
    (k.setParent p v).parent x = if x = p then v else k.parent x := by
  simp [setParent, Function.update_apply]

@[simp] lemma child_setParent (p : P) : (k.setParent p v).child = k.child := rfl

@[simp] lemma root_setChild (d : Side) (p : P) : (k.setChild d p v).root = k.root := rfl

@[simp] lemma parent_setChild (d : Side) (p : P) : (k.setChild d p v).parent = k.parent := rfl

@[simp] lemma child_setChild (d e : Side) (p x : P) :
    (k.setChild d p v).child e x = if e = d ∧ x = p then v else k.child e x := rfl

end

/-- The memory `k` holds the shape `s` at the pointer `p`, below `par`. -/
def Rep (k : Links P) : Option P → Option P → Shape P → Prop
  | _, p, nil => p = none
  | par, p, node l x r =>
      p = some x ∧ k.parent x = par ∧ k.Rep (some x) (k.child .left x) l ∧
        k.Rep (some x) (k.child .right x) r

/-- The parent of the node that fills the hole of a context. -/
def holePar : List (Frame P) → Option P
  | [] => none
  | f :: _ => some f.item

/-- The pointer that the hole of a context stands for. -/
def holePtr (k : Links P) : List (Frame P) → Option P
  | [] => k.root
  | f :: _ => k.child f.side f.item

/-- Overwrite the pointer that the hole of a context stands for. -/
def setHole (k : Links P) (c : List (Frame P)) (v : Option P) : Links P :=
  match c with
  | [] => k.setRoot v
  | f :: _ => k.setChild f.side f.item v

/-- The memory `k` holds the context `c`, whatever its hole pointer is. -/
def RepCtx (k : Links P) : List (Frame P) → Prop
  | [] => True
  | f :: c =>
      k.parent f.item = holePar c ∧ k.holePtr c = some f.item ∧
        k.Rep (some f.item) (k.child f.side.flip f.item) f.sib ∧ k.RepCtx c

variable {k k' : Links P} {par p : Option P} {s : Shape P} {c : List (Frame P)} {a : Shape P}
  {d : Side} {x n : P} {par' v : Option P}

omit [DecidableEq P]

lemma rep_join {b : Shape P} :
    k.Rep par p (join d a x b) ↔
      p = some x ∧ k.parent x = par ∧ k.Rep (some x) (k.child d x) a ∧
        k.Rep (some x) (k.child d.flip x) b := by
  cases d with
  | left => rfl
  | right =>
    simp only [join, Rep, Side.flip]
    tauto

/-- A represented tree is a represented context with a represented subtree in its hole. -/
lemma rep_plug : k.Rep none k.root (plug c s) ↔ k.RepCtx c ∧ k.Rep (holePar c) (k.holePtr c) s := by
  induction c generalizing s with
  | nil => simp [RepCtx, holePar, holePtr]
  | cons f c ih =>
    rw [plug_cons, ih, rep_join]
    simp only [RepCtx, holePar, holePtr]
    tauto

section

variable (h : k.Rep par p s)

include h

/-- The root of a represented tree is one of its labels. -/
lemma Rep.mem_of_ptr (hp : p = some x) : x ∈ s.toList := by
  cases s with
  | nil => cases h.symm.trans hp
  | node l y r =>
    cases h.1.symm.trans hp
    simp

/-- The children of a node of the shape are nodes of the shape. -/
lemma Rep.child_mem (hx : x ∈ s.toList) (d : Side) : ∀ y ∈ k.child d x, y ∈ s.toList := by
  intro y hy
  induction s generalizing par p with
  | nil => cases hx
  | node l z r ihl ihr =>
    obtain ⟨-, -, hl, hr⟩ := h
    rw [toList_node, List.mem_append, List.mem_cons] at hx ⊢
    rcases hx with hx | rfl | hx
    · exact .inl (ihl hl hx)
    · cases d with
      | left => exact .inl (hl.mem_of_ptr hy)
      | right => exact .inr (.inr (hr.mem_of_ptr hy))
    · exact .inr (.inr (ihr hr hx))

/-- The parent of a node of the shape is a node of the shape, or it is above the shape. -/
lemma Rep.parent_mem (hx : x ∈ s.toList) : ∀ y ∈ k.parent x, y ∈ s.toList ∨ y ∈ par := by
  intro y hy
  induction s generalizing par p with
  | nil => cases hx
  | node l z r ihl ihr =>
    obtain ⟨-, hz, hl, hr⟩ := h
    rw [toList_node, List.mem_append, List.mem_cons] at hx ⊢
    rcases hx with hx | rfl | hx
    · rcases ihl hl hx with h | h
      · exact .inl (.inl h)
      · exact .inl (.inr (.inl (Option.some.inj h).symm))
    · exact .inr (hz ▸ hy)
    · rcases ihr hr hx with h | h
      · exact .inl (.inr (.inr h))
      · exact .inl (.inr (.inl (Option.some.inj h).symm))

/-- Two memories that agree on the nodes of a shape represent it alike. -/
lemma Rep.congr (hpar : ∀ x ∈ s.toList, k'.parent x = k.parent x)
    (hchild : ∀ x ∈ s.toList, ∀ d, k'.child d x = k.child d x) : k'.Rep par p s := by
  induction s generalizing par p with
  | nil => exact h
  | node l x r ihl ihr =>
    obtain ⟨hp, hx, hl, hr⟩ := h
    refine ⟨hp, by rw [hpar x (by simp), hx], ?_, ?_⟩
    · rw [hchild x (by simp)]
      exact ihl hl (fun y hy => hpar y (by simp [hy])) (fun y hy => hchild y (by simp [hy]))
    · rw [hchild x (by simp)]
      exact ihr hr (fun y hy => hpar y (by simp [hy])) (fun y hy => hchild y (by simp [hy]))

/-- A represented subtree may be hung below another parent: only the parent pointer of
its root has to change. -/
lemma Rep.reparent (hnd : s.toList.Nodup)
    (hpar : ∀ x ∈ s.toList, p ≠ some x → k'.parent x = k.parent x)
    (hroot : ∀ x, p = some x → k'.parent x = par')
    (hchild : ∀ x ∈ s.toList, ∀ d, k'.child d x = k.child d x) : k'.Rep par' p s := by
  cases s with
  | nil => exact h
  | node l x r =>
    obtain ⟨hp, hx, hl, hr⟩ := h
    obtain ⟨-, -, hxl, hxr, -⟩ := (nodup_join (d := .left)).mp hnd
    have hne : ∀ {y : P} {l : List P}, y ∈ l → x ∉ l → p ≠ some y := by
      rintro y l hy hx hpy
      cases hp.symm.trans hpy
      exact hx hy
    refine ⟨hp, hroot x hp, ?_, ?_⟩
    · rw [hchild x (by simp)]
      exact hl.congr (fun y hy => hpar y (by simp [hy]) (hne hy hxl))
        (fun y hy => hchild y (by simp [hy]))
    · rw [hchild x (by simp)]
      exact hr.congr (fun y hy => hpar y (by simp [hy]) (hne hy hxr))
        (fun y hy => hchild y (by simp [hy]))

end

/-- Two memories that agree on the nodes of a context represent it alike. -/
lemma RepCtx.congr (h : k.RepCtx c) (hroot : c ≠ [] → k'.root = k.root)
    (hpar : ∀ x ∈ ctxItems c, k'.parent x = k.parent x)
    (hchild : ∀ x ∈ ctxItems c, ∀ d, k'.child d x = k.child d x) : k'.RepCtx c := by
  induction c with
  | nil => trivial
  | cons f c ih =>
    obtain ⟨hx, hp, hsib, hc⟩ := h
    have hitem : f.item ∈ ctxItems (f :: c) := mem_ctxItems_cons.mpr (.inl rfl)
    have hin : ∀ x ∈ ctxItems c, x ∈ ctxItems (f :: c) :=
      fun x hx => mem_ctxItems_cons.mpr (.inr (.inr hx))
    have hsibin : ∀ x ∈ f.sib.toList, x ∈ ctxItems (f :: c) :=
      fun x hx => mem_ctxItems_cons.mpr (.inr (.inl hx))
    refine ⟨by rw [hpar _ hitem, hx], ?_, ?_, ?_⟩
    · rw [← hp]
      cases c with
      | nil => exact hroot (by simp)
      | cons g c => exact hchild _ (hin _ (mem_ctxItems_cons.mpr (.inl rfl))) _
    · rw [hchild _ hitem]
      exact hsib.congr (fun x hx => hpar x (hsibin x hx)) (fun x hx => hchild x (hsibin x hx))
    · exact ih hc (fun _ => hroot (by simp)) (fun x hx => hpar x (hin x hx))
        (fun x hx => hchild x (hin x hx))

lemma nodup_ctxItems_cons {f : Frame P} (h : (ctxItems (f :: c)).Nodup) :
    f.item ∉ f.sib.toList ∧ f.item ∉ ctxItems c ∧ (ctxItems c).Nodup ∧
      f.sib.toList.Nodup ∧ ∀ x ∈ f.sib.toList, x ∉ ctxItems c := by
  have h' : (plug c (join f.side nil f.item f.sib)).toList.Nodup := by
    have := (nodup_plug (c := f :: c) (s := nil)).mpr ⟨by simp, h, by simp⟩
    simpa using this
  obtain ⟨hj, hc, hd⟩ := nodup_plug.mp h'
  obtain ⟨-, hsib, -, hx, -⟩ := nodup_join.mp hj
  exact ⟨hx, hd _ (by simp), hc, hsib, fun x hx => hd x (by simp [hx])⟩

lemma holePtr_congr (hroot : k'.root = k.root)
    (hchild : ∀ x ∈ ctxItems c, ∀ d, k'.child d x = k.child d x) : k'.holePtr c = k.holePtr c := by
  cases c with
  | nil => exact hroot
  | cons f c => exact hchild _ (mem_ctxItems_cons.mpr (.inl rfl)) _

variable [DecidableEq P]

@[simp] lemma parent_setHole (v : Option P) : (k.setHole c v).parent = k.parent := by
  cases c <;> rfl

@[simp] lemma holePtr_setHole (v : Option P) : (k.setHole c v).holePtr c = v := by
  cases c <;> simp [setHole, holePtr]

lemma child_setHole_of_notMem (hx : x ∉ ctxItems c) (d : Side) (v : Option P) :
    (k.setHole c v).child d x = k.child d x := by
  cases c with
  | nil => rfl
  | cons f c =>
    have hne : x ≠ f.item := by
      rintro rfl
      exact hx (mem_ctxItems_cons.mpr (.inl rfl))
    simp [setHole, hne]

section

variable (h : k.RepCtx c) (hnd : (ctxItems c).Nodup)

include h hnd

/-- A context does not depend on its hole pointer. -/
lemma RepCtx.setHole (v : Option P) : (k.setHole c v).RepCtx c := by
  cases c with
  | nil => trivial
  | cons f c =>
    obtain ⟨hx, hp, hsib, hc⟩ := h
    obtain ⟨hfs, hfc, -, -, hd⟩ := nodup_ctxItems_cons hnd
    have hne : ∀ x ∈ ctxItems c, ∀ d, (k.setChild f.side f.item v).child d x = k.child d x := by
      intro x hx d
      have hxf : x ≠ f.item := fun h => hfc (h ▸ hx)
      simp [hxf]
    refine ⟨hx, ?_, ?_, hc.congr (fun _ => rfl) (fun _ _ => rfl) hne⟩
    · cases c with
      | nil => exact hp
      | cons g c =>
        change (k.setChild f.side f.item v).child g.side g.item = some f.item
        rw [hne _ (mem_ctxItems_cons.mpr (.inl rfl))]
        exact hp
    · have hfl : (k.setChild f.side f.item v).child f.side.flip f.item
          = k.child f.side.flip f.item := by simp
      change (k.setChild f.side f.item v).Rep _
        ((k.setChild f.side f.item v).child f.side.flip f.item) _
      rw [hfl]
      refine hsib.congr (fun _ _ => rfl) (fun x hx d => ?_)
      have hxf : x ≠ f.item := fun h => hfs (h ▸ hx)
      simp [hxf]

/-- The hole of a context is filled anew: the memory changes inside the new subtree, at the
hole pointer and outside of the tree. -/
lemma rep_refill {s' : Shape P}
    (hroot : k'.root = (k.setHole c v).root) (hpar : ∀ x ∈ ctxItems c, k'.parent x = k.parent x)
    (hchild : ∀ x ∈ ctxItems c, ∀ d, k'.child d x = (k.setHole c v).child d x)
    (hs : k'.Rep (holePar c) v s') : k'.Rep none k'.root (plug c s') := by
  refine rep_plug.mpr ⟨?_, ?_⟩
  · refine (h.setHole hnd v).congr (fun _ => hroot) (fun x hx => ?_) hchild
    rw [parent_setHole, hpar x hx]
  · rw [holePtr_congr hroot hchild, holePtr_setHole]
    exact hs

/-- A node without children is hung into the hole of a context. -/
lemma rep_attach (hn : n ∉ ctxItems c) (hchild : ∀ d, k.child d n = none) :
    ((k.setHole c (some n)).setParent n (holePar c)).Rep none
      ((k.setHole c (some n)).setParent n (holePar c)).root (plug c (node nil n nil)) := by
  have hchild' : ∀ d, ((k.setHole c (some n)).setParent n (holePar c)).child d n = none := by
    intro d
    rw [child_setParent, child_setHole_of_notMem hn, hchild]
  refine rep_refill h hnd rfl (fun x hx => ?_) (fun _ _ _ => rfl)
    ⟨rfl, by simp, hchild' _, hchild' _⟩
  have hxn : x ≠ n := fun h => hn (h ▸ hx)
  simp [hxn]

end

/-- Overwriting the child pointer that holds `u` overwrites the hole pointer, when `u`
fills the hole. -/
lemma replaceChild_eq_setHole {u : P} (h : k.RepCtx c) (hu : k.holePtr c = some u)
    (hnot : u ∉ ctxItems c) : k.replaceChild (holePar c) u v = k.setHole c v := by
  cases c with
  | nil => rfl
  | cons f c =>
    obtain ⟨-, -, hsib, -⟩ := h
    obtain ⟨d, x, b⟩ := f
    cases d with
    | left =>
      have hl : k.child .left x = some u := hu
      simp [replaceChild, holePar, setHole, hl]
    | right =>
      have hl : k.child .left x ≠ some u := by
        intro hl
        exact hnot (mem_ctxItems_cons.mpr (.inr (.inl (hsib.mem_of_ptr hl))))
      simp [replaceChild, holePar, setHole, hl]

@[simp] lemma root_guardedSetParent (p v : Option P) : (k.guardedSetParent p v).root = k.root := by
  cases p <;> rfl

@[simp] lemma child_guardedSetParent (p v : Option P) :
    (k.guardedSetParent p v).child = k.child := by
  cases p <;> rfl

@[simp] lemma parent_guardedSetParent (p v : Option P) (x : P) :
    (k.guardedSetParent p v).parent x = if p = some x then v else k.parent x := by
  cases p with
  | none => simp [guardedSetParent]
  | some y => simp [guardedSetParent, eq_comm]

omit [DecidableEq P] in
lemma Rep.ptr_unique {p' : Option P} (h : k.Rep par p s) (h' : k'.Rep par' p' s) : p = p' := by
  cases s with
  | nil => exact h.trans h'.symm
  | node l x r => exact h.1.trans h'.1.symm

/-- A node with a single child is unlinked: the child takes its place. -/
lemma rep_unlink (h : k.Rep none k.root (plug c (join d a n nil)))
    (hnd : (plug c (join d a n nil)).toList.Nodup)
    (hk' : k' = (((k.replaceChild (k.parent n) n (k.child d n)).guardedSetParent (k.child d n)
      (k.parent n)).clear n)) : k'.Rep none k'.root (plug c a) := by
  obtain ⟨hctx, hj⟩ := rep_plug.mp h
  obtain ⟨hptr, hpar, hra, -⟩ := rep_join.mp hj
  obtain ⟨hndj, hndc, hdisj⟩ := nodup_plug.mp hnd
  obtain ⟨hnda, -, hna, -, -⟩ := nodup_join.mp hndj
  have hnc : n ∉ ctxItems c := hdisj n (by simp)
  have hac : ∀ x ∈ a.toList, x ∉ ctxItems c := fun x hx => hdisj x (by simp [hx])
  rw [hpar, replaceChild_eq_setHole hctx hptr hnc] at hk'
  have hchild : ∀ x, x ≠ n → ∀ e, k'.child e x = (k.setHole c (k.child d n)).child e x := by
    intro x hx e
    simp [hk', clear, hx]
  refine rep_refill (v := k.child d n) hctx hndc ?_ (fun x hx => ?_) (fun x hx e => ?_) ?_
  · simp [hk', clear]
  · have hxn : x ≠ n := fun h => hnc (h ▸ hx)
    have hxa : k.child d n ≠ some x := fun h => hac x (hra.mem_of_ptr h) hx
    simp [hk', clear, hxn, hxa]
  · exact hchild x (fun h => hnc (h ▸ hx)) e
  · refine hra.reparent hnda (fun x hx hne => ?_) (fun x hx => ?_) (fun x hx e => ?_)
    · have hxn : x ≠ n := fun h => hna (h ▸ hx)
      simp [hk', clear, hxn, hne]
    · have hxn : x ≠ n := fun h => hna (h ▸ hra.mem_of_ptr hx)
      simp [hk', clear, hxn, hx]
    · rw [hchild x (fun h => hna (h ▸ hx)), child_setHole_of_notMem (hac x hx)]

/-- A node outside of the tree takes the place of the node `n`. -/
lemma rep_replace {l r : Shape P} {z : P} (h : k.Rep none k.root (plug c (node l n r)))
    (hnd : (plug c (node l n r)).toList.Nodup) (hz : z ∉ (plug c (node l n r)).toList)
    (hk' : k' = ((((((k.replaceChild (k.parent n) n (some z)).setParent z (k.parent n)).setChild
      .left z (k.child .left n)).guardedSetParent (k.child .left n) (some z)).setChild .right z
      (k.child .right n)).guardedSetParent (k.child .right n) (some z)).clear n) :
    k'.Rep none k'.root (plug c (node l z r)) := by
  obtain ⟨hctx, hptr, hpar, hrl, hrr⟩ := rep_plug.mp h
  obtain ⟨hndj, hndc, hdisj⟩ := nodup_plug.mp hnd
  obtain ⟨hndl, hndr, hnl, hnr, hlr⟩ := (nodup_join (d := .left)).mp hndj
  have hnc : n ∉ ctxItems c := hdisj n (by simp)
  simp only [mem_plug, toList_node, List.mem_append, List.mem_cons, not_or] at hz
  obtain ⟨⟨hzl, hzn, hzr⟩, hzc⟩ := hz
  rw [hpar, replaceChild_eq_setHole hctx hptr hnc] at hk'
  have hl : ∀ x, k.child .left n = some x → x ∈ l.toList := fun x hx => hrl.mem_of_ptr hx
  have hr : ∀ x, k.child .right n = some x → x ∈ r.toList := fun x hx => hrr.mem_of_ptr hx
  have hchild : ∀ x, x ≠ n → x ≠ z → ∀ e, k'.child e x = (k.setHole c (some z)).child e x := by
    intro x hxn hxz e
    simp [hk', clear, hxn, hxz]
  have hparent : ∀ x, x ≠ n → x ≠ z → k'.parent x = if k.child .right n = some x then some z else
      if k.child .left n = some x then some z else k.parent x := by
    intro x hxn hxz
    simp [hk', clear, hxn, hxz]
  -- the subtrees keep their child pointers
  have hsub : ∀ x, x ∈ l.toList ∨ x ∈ r.toList → x ≠ n ∧ x ≠ z ∧ ∀ e, k'.child e x = k.child e x := by
    intro x hx
    have hxn : x ≠ n := fun h => (h ▸ hx).elim hnl hnr
    have hxz : x ≠ z := fun h => (h ▸ hx).elim hzl hzr
    refine ⟨hxn, hxz, fun e => ?_⟩
    rw [hchild x hxn hxz, child_setHole_of_notMem (hdisj x (by simpa [hxn] using hx))]
  refine rep_refill (v := some z) hctx hndc ?_ (fun x hx => ?_) (fun x hx e => ?_) ⟨rfl, ?_, ?_, ?_⟩
  · simp [hk', clear]
  · rw [hparent x (fun h => hnc (h ▸ hx)) fun h => hzc (h ▸ hx),
      if_neg fun h => hdisj x (by simp [hr x h]) hx, if_neg fun h => hdisj x (by simp [hl x h]) hx]
  · exact hchild x (fun h => hnc (h ▸ hx)) (fun h => hzc (h ▸ hx)) e
  · have hzl' : k.child .left n ≠ some z := fun h => hzl (hl z h)
    have hzr' : k.child .right n ≠ some z := fun h => hzr (hr z h)
    simp [hk', clear, hzn, hzl', hzr']
  · have hc : k'.child .left z = k.child .left n := by simp [hk', clear, hzn]
    have hnot : ∀ x ∈ l.toList, k.child .right n ≠ some x := fun x hx h => hlr x hx (hr x h)
    rw [hc]
    refine hrl.reparent hndl (fun x hx hne => ?_) (fun x hx => ?_) fun x hx => (hsub x (.inl hx)).2.2
    · rw [hparent x (hsub x (.inl hx)).1 (hsub x (.inl hx)).2.1, if_neg (hnot x hx), if_neg hne]
    · have hxl := hsub x (.inl (hl x hx))
      rw [hparent x hxl.1 hxl.2.1, if_neg (hnot x (hl x hx)), if_pos hx]
  · have hc : k'.child .right z = k.child .right n := by simp [hk', clear, hzn]
    rw [hc]
    refine hrr.reparent hndr (fun x hx hne => ?_) (fun x hx => ?_) fun x hx => (hsub x (.inr hx)).2.2
    · rw [hparent x (hsub x (.inr hx)).1 (hsub x (.inr hx)).2.1, if_neg hne,
        if_neg fun h => hlr x (hl x h) hx]
    · have hxr := hsub x (.inr (hr x hx))
      rw [hparent x hxr.1 hxr.2.1, if_pos hx]

/-- Rotating the links rotates the represented shape. -/
lemma rep_rotate {b e : Shape P} {u : P}
    (h : k.Rep none k.root (plug (⟨d.flip, u, a⟩ :: c) (join d b n e)))
    (hnd : (plug (⟨d.flip, u, a⟩ :: c) (join d b n e)).toList.Nodup) :
    (k.rotate d n u).Rep none (k.rotate d n u).root (plug c (join d (join d a u b) n e)) := by
  obtain ⟨⟨hpu, hptr, hra, hctx⟩, hrj⟩ := rep_plug.mp h
  obtain ⟨hcu, hpn, hrb, hre⟩ := rep_join.mp hrj
  rw [plug_cons] at hnd
  obtain ⟨hj, hcnd, hdisj⟩ := nodup_plug.mp hnd
  obtain ⟨hj', hand, hun, hua, hda⟩ := nodup_join.mp hj
  obtain ⟨hbnd, hend, hnb, hne, hdb⟩ := nodup_join.mp hj'
  simp only [Side.flip_flip] at hra
  simp only [mem_join, not_or] at hun hda
  obtain ⟨hun, hub, hue⟩ := hun
  have huc : u ∉ ctxItems c := hdisj u (by simp)
  have hnc : n ∉ ctxItems c := hdisj n (by simp)
  have hvb : ∀ x, k.child d n = some x → x ∈ b.toList := fun x hv => hrb.mem_of_ptr hv
  -- the memory before the last write, which goes to the hole pointer of `c`
  set k5 := ((((k.guardedSetParent (k.child d n) (some u)).setChild d.flip u
    (k.child d n)).setParent u (some n)).setChild d n (some u)).setParent n (k.parent u) with hk5
  have hpar5 : ∀ x, x ≠ u → x ≠ n →
      k5.parent x = if k.child d n = some x then some u else k.parent x := by
    intro x hxu hxn
    simp [hk5, hxu, hxn]
  have hchild5 : ∀ x, x ≠ u → x ≠ n → ∀ d', k5.child d' x = k.child d' x := by
    intro x hxu hxn d'
    simp [hk5, hxu, hxn]
  have hctxne : ∀ x ∈ ctxItems c, x ≠ u ∧ x ≠ n :=
    fun x hx => ⟨fun h => huc (h ▸ hx), fun h => hnc (h ▸ hx)⟩
  have hchildc : ∀ x ∈ ctxItems c, ∀ d', k5.child d' x = k.child d' x :=
    fun x hx => hchild5 x (hctxne x hx).1 (hctxne x hx).2
  have hroot5 : k5.root = k.root := by simp [hk5]
  have hctx5 : k5.RepCtx c := by
    refine hctx.congr (fun _ => hroot5) (fun x hx => ?_) hchildc
    rw [hpar5 x (hctxne x hx).1 (hctxne x hx).2,
      if_neg fun hv => hdisj x (by simp [hvb x hv]) hx]
  have hrot : k.rotate d n u = k5.setHole c (some n) := by
    have hptr5 : k5.holePtr c = some u := by rw [holePtr_congr hroot5 hchildc, hptr]
    rw [← replaceChild_eq_setHole hctx5 hptr5 huc, ← hpu]
    rfl
  rw [hrot]
  refine rep_plug.mpr ⟨RepCtx.setHole hctx5 hcnd _, ?_⟩
  rw [holePtr_setHole]
  -- in the three subtrees only the root of `b` is written
  have hsub : ∀ x, x ∈ a.toList ∨ x ∈ b.toList ∨ x ∈ e.toList →
      (k5.setHole c (some n)).parent x = (if k.child d n = some x then some u else k.parent x) ∧
        ∀ d', (k5.setHole c (some n)).child d' x = k.child d' x := by
    intro x hx
    have hxu : x ≠ u := by
      rintro rfl
      tauto
    have hxn : x ≠ n := by
      rintro rfl
      tauto
    have hxc : x ∉ ctxItems c := hdisj x (by simp only [mem_join]; tauto)
    refine ⟨?_, fun d' => ?_⟩
    · rw [parent_setHole, hpar5 x hxu hxn]
    · rw [child_setHole_of_notMem hxc, hchild5 x hxu hxn]
  refine rep_join.mpr ⟨rfl, ?_, rep_join.mpr ⟨?_, ?_, ?_, ?_⟩, ?_⟩
  · rw [parent_setHole, hk5]
    simp [hpu]
  · rw [child_setHole_of_notMem hnc]
    simp [hk5]
  · rw [parent_setHole, hk5]
    simp [hun]
  · -- the subtree `a` stays below `u`
    have h5 : (k5.setHole c (some n)).child d u = k.child d u := by
      rw [child_setHole_of_notMem huc]
      simp [hk5, hun]
    rw [h5]
    refine hra.congr (fun x hx => ?_) fun x hx => (hsub x (.inl hx)).2
    rw [(hsub x (.inl hx)).1, if_neg fun hv => hda x (.inr (.inl (hvb x hv))) hx]
  · -- the subtree `b` moves from `n` to `u`
    have h5 : (k5.setHole c (some n)).child d.flip u = k.child d n := by
      rw [child_setHole_of_notMem huc]
      simp [hk5]
    rw [h5]
    refine hrb.reparent hbnd (fun x hx hne' => ?_) (fun x hx => ?_) fun x hx =>
      (hsub x (.inr (.inl hx))).2
    · rw [(hsub x (.inr (.inl hx))).1, if_neg hne']
    · rw [(hsub x (.inr (.inl (hvb x hx)))).1, if_pos hx]
  · -- the subtree `e` stays below `n`
    have h5 : (k5.setHole c (some n)).child d.flip n = k.child d.flip n := by
      rw [child_setHole_of_notMem hnc]
      simp [hk5, Ne.symm hun]
    rw [h5]
    refine hre.congr (fun x hx => ?_) fun x hx => (hsub x (.inr (.inr hx))).2
    rw [(hsub x (.inr (.inr hx))).1, if_neg fun hv => hdb x (hvb x hv) hx]

end Links

end Northport.Lib
