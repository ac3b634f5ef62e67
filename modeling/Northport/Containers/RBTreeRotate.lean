/-
# Links and aggregates of the red-black tree

The invariant that the rebalancing code keeps at every step: the pointers describe a
shape, and the aggregate of every node is the product of the values of its subtree.  A
rotation keeps both; `AggregatePath` restores the second after the subtree in the hole
of a context was replaced, although it stops at the first node that does not change.
-/
import Northport.Containers.RBTree

namespace Northport.RBTree

open Lib Lib.Shape Lib.Links

variable {P D C M : Type} [DecidableEq P]

/-- What the tree relies on when it aggregates with `A`: the aggregate of a node is the
product, in symmetric order, of its own value and the aggregates of its children; nothing
else of the node changes, and nothing at all when `A` reports no change. -/
structure AggLaws (A : Aggregator D) (C M : Type) where
  core : D → C
  val : C → M
  cached : D → M
  op : M → M → M
  one : M
  op_assoc : ∀ a b c, op (op a b) c = op a (op b c)
  one_op : ∀ a, op one a = a
  op_one : ∀ a, op a one = a
  core_agg : ∀ d l r, core (A d l r).1 = core d
  cached_agg : ∀ d l r,
    cached (A d l r).1 = op (op (l.elim one cached) (val (core d))) (r.elim one cached)
  unchanged : ∀ d l r, (A d l r).2 = false → (A d l r).1 = d

/-- The null aggregator, with no aggregate at all. -/
def nullLaws (D : Type) : AggLaws (nullAggregate D) D Unit where
  core := id
  val := fun _ => ()
  cached := fun _ => ()
  op := fun _ _ => ()
  one := ()
  op_assoc := fun _ _ _ => rfl
  one_op := fun _ => rfl
  op_one := fun _ => rfl
  core_agg := fun _ _ _ => rfl
  cached_agg := fun _ _ _ => rfl
  unchanged := fun _ _ _ _ => rfl

variable {A : Aggregator D} (W : AggLaws A C M)

namespace AggLaws

/-- The product of the values of a subtree. -/
def sum (t : Tree P D) (s : Shape P) : M := s.fold W.op W.one fun p => W.val (W.core (t.item p))

/-- The product for a node with `v` on side `d` and `b` on the other side. -/
def joinSum (d : Side) (v x b : M) : M :=
  match d with
  | .left => W.op (W.op v x) b
  | .right => W.op (W.op b x) v

/-- The aggregate of every node of `s` is the product of its subtree. -/
def Agg (t : Tree P D) : Shape P → Prop
  | nil => True
  | node l x r => W.cached (t.item x) = W.sum t (node l x r) ∧ Agg t l ∧ Agg t r

/-- The aggregates of a context are right for a hole with the product `v`. -/
def AggCtx (t : Tree P D) : List (Frame P) → M → Prop
  | [], _ => True
  | f :: c, v =>
      W.cached (t.item f.item) =
          W.joinSum f.side v (W.val (W.core (t.item f.item))) (W.sum t f.sib) ∧
        W.Agg t f.sib ∧ AggCtx t c (W.cached (t.item f.item))

/-- Everything but the hooks and the aggregates is the same in two memories. -/
def SameCore (t t' : Tree P D) : Prop := ∀ p, W.core (t'.item p) = W.core (t.item p)

omit [DecidableEq P]

variable {W} {t t' : Tree P D} {s : Shape P} {c : List (Frame P)}

lemma sum_join (d : Side) (a b : Shape P) (x : P) :
    W.sum t (join d a x b) = W.joinSum d (W.sum t a) (W.val (W.core (t.item x))) (W.sum t b) := by
  cases d <;> rfl

lemma sum_congr (h : ∀ p ∈ s.toList, W.core (t'.item p) = W.core (t.item p)) :
    W.sum t' s = W.sum t s :=
  fold_congr fun p hp => by rw [h p hp]

/-- The product depends on the labels in symmetric order only. -/
lemma sum_eq_of_toList {s' : Shape P} (h : s.toList = s'.toList) : W.sum t s = W.sum t s' := by
  rw [sum, sum, fold_eq_foldl _ W.op_assoc W.one_op W.op_one,
    fold_eq_foldl _ W.op_assoc W.one_op W.op_one, h]

lemma agg_join {d : Side} {a b : Shape P} {x : P} :
    W.Agg t (join d a x b) ↔
      W.cached (t.item x) = W.sum t (join d a x b) ∧ W.Agg t a ∧ W.Agg t b := by
  cases d with
  | left => rfl
  | right =>
    simp only [join, Agg]
    tauto

lemma agg_plug : W.Agg t (plug c s) ↔ W.AggCtx t c (W.sum t s) ∧ W.Agg t s := by
  induction c generalizing s with
  | nil => simp [AggCtx]
  | cons f c ih =>
    rw [plug_cons, ih, agg_join, sum_join]
    constructor
    · rintro ⟨h1, h2, h3, h4⟩
      exact ⟨⟨h2, h4, by rw [h2]; exact h1⟩, h3⟩
    · rintro ⟨⟨h1, h2, h3⟩, h4⟩
      exact ⟨by rw [← h1]; exact h3, h1, h4, h2⟩

lemma Agg.congr (h : W.Agg t s) (hitem : ∀ p ∈ s.toList, t'.item p = t.item p) : W.Agg t' s := by
  induction s with
  | nil => trivial
  | node l x r ihl ihr =>
    obtain ⟨hx, hl, hr⟩ := h
    have hsum : W.sum t' (node l x r) = W.sum t (node l x r) :=
      sum_congr fun p hp => by rw [hitem p hp]
    exact ⟨by rw [hsum, hitem x (by simp), hx], ihl hl (fun p hp => hitem p (by simp [hp])),
      ihr hr (fun p hp => hitem p (by simp [hp]))⟩

lemma AggCtx.congr {v : M} (h : W.AggCtx t c v)
    (hitem : ∀ p ∈ ctxItems c, t'.item p = t.item p) : W.AggCtx t' c v := by
  induction c generalizing v with
  | nil => trivial
  | cons f c ih =>
    obtain ⟨hx, hs, hc⟩ := h
    have hf : t'.item f.item = t.item f.item := hitem _ (mem_ctxItems_cons.mpr (.inl rfl))
    have hsib : ∀ p ∈ f.sib.toList, t'.item p = t.item p :=
      fun p hp => hitem p (mem_ctxItems_cons.mpr (.inr (.inl hp)))
    refine ⟨?_, hs.congr hsib, ?_⟩
    · rw [hf, hx, sum_congr (fun p hp => by rw [hsib p hp])]
    · rw [hf]
      exact ih hc (fun p hp => hitem p (mem_ctxItems_cons.mpr (.inr (.inr hp))))

/-- The aggregate that a parent reads through a child pointer. -/
lemma elim_cached {k : Links P} {par p : Option P} (h : k.Rep par p s) (hs : W.Agg t s) :
    (p.map t.item).elim W.one W.cached = W.sum t s := by
  cases s with
  | nil =>
    have h0 : p = none := h
    rw [h0]
    rfl
  | node l x r =>
    rw [h.1]
    exact hs.1

end AggLaws

namespace Tree

open AggLaws

/-- The invariant of the links and the aggregates. -/
structure Ok (t : Tree P D) (s : Shape P) : Prop where
  rep : t.links.Rep none t.links.root s
  nodup : s.toList.Nodup
  agg : W.Agg t s

/-- What rebalancing leaves alone: the threading and the nodes themselves. -/
structure Same (t t' : Tree P D) : Prop where
  predecessor : t'.predecessor = t.predecessor
  successor : t'.successor = t.successor
  core : W.SameCore t t'

variable {W} {t t' t'' : Tree P D} {s : Shape P} {c : List (Frame P)}

omit [DecidableEq P] in
lemma Same.refl (t : Tree P D) : Same W t t := ⟨rfl, rfl, fun _ => rfl⟩

omit [DecidableEq P] in
lemma Same.trans (h : Same W t t') (h' : Same W t' t'') : Same W t t'' :=
  ⟨h'.predecessor.trans h.predecessor, h'.successor.trans h.successor,
    fun p => (h'.core p).trans (h.core p)⟩

section

variable (t : Tree P D)

section

variable (p : P) (v : ColorType)

@[simp] lemma links_setColor : (t.setColor p v).links = t.links := rfl

@[simp] lemma item_setColor : (t.setColor p v).item = t.item := rfl

@[simp] lemma predecessor_setColor : (t.setColor p v).predecessor = t.predecessor := rfl

@[simp] lemma successor_setColor : (t.setColor p v).successor = t.successor := rfl

end

@[simp] lemma color_setColor (p q : P) (v : ColorType) :
    (t.setColor p v).color q = if q = p then v else t.color q := by
  simp [setColor, Function.update_apply]

@[simp] lemma getChild_setColor (p q : P) (v : ColorType) (d : Side) :
    (t.setColor p v).getChild d q = t.getChild d q := rfl

@[simp] lemma getParent_setColor (p q : P) (v : ColorType) :
    (t.setColor p v).getParent q = t.getParent q := rfl

lemma same_setColor (p : P) (v : ColorType) : Same W t (t.setColor p v) :=
  ⟨rfl, rfl, fun _ => rfl⟩

end

lemma Ok.setColor (h : Ok W t s) (p : P) (v : ColorType) : Ok W (t.setColor p v) s :=
  ⟨h.rep, h.nodup, h.agg.congr fun _ _ => rfl⟩

section

variable (t : Tree P D) (p : P)

@[simp] lemma links_aggregateNode : (t.aggregateNode A p).links = t.links := rfl

@[simp] lemma color_aggregateNode : (t.aggregateNode A p).color = t.color := rfl

@[simp] lemma predecessor_aggregateNode : (t.aggregateNode A p).predecessor = t.predecessor := rfl

@[simp] lemma successor_aggregateNode : (t.aggregateNode A p).successor = t.successor := rfl

end

lemma item_aggregateNode (t : Tree P D) (p q : P) :
    (t.aggregateNode A p).item q = if q = p then (t.aggregateOf A p).1 else t.item q := by
  simp [aggregateNode, setItem, Function.update_apply]

variable (W) {d : Side} in
lemma same_aggregateNode (t : Tree P D) (p : P) : Same W t (t.aggregateNode A p) := by
  refine ⟨rfl, rfl, fun q => ?_⟩
  rw [item_aggregateNode]
  split_ifs with h
  · subst h
    exact W.core_agg _ _ _
  · rfl

/-- Aggregating a node whose children are right makes it right. -/
lemma agg_aggregateNode {a b : Shape P} {x : P} {par p : Option P}
    (hrep : t.links.Rep par p (join d a x b)) (hnd : (join d a x b).toList.Nodup) (ha : W.Agg t a)
    (hb : W.Agg t b) : W.Agg (t.aggregateNode A x) (join d a x b) := by
  obtain ⟨-, -, hxa, hxb, -⟩ := nodup_join.mp hnd
  have hne : ∀ {q : P} {s : Shape P}, x ∉ s.toList → q ∈ s.toList →
      (t.aggregateNode A x).item q = t.item q := by
    intro q s hx hq
    rw [item_aggregateNode, if_neg]
    rintro rfl
    exact hx hq
  refine agg_join.mpr ⟨?_, ha.congr fun q hq => hne hxa hq, hb.congr fun q hq => hne hxb hq⟩
  rw [sum_congr fun q _ => (same_aggregateNode W t x).core q, item_aggregateNode, if_pos rfl,
    sum_join, aggregateOf, W.cached_agg]
  obtain ⟨-, -, hra, hrb⟩ := rep_join.mp hrep
  cases d with
  | left =>
    have hl := elim_cached hra ha
    have hr := elim_cached hrb hb
    rw [Side.flip] at hr
    rw [getLeft, getRight, getChild, getChild, hl, hr]
    rfl
  | right =>
    have hl := elim_cached hrb hb
    have hr := elim_cached hra ha
    rw [Side.flip] at hl
    rw [getLeft, getRight, getChild, getChild, hl, hr]
    rfl

/-- **`AggregatePath` repairs a context.**  When the subtree in the hole and the context
are right, each for itself, the loop that starts at the parent of the hole makes the whole
tree right; an early exit is taken only where the value in the hole did not change. -/
lemma aggregatePath_spec {v : M} {fuel : ℕ} (hfuel : c.length ≤ fuel)
    (hrep : t.links.Rep none t.links.root (plug c s)) (hnd : (plug c s).toList.Nodup)
    (hs : W.Agg t s) (hc : W.AggCtx t c v) :
    ∃ t', aggregatePath A fuel t (holePar c) = some t' ∧ Ok W t' (plug c s) ∧
      t'.links = t.links ∧ t'.color = t.color ∧ Same W t t' := by
  induction c generalizing t s v fuel with
  | nil => exact ⟨t, by simp [holePar, aggregatePath], ⟨hrep, hnd, hs⟩, rfl, rfl, Same.refl t⟩
  | cons f c ih =>
    obtain ⟨fuel, rfl⟩ : ∃ k, fuel = k + 1 := ⟨fuel - 1, by simp at hfuel; omega⟩
    obtain ⟨-, hsib, hc'⟩ := hc
    rw [plug_cons] at hrep hnd
    obtain ⟨-, hrep'⟩ := rep_plug.mp hrep
    obtain ⟨hndj, -, hdisj⟩ := nodup_plug.mp hnd
    have hagg := agg_aggregateNode hrep' hndj hs hsib
    have hctx : W.AggCtx (t.aggregateNode A f.item) c (W.cached (t.item f.item)) := by
      refine hc'.congr fun p hp => ?_
      rw [item_aggregateNode, if_neg]
      rintro rfl
      exact hdisj _ (by simp) hp
    have hpar : t.links.parent f.item = holePar c := (rep_join.mp hrep').2.1
    rw [holePar, aggregatePath]
    cases hflag : (t.aggregateOf A f.item).2 with
    | true =>
      have hfuel' : c.length ≤ fuel := by simpa using hfuel
      obtain ⟨t', h1, h2, h3, h4, h5⟩ := ih (t := t.aggregateNode A f.item)
        hfuel' hrep hnd hagg hctx
      refine ⟨t', ?_, h2, h3, h4, (same_aggregateNode W t f.item).trans h5⟩
      rw [getParent, links_aggregateNode, hpar]
      exact h1
    | false =>
      refine ⟨t.aggregateNode A f.item, by simp, ⟨hrep, hnd, ?_⟩, rfl, rfl,
        same_aggregateNode W t f.item⟩
      -- the node did not change, so the value in the hole of `c` is the old one
      have hitem : (t.aggregateNode A f.item).item f.item = t.item f.item := by
        rw [item_aggregateNode, if_pos rfl]
        exact W.unchanged _ _ _ hflag
      rw [plug_cons]
      refine agg_plug.mpr ⟨?_, hagg⟩
      rw [← (agg_join.mp hagg).1, hitem]
      exact hctx

/-! ### Rotation -/

section

variable (t : Tree P D) (p v : Option P)

@[simp] lemma links_guarded_setParent :
    (t.guarded p fun t p => t.setParent p v).links = t.links.guardedSetParent p v := by
  cases p <;> rfl

@[simp] lemma color_guarded_setParent :
    (t.guarded p fun t p => t.setParent p v).color = t.color := by
  cases p <;> rfl

@[simp] lemma item_guarded_setParent :
    (t.guarded p fun t p => t.setParent p v).item = t.item := by
  cases p <;> rfl

@[simp] lemma predecessor_guarded_setParent :
    (t.guarded p fun t p => t.setParent p v).predecessor = t.predecessor := by
  cases p <;> rfl

@[simp] lemma successor_guarded_setParent :
    (t.guarded p fun t p => t.setParent p v).successor = t.successor := by
  cases p <;> rfl

end

/-- A rotation is a rotation of the links followed by two aggregations. -/
lemma rotate_eq {n u : P} (hu : t.links.parent n = some u) :
    rotate A d t n =
      some ((aggregateNode A { t with links := t.links.rotate d n u } u).aggregateNode A n) := by
  rw [rotate, getParent, hu]
  simp only [Option.bind_eq_bind, Option.bind_some, getChild, getParent, Links.rotate]
  cases t.links.child d n <;> rfl

omit [DecidableEq P] in
lemma toList_rotate (d : Side) (a b e : Shape P) (u n : P) (c : List (Frame P)) :
    (plug c (join d (join d a u b) n e)).toList
      = (plug (⟨d.flip, u, a⟩ :: c) (join d b n e)).toList := by
  rw [plug_cons, toList_plug, toList_plug]
  cases d <;> simp [join, Side.flip]

/-- **A rotation keeps the invariant**, the symmetric order and the colours. -/
lemma rotate_spec {a b e : Shape P} {u n : P}
    (h : Ok W t (plug (⟨d.flip, u, a⟩ :: c) (join d b n e))) :
    ∃ t', rotate A d t n = some t' ∧ Ok W t' (plug c (join d (join d a u b) n e)) ∧
      t'.color = t.color ∧ Same W t t' := by
  obtain ⟨hrep, hnd, hagg⟩ := h
  have hu : t.links.parent n = some u := (rep_join.mp (rep_plug.mp hrep).2).2.1
  have hnd' : (plug c (join d (join d a u b) n e)).toList.Nodup := by
    rw [toList_rotate]
    exact hnd
  have hlinks := Links.rep_rotate hrep hnd
  obtain ⟨hndj, -, hdisj⟩ := nodup_plug.mp hnd'
  obtain ⟨hndu, -, hnau, hne, -⟩ := nodup_join.mp hndj
  have hae : u ∉ e.toList := (nodup_join.mp hndj).2.2.2.2 u (by simp)
  -- the aggregates of `a`, `b`, `e` and of the context are untouched
  obtain ⟨hctx, haggj⟩ := agg_plug.mp hagg
  obtain ⟨hcn, hb, he⟩ := agg_join.mp haggj
  obtain ⟨hcu, ha, hctx⟩ := hctx
  set t1 : Tree P D := { t with links := t.links.rotate d n u } with ht1
  have hrepj := (rep_plug.mp hlinks).2
  have hrepu := (rep_join.mp hrepj).2.2.1
  have hu1 : W.Agg (t1.aggregateNode A u) (join d a u b) :=
    agg_aggregateNode (t := t1) hrepu hndu (ha.congr fun _ _ => rfl) (hb.congr fun _ _ => rfl)
  have he1 : W.Agg (t1.aggregateNode A u) e := by
    refine he.congr fun p hp => ?_
    rw [item_aggregateNode, if_neg]
    rintro rfl
    exact hae hp
  have hn1 := agg_aggregateNode (t := t1.aggregateNode A u) hrepj hndj hu1 he1
  have hlinked : Same W t t1 := ⟨rfl, rfl, fun _ => rfl⟩
  have hsame : Same W t ((t1.aggregateNode A u).aggregateNode A n) :=
    (hlinked.trans (same_aggregateNode W t1 u)).trans (same_aggregateNode W _ n)
  refine ⟨(t1.aggregateNode A u).aggregateNode A n, rotate_eq hu, ⟨hlinks, hnd', ?_⟩, rfl, hsame⟩
  refine agg_plug.mpr ⟨?_, hn1⟩
  -- the product of the rotated subtree is the old product below `u`
  have hsum : W.sum ((t1.aggregateNode A u).aggregateNode A n) (join d (join d a u b) n e)
      = W.cached (t.item u) := by
    have h1 : W.sum ((t1.aggregateNode A u).aggregateNode A n) (join d (join d a u b) n e)
        = W.sum t (join d (join d a u b) n e) := sum_congr fun p _ => hsame.core p
    have h2 : (join d (join d a u b) n e).toList
        = (join d.flip (join d b n e) u a).toList := by
      cases d <;> simp [join, Side.flip]
    rw [h1, sum_eq_of_toList h2, sum_join]
    exact hcu.symm
  rw [hsum]
  refine hctx.congr fun p hp => ?_
  rw [item_aggregateNode, if_neg, item_aggregateNode, if_neg]
  · rintro rfl
    exact hdisj _ (by simp) hp
  · rintro rfl
    exact hdisj _ (by simp) hp

end Tree

end Northport.RBTree
