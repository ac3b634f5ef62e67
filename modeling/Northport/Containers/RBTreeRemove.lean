/-
# Removal from the red-black tree

A node with at most one child is unlinked after the colours around it were repaired; a
node with two children lets its predecessor be unlinked, which then takes its place.
-/
import Northport.Containers.RBTreeFixRemove

namespace Northport.RBTree

open Lib Lib.Shape Lib.Links Function

namespace Tree

open AggLaws

variable {P D C M K : Type} [DecidableEq P] [LinearOrder K] {A : Aggregator D}
  {W : AggLaws A C M} {key : C → K} {t t' : Tree P D} {s : Shape P} {c : List (Frame P)}
  {a l r : Shape P} {d : Side} {fuel : ℕ} {n z : P}

/-- The result of a removal: the nodes that remain, in order. -/
def Removed (W : AggLaws A C M) (key : C → K) (t t' : Tree P D) (l : List P) : Prop :=
  ∃ s', IsTree W key t' s' ∧ s'.toList = l ∧ W.SameCore t t'

omit [DecidableEq P] in
lemma Ok.congr (h : Ok W t s) (hlinks : t'.links = t.links) (hitem : t'.item = t.item) :
    Ok W t' s where
  rep := by
    rw [hlinks]
    exact h.rep
  nodup := h.nodup
  agg := h.agg.congr fun p _ => by rw [hitem]

/-- The colours are repaired for the tree without `n`, whose only child `a` is. -/
lemma fixHalfLeaf_spec {m : ℕ} (hfuel : c.length < fuel) (h : Ok W t (plug c (join d a n nil)))
    (hb : t.Bal (plug c (join d a n nil)) false m) :
    ∃ t' c' k, fixHalfLeaf A fuel t n (t.getChild d n) = some t' ∧
      Ok W t' (plug c' (join d a n nil)) ∧ t'.Bal a false k ∧ t'.CtxBal c' k ∧
      before c' = before c ∧ after c' = after c ∧ Same W t t' := by
  obtain ⟨-, hj⟩ := rep_plug.mp h.rep
  obtain ⟨-, -, hrepa, -⟩ := rep_join.mp hj
  obtain ⟨hndj, -, hdisj⟩ := nodup_plug.mp h.nodup
  obtain ⟨b, i, hbj, hc, -⟩ := balanced_plug hb
  rcases balanced_join hbj with ⟨-, hn, ha, hnil⟩ | ⟨-, hn, j, ba, _, rfl, ha, hnil⟩
  · -- a red node is a leaf
    refine ⟨t, c, i, ?_, h, ha, hc, rfl, rfl, Same.refl t⟩
    simp [fixHalfLeaf, hn]
  · cases hnil
    have hred : t.isRed (t.getChild d n) = ba := isRed_eq hrepa ha
    cases ha with
    | @red al ar y _ hy hal har =>
      -- the red child becomes black in place of `n`
      have hchild : t.getChild d n = some y := hrepa.1
      obtain ⟨hnda, -, -, -, -⟩ := nodup_join.mp hndj
      obtain ⟨-, -, hyl, hyr, -⟩ := (nodup_join (d := .left)).mp hnda
      refine ⟨t.setColor y .black, c, 1, ?_, h.setColor _ _,
        Balanced.black (by simp) (Bal.setColor hal hyl) (Bal.setColor har hyr),
        CtxBal.setColor hc (hdisj y (by simp)), rfl, rfl, same_setColor t y .black⟩
      rw [hchild] at hred ⊢
      simp [fixHalfLeaf, hn, hred]
    | nil =>
      obtain ⟨l, r, hnode⟩ := exists_node d (nil : Shape P) n nil
      rw [hnode] at h
      obtain ⟨t', c', h1, h2, h3, hreb⟩ := fixRemove_spec hfuel h hc
      refine ⟨t', c', 0, ?_, by rw [hnode]; exact h2, Balanced.nil, h3, hreb.before_eq,
        hreb.after_eq, hreb.same⟩
      simp [fixHalfLeaf, hn, hred, h1]

omit [DecidableEq P] in
/-- The order of the nodes around a node with a single child. -/
lemma toList_halfLeaf (d : Side) (a : Shape P) (n : P) (c : List (Frame P)) :
    ∃ l₁ l₂, (plug c (join d a n nil)).toList = l₁ ++ n :: l₂ ∧ (plug c a).toList = l₁ ++ l₂ := by
  cases d with
  | left => exact ⟨before c ++ a.toList, after c, by simp [toList_plug, join], by simp [toList_plug]⟩
  | right => exact ⟨before c, a.toList ++ after c, by simp [toList_plug, join], by simp [toList_plug]⟩

omit [DecidableEq P] [LinearOrder K] in
lemma length_lt_of_plug (h : (plug c (node l n r)).toList.length ≤ fuel) : c.length < fuel := by
  have hle := length_le_ctxItems c
  simp only [ctxItems, toList_plug, toList_node, List.length_append, List.length_cons] at hle h
  omega

/-! ### The pointers of a removal -/

@[simp] lemma links_unthread (n : P) : (t.unthread n).links = t.links := by simp [unthread]

@[simp] lemma color_unthread (n : P) : (t.unthread n).color = t.color := by simp [unthread]

@[simp] lemma item_unthread (n : P) : (t.unthread n).item = t.item := by simp [unthread]

lemma predecessor_unthread (n x : P) : (t.unthread n).predecessor x =
    if t.successor n = some x then t.predecessor n else t.predecessor x := by
  simp [unthread, predecessor_guarded_setPredecessor]

lemma successor_unthread (n x : P) : (t.unthread n).successor x =
    if t.predecessor n = some x then t.successor n else t.successor x := by
  simp [unthread, successor_guarded_setSuccessor]

@[simp] lemma links_clearHook (n : P) : (t.clearHook n).links = t.links.clear n := rfl

@[simp] lemma color_clearHook (n : P) : (t.clearHook n).color = t.color := rfl

@[simp] lemma item_clearHook (n : P) : (t.clearHook n).item = t.item := rfl

lemma predecessor_clearHook (n x : P) : (t.clearHook n).predecessor x =
    if x = n then none else t.predecessor x := by
  simp [clearHook, update_apply]

lemma successor_clearHook (n x : P) : (t.clearHook n).successor x =
    if x = n then none else t.successor x := by
  simp [clearHook, update_apply]

@[simp] lemma links_unlink (n : P) (child : Option P) : (t.unlink n child).links =
    ((t.links.replaceChild (t.links.parent n) n child).guardedSetParent child
      (t.links.parent n)).clear n := by
  simp [unlink, getParent]

@[simp] lemma color_unlink (n : P) (child : Option P) : (t.unlink n child).color = t.color := by
  ext x
  simp [unlink]

@[simp] lemma item_unlink (n : P) (child : Option P) : (t.unlink n child).item = t.item := by
  ext x
  simp [unlink]

lemma predecessor_unlink (n x : P) (child : Option P) : (t.unlink n child).predecessor x =
    if x = n then none else t.predecessor x := by
  simp [unlink, predecessor_clearHook]

lemma successor_unlink (n x : P) (child : Option P) : (t.unlink n child).successor x =
    if x = n then none else t.successor x := by
  simp [unlink, successor_clearHook]

/-- **`RemoveHalfLeaf` keeps the invariant.** -/
lemma removeHalfLeaf_spec (h : IsTree W key t (plug c (join d a n nil)))
    (hfuel : (plug c (join d a n nil)).toList.length ≤ fuel) :
    ∃ t', removeHalfLeaf A fuel t n (t.getChild d n) = some t' ∧
      Removed W key t t' ((plug c (join d a n nil)).toList.erase n) := by
  obtain ⟨hok, hth, ⟨m, hb⟩, hsorted⟩ := h
  have hlen : ∀ c', (plug c' (join d a n nil)).toList = (plug c (join d a n nil)).toList →
      c'.length < fuel := by
    intro c' hc'
    rw [← hc'] at hfuel
    obtain ⟨l, r, hnode⟩ := exists_node d a n nil
    rw [hnode] at hfuel
    exact length_lt_of_plug hfuel
  obtain ⟨l₁, l₂, hl, hl'⟩ := toList_halfLeaf d a n c
  have hnd := hok.nodup
  rw [hl] at hth hnd hsorted
  obtain ⟨hnn, hnd'⟩ := List.nodup_cons.mp (List.nodup_middle.mp hnd)
  have hne : ∀ y ∈ l₁ ++ l₂, y ≠ n := fun y hy => ne_of_mem_of_not_mem hy hnn
  have hsub : List.Sublist (l₁ ++ l₂) (l₁ ++ n :: l₂) :=
    (List.sublist_cons_self n l₂).append_left l₁
  obtain ⟨hpn, hsn⟩ := hth.neighbours
  -- the colours
  have hok1 : Ok W (t.unthread n) (plug c (join d a n nil)) :=
    hok.congr (links_unthread n) (item_unthread n)
  obtain ⟨t2, c', k, hfix, hok2, ha2, hc2, hbef, haft, hsame2⟩ :=
    fixHalfLeaf_spec (hlen c rfl) hok1 (hb.congr fun x _ => by rw [color_unthread])
  have hctx : ∀ s : Shape P, (plug c' s).toList = (plug c s).toList := by
    intro s
    rw [toList_plug, toList_plug, hbef, haft]
  have hchild : (t.unthread n).getChild d n = t2.links.child d n :=
    ((rep_join.mp (rep_plug.mp hok1.rep).2).2.2.1).ptr_unique
      ((rep_join.mp (rep_plug.mp hok2.rep).2).2.2.1)
  -- the links
  have hrep3 : (t2.unlink n (t2.links.child d n)).links.Rep none
      (t2.unlink n (t2.links.child d n)).links.root (plug c' a) :=
    rep_unlink hok2.rep hok2.nodup (links_unlink n _)
  have hnd3 : (plug c' a).toList.Nodup := by
    rwa [hctx, hl']
  obtain ⟨hagg, haggj⟩ := agg_plug.mp hok2.agg
  obtain ⟨t4, h4, hok4, -, hcol4, hsame4⟩ := aggregatePath_spec (hlen c' (hctx _)).le hrep3 hnd3
    ((agg_join.mp haggj).2.1.congr fun _ _ => by rw [item_unlink])
    (hagg.congr fun _ _ => by rw [item_unlink])
  have hpar : t2.getParent n = holePar c' := (rep_join.mp (rep_plug.mp hok2.rep).2).2.1
  have hcore : W.SameCore t t4 := by
    intro x
    rw [hsame4.core x, item_unlink, hsame2.core x, item_unthread]
  have herase : (plug c (join d a n nil)).toList.erase n = l₁ ++ l₂ := by
    rw [hl, List.erase_append_right _ fun h => hnn (List.mem_append_left _ h), List.erase_cons_head]
  refine ⟨t4, ?_, plug c' a, ⟨hok4, ?_, ?_, ?_⟩, ?_, hcore⟩
  · have hchild' : t.getChild d n = t2.links.child d n := by
      rw [← hchild, getChild, getChild, links_unthread]
    rw [hchild] at hfix
    rw [removeHalfLeaf, hchild', hfix, Option.bind_eq_bind, Option.bind_some, hpar]
    exact h4
  · -- the threads
    rw [hctx, hl', hsame4.predecessor, hsame4.successor]
    refine hth.erase hnd' (fun y hy => ?_) (fun y hy => ?_)
    · rw [predecessor_unlink, if_neg (hne y hy), hsame2.predecessor, predecessor_unthread, hsn]
    · rw [successor_unlink, if_neg (hne y hy), hsame2.successor, successor_unthread, hpn]
  · refine CtxBal.plug (hc2.congr fun x _ => ?_) (ha2.congr fun x _ => ?_) (by simp)
    · rw [hcol4, color_unlink]
    · rw [hcol4, color_unlink]
  · rw [hctx, hl']
    exact Sorted.congr (List.Pairwise.sublist hsub hsorted) fun x _ => hcore x
  · rw [hctx, hl', herase]

lemma links_substitute (n z : P) : (t.substitute n z).links =
    ((((((t.links.replaceChild (t.links.parent n) n (some z)).setParent z
      (t.links.parent n)).setChild .left z (t.links.child .left n)).guardedSetParent
      (t.links.child .left n) (some z)).setChild .right z
      (t.links.child .right n)).guardedSetParent (t.links.child .right n) (some z)).clear n := by
  simp [substitute, getParent, getLeft, getRight, getChild]

lemma color_substitute (n z x : P) : (t.substitute n z).color x =
    if x = z then t.color n else t.color x := by
  simp [substitute]

@[simp] lemma item_substitute (n z : P) : (t.substitute n z).item = t.item := by
  ext x
  simp [substitute]

lemma predecessor_substitute (hz : n ≠ z) (hn : t.predecessor n ≠ some n) (x : P) :
    (t.substitute n z).predecessor x = if x = n then none else
      if t.successor n = some x then some z else
        if x = z then t.predecessor n else t.predecessor x := by
  simp [substitute, predecessor_clearHook, predecessor_guarded_setPredecessor,
    successor_guarded_setSuccessor, update_apply, hz, hn]

lemma successor_substitute (hn : t.predecessor n ≠ some n) (x : P) :
    (t.substitute n z).successor x = if x = n then none else
      if x = z then t.successor n else
        if t.predecessor n = some x then some z else t.successor x := by
  simp [substitute, successor_clearHook, successor_guarded_setSuccessor, update_apply, hn]

/-- **`ReplaceNode` keeps the invariant** when the key of the new node fits. -/
lemma replaceNode_spec (h : IsTree W key t (plug c (node l n r)))
    (hz : z ∉ (plug c (node l n r)).toList) (hfuel : (plug c (node l n r)).toList.length ≤ fuel)
    (hsorted : Sorted W key t (plug c (node l z r)).toList) :
    ∃ t', replaceNode A fuel t n z = some t' ∧ Removed W key t t' (plug c (node l z r)).toList := by
  obtain ⟨hok, hth, ⟨m, hb⟩, -⟩ := h
  obtain ⟨hctx, hptr, hpar, hrl, hrr⟩ := rep_plug.mp hok.rep
  have hl : (plug c (node l n r)).toList = (before c ++ l.toList) ++ n :: (r.toList ++ after c) := by
    simp [toList_plug]
  have hl' : (plug c (node l z r)).toList = (before c ++ l.toList) ++ z :: (r.toList ++ after c) := by
    simp [toList_plug]
  have hnd := hok.nodup
  have hz' := hz
  rw [hl] at hth hnd hz'
  have hsub : List.Sublist ((before c ++ l.toList) ++ (r.toList ++ after c))
      ((before c ++ l.toList) ++ n :: (r.toList ++ after c)) :=
    (List.sublist_cons_self n _).append_left _
  obtain ⟨hnn, hnd'⟩ := List.nodup_cons.mp (List.nodup_middle.mp hnd)
  have hnz : n ≠ z := fun h => hz' (by simp [h])
  obtain ⟨hpn, hsn⟩ := hth.neighbours
  have hpn' : t.predecessor n ≠ some n := by
    rw [hpn]
    exact getLast?_ne_of_notMem fun h => hnn (List.mem_append_left _ h)
  have hrep1 := rep_replace hok.rep hok.nodup hz (links_substitute n z)
  have hnd1 : (plug c (node l z r)).toList.Nodup := by
    rw [hl', List.nodup_middle, List.nodup_cons]
    exact ⟨fun h => hz' (hsub.subset h), hnd'⟩
  obtain ⟨hndj, -, hdisj⟩ := nodup_plug.mp hnd1
  -- the aggregates: first the new node, then the path above it
  obtain ⟨haggc, -, hl1, hr1⟩ := agg_plug.mp hok.agg
  have hagg1 : W.Agg ((t.substitute n z).aggregateNode A z) (node l z r) :=
    agg_aggregateNode (d := .left) (rep_plug.mp hrep1).2 hndj
      (hl1.congr fun _ _ => by rw [item_substitute]) (hr1.congr fun _ _ => by rw [item_substitute])
  have hctx1 : W.AggCtx ((t.substitute n z).aggregateNode A z) c
      (W.sum t (node l n r)) := by
    refine haggc.congr fun x hx => ?_
    rw [item_aggregateNode, if_neg, item_substitute]
    rintro rfl
    exact hdisj x (by simp) hx
  obtain ⟨t2, h2, hok2, -, hcol2, hsame2⟩ := aggregatePath_spec (length_lt_of_plug hfuel).le
    (t := (t.substitute n z).aggregateNode A z) hrep1 hnd1 hagg1 hctx1
  have hcore : W.SameCore t t2 := by
    intro x
    rw [hsame2.core x, (same_aggregateNode W (t.substitute n z) z).core x, item_substitute]
  have hcolor : ∀ x, t2.color x = if x = z then t.color n else t.color x := by
    intro x
    rw [hcol2, color_aggregateNode, color_substitute]
  refine ⟨t2, ?_, plug c (node l z r), ⟨hok2, ?_, ?_, hsorted.congr fun x _ => hcore x⟩, rfl, hcore⟩
  · have hpar' : t.getParent n = holePar c := hpar
    rw [replaceNode, hpar']
    exact h2
  · rw [hl', hsame2.predecessor, hsame2.successor, predecessor_aggregateNode,
      successor_aggregateNode]
    have hne : ∀ y ∈ before c ++ l.toList ++ (r.toList ++ after c), y ≠ n ∧ y ≠ z := fun y hy =>
      ⟨fun h => hnn (h ▸ hy), fun h => hz' (hsub.subset (h ▸ hy))⟩
    refine hth.replace hnd' ?_ ?_ (fun y hy => ?_) (fun y hy => ?_)
    · have hsz : t.successor n ≠ some z := by
        rw [hsn]
        exact head?_ne_of_notMem fun h => hz' (hsub.subset (List.mem_append_right _ h))
      simp [predecessor_substitute hnz hpn', Ne.symm hnz, hsz]
    · simp [successor_substitute hpn', Ne.symm hnz]
    · simp [predecessor_substitute hnz hpn', hne y hy, hsn]
    · simp [successor_substitute hpn', hne y hy, hpn]
  · -- the colour of `n` has moved to `z`
    obtain ⟨b, k, hbs, hbc, hbr⟩ := balanced_plug hb
    have hother : ∀ x, x ≠ z → t2.color x = t.color x := by
      intro x hx
      rw [hcolor, if_neg hx]
    obtain ⟨-, -, hzl, hzr, -⟩ := (nodup_join (d := .left)).mp hndj
    have hzc : z ∉ ctxItems c := hdisj z (by simp)
    have hsub : ∀ {s b i}, t.Bal s b i → z ∉ s.toList → t2.Bal s b i := fun h hz =>
      h.congr fun x hx => hother x (ne_of_mem_of_not_mem hx hz)
    have hbs' : t2.Bal (node l z r) b k := by
      cases hbs with
      | red hx hl hr =>
        exact Balanced.red (by simpa [hcolor] using hx) (hsub hl hzl) (hsub hr hzr)
      | black hx hl hr =>
        exact Balanced.black (by simpa [hcolor] using hx) (hsub hl hzl) (hsub hr hzr)
    refine CtxBal.plug (CtxBal.congr hbc fun x hx => hother x fun h => hzc (h ▸ hx)) hbs' ?_
    intro hbt
    have hbr' := hbr hbt
    cases c with
    | nil => exact hbr'
    | cons f c =>
      have hf : f.item ≠ z := fun h => hzc (mem_ctxItems_cons.mpr (Or.inl h.symm))
      exact (hother _ hf).trans hbr'

/-- A node with two children: its predecessor, which has no right child, takes its place. -/
lemma remove_inner (h : IsTree W key t (plug c (node l n r))) (hl : l ≠ nil)
    (hfuel : (plug c (node l n r)).toList.length ≤ fuel) :
    ∃ y t₁ t₂, t.predecessor n = some y ∧
      removeHalfLeaf A fuel t y (t.getLeft y) = some t₁ ∧ replaceNode A fuel t₁ n y = some t₂ ∧
      Removed W key t t₂ ((plug c (node l n r)).toList.erase n) := by
  obtain ⟨c₁, a, y, rfl, hright⟩ : ∃ c₁ a y, l = plug c₁ (node a y nil) ∧
      ∀ f ∈ c₁, f.side = .right := by
    cases l with
    | nil => exact absurd rfl hl
    | node ll lx lr => exact exists_plug_last ll lx lr
  -- the order is `L`, `y`, `n`, `R`
  obtain ⟨L, hL⟩ : ∃ L, L = before c ++ (before c₁ ++ a.toList) := ⟨_, rfl⟩
  obtain ⟨R, hR⟩ : ∃ R, R = r.toList ++ after c := ⟨_, rfl⟩
  have hlist : (plug c (node (plug c₁ (node a y nil)) n r)).toList = L ++ y :: n :: R := by
    simp [toList_plug, hL, hR, after_eq_nil_of_right hright]
  have hnd := h.ok.nodup
  have hth := h.threaded
  have hsorted := h.sorted
  rw [hlist] at hnd hth hsorted hfuel ⊢
  obtain ⟨hndL, hndR, hdL⟩ := List.nodup_append.mp hnd
  obtain ⟨hyR, hndR⟩ := List.nodup_cons.mp hndR
  have hyn : y ≠ n := fun h => hyR (by simp [h])
  have hyL : y ∉ L := fun hy => hdL y hy y (by simp) rfl
  have hnL : n ∉ L := fun hn => hdL n hn n (by simp) rfl
  have hpred : t.predecessor n = some y := by
    have hth' : Threaded t.predecessor t.successor none ((L ++ [y]) ++ n :: R) none := by
      simpa using hth
    rw [hth'.neighbours.1]
    simp
  -- the predecessor is unlinked
  have hplug : plug c (node (plug c₁ (node a y nil)) n r)
      = plug (c₁ ++ ⟨.left, n, r⟩ :: c) (join .left a y nil) := by
    rw [plug_append]
    rfl
  rw [hplug] at h hlist
  rw [← hlist] at hfuel
  obtain ⟨t₁, h1, s₁, htree₁, hlist₁, hcore₁⟩ := removeHalfLeaf_spec h hfuel
  rw [hlist] at hfuel
  rw [hlist, List.erase_append_right _ hyL, List.erase_cons_head] at hlist₁
  -- and takes the place of `n`
  obtain ⟨c₂, l₂, r₂, rfl⟩ := exists_plug_of_mem (s := s₁) (x := n) (by simp [hlist₁])
  obtain ⟨hL₂, hR₂⟩ : before c₂ ++ l₂.toList = L ∧ r₂.toList ++ after c₂ = R := by
    have heq : (before c₂ ++ l₂.toList) ++ n :: (r₂.toList ++ after c₂) = L ++ n :: R := by
      rw [← hlist₁, toList_plug]
      simp
    have hnd₂ := htree₁.ok.nodup
    rw [hlist₁, ← heq] at hnd₂
    obtain ⟨hn₂, hn₃⟩ := not_or.mp (List.mem_append.not.mp
      (List.nodup_cons.mp (List.nodup_middle.mp hnd₂)).1)
    obtain ⟨h3, -, h4⟩ := (List.append_cons_inj_of_notMem hn₂ hn₃).mp heq
    exact ⟨h3, h4⟩
  have hlist₂ : (plug c₂ (node l₂ y r₂)).toList = L ++ y :: R := by
    rw [← hL₂, ← hR₂, toList_plug]
    simp
  have hsub : List.Sublist (L ++ y :: R) (L ++ y :: n :: R) :=
    ((List.sublist_cons_self n R).cons_cons y).append_left L
  have hy₂ : y ∉ (plug c₂ (node l₂ n r₂)).toList := by
    rw [hlist₁, List.mem_append, not_or]
    exact ⟨hyL, hyR⟩
  have hlen₂ : (plug c₂ (node l₂ n r₂)).toList.length ≤ fuel := by
    rw [hlist₁]
    simp only [List.length_append, List.length_cons] at hfuel ⊢
    omega
  have hsorted₂ : Sorted W key t₁ (plug c₂ (node l₂ y r₂)).toList := by
    rw [hlist₂]
    exact Sorted.congr (List.Pairwise.sublist hsub hsorted) fun x _ => hcore₁ x
  obtain ⟨t₂, h2, s₂, htree₂, hlist₃, hcore₂⟩ := replaceNode_spec htree₁ hy₂ hlen₂ hsorted₂
  refine ⟨y, t₁, t₂, hpred, h1, h2, s₂, htree₂, ?_, fun x => (hcore₂ x).trans (hcore₁ x)⟩
  rw [hlist₃, hlist₂, List.erase_append_right _ hnL, List.erase_cons_tail (by simpa using hyn),
    List.erase_cons_head]

/-- **`Remove` keeps the invariant.** -/
theorem remove_spec (h : IsTree W key t s) (hn : n ∈ s.toList) (hfuel : s.toList.length ≤ fuel) :
    ∃ t', remove A fuel t n = some t' ∧ Removed W key t t' (s.toList.erase n) := by
  obtain ⟨c, l, r, rfl⟩ := exists_plug_of_mem hn
  obtain ⟨hctx, hptr, hpar, hrl, hrr⟩ := rep_plug.mp h.ok.rep
  cases l with
  | nil =>
    -- no left child
    have hl : t.getLeft n = none := hrl
    obtain ⟨t', h1, h2⟩ := removeHalfLeaf_spec (d := .right) (a := r) h hfuel
    refine ⟨t', ?_, h2⟩
    rw [remove, hl]
    exact h1
  | node ll lx lr =>
    have hl : t.getLeft n = some lx := hrl.1
    cases r with
    | nil =>
      -- no right child
      have hr : t.getRight n = none := hrr
      obtain ⟨t', h1, h2⟩ := removeHalfLeaf_spec (d := .left) h hfuel
      refine ⟨t', ?_, h2⟩
      rw [remove, hl, hr]
      rw [← getLeft, hl] at h1
      exact h1
    | node rl rx rr =>
      have hr : t.getRight n = some rx := hrr.1
      obtain ⟨y, t₁, t₂, hpred, h1, h2, hrem⟩ := remove_inner h (by simp) hfuel
      refine ⟨t₂, ?_, hrem⟩
      rw [remove, hl, hr]
      simp [hpred, h1, h2]

end Tree

end Northport.RBTree
