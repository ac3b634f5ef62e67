/-
# Insertion into the red-black tree

`FixInsert` walks up from a new red node and repairs the only possible violation, a red
parent.  The proof follows the recursion: the tree is a context around the current node,
and each round either stops or continues at the grandparent, two frames higher up.
-/
import Northport.Containers.RBTreeInvariant

namespace Northport.RBTree

open Lib Lib.Shape Lib.Links Balanced

namespace Tree

open AggLaws

variable {P D C M : Type}

variable {A : Aggregator D} {W : AggLaws A C M} {t t' : Tree P D} {s : Shape P}
  {c : List (Frame P)}

variable [DecidableEq P] {fuel k : ℕ} {n parent x : P} {d : Side} {l r : Shape P}
  {less : D → D → Bool}

/-! ### One round of `FixInsert` -/

lemma fixInsert_root (h : t.getParent n = none) :
    fixInsert A (fuel + 1) t n = some (t.setColor n .black) := by
  rw [fixInsert, h]

lemma fixInsert_black (h : t.getParent n = some parent) (hne : parent ≠ n)
    (hb : t.color parent = .black) : fixInsert A (fuel + 1) t n = some (t.setColor n .red) := by
  rw [fixInsert, h]
  simp [hne, hb]

/-- The two mirrored halves of `FixInsert`, for the side `d` of `grand` on which `parent`
hangs. -/
lemma fixInsert_red {grand : P} (h : t.getParent n = some parent) (hne : parent ≠ n)
    (hr : t.color parent = .red) (hg : t.getParent parent = some grand)
    (hd : t.getChild d grand = some parent) (hd' : t.getChild d.flip grand ≠ some parent) :
    fixInsert A (fuel + 1) t n =
      if (t.setColor n .red).isRed (t.getChild d.flip grand) then
        (t.getChild d.flip grand).bind fun uncle =>
          fixInsert A fuel ((((t.setColor n .red).setColor grand .red).setColor parent
            .black).setColor uncle .black) grand
      else (t.setColor n .red).fixInsertRotate A d n parent grand := by
  rw [fixInsert, h]
  cases d with
  | left =>
    simp only [Side.flip] at hd' ⊢
    by_cases hu : (t.setColor n .red).isRed (t.getChild .right grand) = true <;>
      simp [hne, hr, hg, getLeft, getRight, hd, hd', hu]
  | right =>
    simp only [Side.flip] at hd' ⊢
    by_cases hu : (t.setColor n .red).isRed (t.getChild .left grand) = true <;>
      simp [hne, hr, hg, getLeft, getRight, hd, hd', Ne.symm hd', hu]

/-- Two rotations or one: `fixInsertRotate` ends with a black node above two red ones. -/
lemma fixInsertRotate_spec {e : Side} {grand : P} {fs gs : Shape P}
    (h : Ok W t (plug (⟨e, parent, fs⟩ :: ⟨d, grand, gs⟩ :: c) (node l n r)))
    (hn : t.Bal (node l n r) true k) (hp : t.color parent = .red) (hfs : t.Bal fs false k)
    (hgs : t.Bal gs false k) (hc : t.CtxBal c (k + 1)) :
    ∃ t' s', t.fixInsertRotate A d n parent grand = some t' ∧ Ok W t' s' ∧
      s'.toList = (plug (⟨e, parent, fs⟩ :: ⟨d, grand, gs⟩ :: c) (node l n r)).toList ∧
      (∃ m, t'.Bal s' false m) ∧ Same W t t' := by
  obtain ⟨⟨-, -, hrepf, -⟩, hptr, -⟩ := rep_plug.mp h.rep
  obtain ⟨hndg, -, hdisj⟩ := (nodup_plug (c := c)).mp h.nodup
  obtain ⟨hndp, -, hgp, hggs, hpgs⟩ := nodup_join.mp hndg
  obtain ⟨hndn, -, hpn, hpfs, hnfs⟩ := nodup_join.mp hndp
  simp only [mem_join, not_or] at hgp hpgs
  obtain ⟨hgp, hgn, hgfs⟩ := hgp
  rcases Side.eq_or_eq_flip d e with rfl | rfl
  · -- `n` is an outer grandchild: its parent is rotated up
    have hcond : some n ≠ t.getChild e.flip parent := fun h =>
      hnfs n (by simp) (hrepf.mem_of_ptr h.symm)
    have h0 : Ok W t (plug (⟨e.flip.flip, grand, gs⟩ :: c)
        (join e.flip fs parent (node l n r))) := by
      rw [Side.flip_flip, join_flip]
      exact h
    obtain ⟨t1, hr1, hok1, hcol1, hsame1⟩ := rotate_spec h0
    refine ⟨(t1.setColor parent .black).setColor grand .red, _, ?_, (hok1.setColor _ _).setColor _ _,
      ?_, ?_, (hsame1.trans (same_setColor _ _ _)).trans (same_setColor _ _ _)⟩
    · simp [fixInsertRotate, hcond, hr1]
    · rw [toList_rotate, Side.flip_flip, plug_cons, join_flip]
      rfl
    · refine CtxBal.plug (hc.recolor hcol1 (hdisj parent (by simp)) (hdisj grand (by simp)))
        (join_black (by simp [Ne.symm hgp]) (join_red (by simp)
        (hgs.recolor hcol1 (hpgs _ (.inl rfl)) hggs) (hfs.recolor hcol1 hpfs hgfs))
        (hn.recolor hcol1 hpn hgn)) (by simp)
  · -- `n` is an inner grandchild: it is rotated up twice
    have hcond : some n = t.getChild d.flip parent := hptr.symm
    obtain ⟨a, b, hab⟩ := exists_join d l n r
    rw [hab] at h hn hndn ⊢
    obtain ⟨-, hcol, ha, hb⟩ := (balanced_join hn).resolve_right (by simp)
    obtain ⟨-, -, hna, hnb, -⟩ := nodup_join.mp hndn
    obtain ⟨t1, hr1, hok1, hcol1, hsame1⟩ := rotate_spec h
    have h1 : Ok W t1 (plug (⟨d.flip.flip, grand, gs⟩ :: c)
        (join d.flip b n (join d fs parent a))) := by
      rw [Side.flip_flip, join_flip]
      exact hok1
    obtain ⟨t2, hr2, hok2, hcol2, hsame2⟩ := rotate_spec h1
    refine ⟨(t2.setColor n .black).setColor grand .red, _, ?_, (hok2.setColor _ _).setColor _ _,
      ?_, ?_, ((hsame1.trans hsame2).trans (same_setColor _ _ _)).trans (same_setColor _ _ _)⟩
    · simp [fixInsertRotate, hcond, hr1, hr2]
    · rw [toList_rotate, Side.flip_flip, join_flip, toList_rotate]
    · have hcol : t2.color = t.color := hcol2.trans hcol1
      rw [hab] at hpn hgn
      simp only [mem_join, not_or] at hpn hgn
      refine CtxBal.plug (hc.recolor hcol (hdisj n (by simp)) (hdisj grand (by simp)))
        (join_black (by simp [Ne.symm hgn.1]) (join_red (by simp)
        (hgs.recolor hcol (hpgs n (by simp)) hggs) (Bal.recolor hb hcol hnb hgn.2.2))
        (join_red ?_ (hfs.recolor hcol (hnfs n (by simp)) hgfs)
          (Bal.recolor ha hcol hna hgn.2.1))) (by simp)
      simp [hpn.1, Ne.symm hgp, hcol, hp]

/-- A red uncle: after the recolouring the grandparent is a red node whose subtree is
balanced, in an unchanged context. -/
lemma uncle_recolor {f g : Frame P} (hnd : (plug (f :: g :: c) (node l n r)).toList.Nodup)
    (hn : t.Bal (node l n r) true k) (hfs : t.Bal f.sib false k) (hgs : t.Bal g.sib true k)
    (hc : t.CtxBal c (k + 1)) :
    ∃ ul u ur, g.sib = node ul u ur ∧
      (((t.setColor g.item .red).setColor f.item .black).setColor u .black).Bal
        (join g.side (join f.side (node l n r) f.item f.sib) g.item g.sib) true (k + 1) ∧
      (((t.setColor g.item .red).setColor f.item .black).setColor u .black).CtxBal c (k + 1) := by
  obtain ⟨hndg, -, hdisj⟩ := (nodup_plug (c := c)).mp hnd
  obtain ⟨hndf, hndgs, hgf, hggs, hfgs⟩ := nodup_join.mp hndg
  obtain ⟨-, -, hfn, hffs, -⟩ := nodup_join.mp hndf
  simp only [mem_join, not_or] at hgf hfgs
  obtain ⟨hgf, hgn, hgfs⟩ := hgf
  generalize hsib : g.sib = gs at *
  cases hgs with
  | @red ul ur u _ hu hul hur =>
    obtain ⟨-, -, huul, huur, -⟩ := (nodup_join (d := .left)).mp hndgs
    have hsub : ∀ {y}, y ∉ (node ul u ur).toList → y ≠ u ∧ y ∉ ul.toList ∧ y ∉ ur.toList := by
      intro y hy
      simp_all
    obtain ⟨hgu, hgl, hgr⟩ := hsub hggs
    obtain ⟨hfu, hfl, hfr⟩ := hsub (hfgs _ (.inl rfl))
    refine ⟨ul, u, ur, rfl, join_red ?_ (join_black ?_
      ((hn.recolor rfl hgn hfn).setColor fun h => hfgs u (.inr (.inl h)) (by simp))
      ((hfs.recolor rfl hgfs hffs).setColor fun h => hfgs u (.inr (.inr h)) (by simp)))
      (black (by simp) ((Bal.recolor hul rfl hgl hfl).setColor huul)
        ((Bal.recolor hur rfl hgr hfr).setColor huur)), ?_⟩
    · simp [hgf, hgu]
    · simp [hfu]
    · exact (hc.recolor rfl (hdisj g.item (by simp)) (hdisj f.item (by simp))).setColor
        (hdisj u (by simp))

/-- **`FixInsert` restores the balance.**  The current node becomes red; below it and
around it the tree is balanced, but its parent may be red too. -/
theorem fixInsert_spec (hfuel : c.length < fuel) (h : Ok W t (plug c (node l n r)))
    (hs : (t.setColor n .red).Bal (node l n r) true k) (hc : t.CtxBal c k) :
    ∃ t' s', fixInsert A fuel t n = some t' ∧ Ok W t' s' ∧
      s'.toList = (plug c (node l n r)).toList ∧ (∃ m, t'.Bal s' false m) ∧ Same W t t' := by
  induction hlen : c.length using Nat.strong_induction_on generalizing c t l n r k fuel with
  | _ len ih =>
  obtain ⟨fuel, rfl⟩ : ∃ i, fuel = i + 1 := ⟨fuel - 1, by omega⟩
  obtain ⟨hndn, -, hdisj⟩ := nodup_plug.mp h.nodup
  have hnc : n ∉ ctxItems c := hdisj n (by simp)
  have hpar : t.getParent n = holePar c := (rep_plug.mp h.rep).2.2.1
  have hc1 := hc.setColor (v := .red) hnc
  match c, hlen with
  | [], _ =>
    refine ⟨t.setColor n .black, node l n r, fixInsert_root hpar, h.setColor _ _, rfl, ?_,
      same_setColor t n .black⟩
    obtain ⟨-, -, hl, hr⟩ := (balanced_join (d := .left) hs).resolve_right (by simp)
    have hnl := (nodup_join (d := .left)).mp hndn
    have hset : (t.setColor n .red).setColor n .black = t.setColor n .black := by
      simp [Tree.setColor]
    have hl' := Bal.setColor (v := .black) hl hnl.2.2.1
    have hr' := Bal.setColor (v := .black) hr hnl.2.2.2.1
    rw [hset] at hl' hr'
    exact ⟨k + 1, black (by simp) hl' hr'⟩
  | f :: c, hlen =>
    have hfn : f.item ≠ n := fun h => hnc (mem_ctxItems_cons.mpr (.inl h.symm))
    rcases hc with ⟨hfr, hfs, hcc, g, c', rfl, hgb⟩ | ⟨hfb, hfs, hcc⟩
    · -- the parent is red, so there is a black grandparent
      obtain ⟨-, ⟨b, hGs⟩, hcc'⟩ := hcc.resolve_left fun h => by cases hgb.symm.trans h.1
      obtain ⟨⟨hpf, hptrf, -, -, -, hrepg, -⟩, -⟩ := rep_plug.mp h.rep
      obtain ⟨hndS, -, hdc'⟩ := (nodup_plug (c := c')).mp h.nodup
      obtain ⟨-, -, -, -, hFG⟩ := nodup_join.mp hndS
      simp only [mem_join] at hFG
      have hdflip : t.getChild g.side.flip g.item ≠ some f.item :=
        fun h => hFG _ (.inl rfl) (hrepg.mem_of_ptr h)
      have hGs1 := Bal.setColor (v := .red) hGs (hFG n (.inr (.inl (by simp))))
      have hFs1 := Bal.setColor (v := .red) hfs fun h => hnc (mem_ctxItems_cons.mpr (.inr (.inl h)))
      have hC1 := CtxBal.setColor (v := .red) hcc' (hdc' n (by simp))
      have hfr1 : (t.setColor n .red).color f.item = .red := by simpa [hfn] using hfr
      have hred : (t.setColor n .red).isRed (t.getChild g.side.flip g.item) = b :=
        isRed_eq hrepg hGs1
      rw [fixInsert_red hpar hfn hfr hpf hptrf hdflip, hred]
      cases b with
      | false =>
        obtain ⟨t', s', h1, h2, h3, h4, h5⟩ :=
          fixInsertRotate_spec (h.setColor n .red) hs hfr1 hFs1 hGs1 hC1
        exact ⟨t', s', by simpa using h1, h2, h3, h4, (same_setColor t n .red).trans h5⟩
      | true =>
        obtain ⟨ul, u, ur, hsib, hbal, hctx⟩ := uncle_recolor h.nodup hs hFs1 hGs1 hC1
        have hu : t.getChild g.side.flip g.item = some u := by
          rw [hsib] at hrepg
          exact hrepg.1
        obtain ⟨l', r', hnode⟩ := exists_node g.side
          (join f.side (node l n r) f.item f.sib) g.item g.sib
        rw [hnode] at hbal
        have hok : Ok W t (plug c' (node l' g.item r')) := by
          rw [← hnode]
          exact h
        have hg := ((balanced_join (d := .left) hbal).resolve_right (by simp)).2.1
        have hbal' : (((((t.setColor n .red).setColor g.item .red).setColor f.item .black).setColor u
            .black).setColor g.item .red).Bal (node l' g.item r') true (k + 1) := by
          refine hbal.congr fun x _ => ?_
          by_cases hx : x = g.item
          · rw [hx, hg]
            simp
          · simp [hx]
        have hfuel' : c'.length < fuel := by
          simp only [List.length_cons] at hfuel
          omega
        -- two frames are gone; the grandparent, already red, is the new current node
        obtain ⟨t', s', h1, h2, h3, h4, h5⟩ := ih c'.length (by simp [← hlen]) hfuel'
          ((((hok.setColor n .red).setColor g.item .red).setColor f.item .black).setColor u .black)
          hbal' hctx rfl
        refine ⟨t', s', by simp [hu, h1], h2, ?_, h4, ?_⟩
        · rw [h3, ← hnode]
          rfl
        · exact ((((same_setColor t n .red).trans (same_setColor _ g.item .red)).trans
            (same_setColor _ f.item .black)).trans (same_setColor _ u .black)).trans h5
    · -- the parent is black
      refine ⟨t.setColor n .red, plug (f :: c) (node l n r), fixInsert_black hpar hfn hfb,
        h.setColor _ _, rfl, CtxBal.plug hc1 hs fun _ => ?_, same_setColor t n .red⟩
      simpa [RedAllowed, hfn] using hfb

/-! ### Linking a new node -/

/-- The last part of the three insertion functions: the new node `n` has been linked into
the hole of `c`; the aggregates above it and the colours are repaired. -/
lemma attach_spec (t1 : Tree P D) {m : ℕ} (hfuel : c.length < fuel) (h : Ok W t (plug c nil))
    (hb : t.Bal (plug c nil) false m) (hn : n ∉ ctxItems c) (hchild : ∀ d, t.links.child d n = none)
    (hlinks : t1.links = (t.links.setHole c (some n)).setParent n (holePar c))
    (hcolor : t1.color = t.color) (hitem : t1.item = t.item) :
    ∃ t' s', ((aggregatePath A fuel (t1.aggregateNode A n) (holePar c)).bind
        fun t => fixInsert A fuel t n) = some t' ∧
      Ok W t' s' ∧ s'.toList = before c ++ n :: after c ∧ (∃ m, t'.Bal s' false m) ∧
      Same W t1 t' := by
  obtain ⟨-, hcnd, -⟩ := nodup_plug.mp h.nodup
  have hrep1 : t1.links.Rep none t1.links.root (plug c (node nil n nil)) := by
    rw [hlinks]
    exact rep_attach (rep_plug.mp h.rep).1 hcnd hn hchild
  have hnd1 : (plug c (node nil n nil)).toList.Nodup :=
    nodup_plug.mpr ⟨by simp, hcnd, by simpa using hn⟩
  have hagg1 : W.Agg (t1.aggregateNode A n) (node nil n nil) :=
    agg_aggregateNode (d := .left) (rep_plug.mp hrep1).2 (by simp [join]) trivial trivial
  have hctx1 : W.AggCtx (t1.aggregateNode A n) c W.one := by
    refine (agg_plug.mp h.agg).1.congr fun x hx => ?_
    rw [item_aggregateNode, if_neg, hitem]
    rintro rfl
    exact hn hx
  obtain ⟨t2, h2, hok2, -, hcol2, hsame2⟩ :=
    aggregatePath_spec hfuel.le (t := t1.aggregateNode A n) hrep1 hnd1 hagg1 hctx1
  obtain ⟨k, i, hnil, hcb, -⟩ := balanced_plug hb
  have hcb2 : t2.CtxBal c 0 := by
    cases hnil
    refine CtxBal.congr hcb fun x _ => ?_
    rw [hcol2, color_aggregateNode, hcolor]
  obtain ⟨t3, s3, h3, hok3, hlist3, hbal3, hsame3⟩ :=
    fixInsert_spec hfuel hok2 (red (by simp) nil nil) hcb2
  refine ⟨t3, s3, by rw [h2]; exact h3, hok3, ?_, hbal3,
    ((same_aggregateNode W t1 n).trans hsame2).trans hsame3⟩
  rw [hlist3, toList_plug]
  simp

variable {K : Type} [LinearOrder K] {key : C → K}

/-- The order of two nodes by their keys. -/
abbrev KeyLe (W : AggLaws A C M) (key : C → K) (t : Tree P D) (p q : P) : Prop :=
  key (W.core (t.item p)) ≤ key (W.core (t.item q))

/-- The key of `n` fits between `l₁` and `l₂`. -/
abbrev Fits (W : AggLaws A C M) (key : C → K) (t : Tree P D) (n : P) (l₁ l₂ : List P) : Prop :=
  (∀ x ∈ l₁, KeyLe W key t x n) ∧ ∀ x ∈ l₂, KeyLe W key t n x

/-- The result of an insertion: `n` is the new node between `l₁` and `l₂`. -/
def Inserted (W : AggLaws A C M) (key : C → K) (t t' : Tree P D) (n : P) (l₁ l₂ : List P) : Prop :=
  ∃ s', IsTree W key t' s' ∧ s'.toList = l₁ ++ n :: l₂ ∧ W.SameCore t t'

omit [DecidableEq P] in
/-- The keys stay sorted when the new node stands between smaller and larger ones. -/
lemma Sorted.insert {l₁ l₂ : List P} (h : Sorted W key t (l₁ ++ l₂)) (hk : Fits W key t n l₁ l₂) :
    Sorted W key t (l₁ ++ n :: l₂) := by
  obtain ⟨hl₁, hl₂, h₁₂⟩ := List.pairwise_append.mp h
  refine List.pairwise_append.mpr ⟨hl₁, List.pairwise_cons.mpr ⟨hk.2, hl₂⟩, ?_⟩
  intro x hx y hy
  rcases List.mem_cons.mp hy with rfl | hy
  · exact hk.1 x hx
  · exact h₁₂ x hx y hy

/-- `t1` is the tree `t` after the new node `n` was linked, with the threads, into the
hole of `c`; what follows repairs the rest. -/
lemma attach_inserted (t1 : Tree P D) (hfuel : c.length < fuel) (h : IsTree W key t (plug c nil))
    (hn : n ∉ (plug c nil).toList) (hfresh : t.Fresh n) (hk : Fits W key t n (before c) (after c))
    (hlinks : t1.links = (t.links.setHole c (some n)).setParent n (holePar c))
    (hcolor : t1.color = t.color) (hitem : t1.item = t.item)
    (hthread : Threaded t1.predecessor t1.successor none (before c ++ n :: after c) none) :
    ∃ t', ((aggregatePath A fuel (t1.aggregateNode A n) (holePar c)).bind
        fun t => fixInsert A fuel t n) = some t' ∧ Inserted W key t t' n (before c) (after c) := by
  obtain ⟨hok, -, ⟨m, hb⟩, hsorted⟩ := h
  obtain ⟨t', s', h1, hok', hlist, hbal, hsame⟩ :=
    attach_spec t1 hfuel hok hb (fun h => hn (mem_plug.mpr (.inr h))) hfresh.child hlinks hcolor
      hitem
  have hcore : W.SameCore t t' := by
    intro x
    rw [hsame.core x, hitem]
  refine ⟨t', h1, s', ⟨hok', ?_, hbal, ?_⟩, hlist, hcore⟩
  · rw [hlist, hsame.predecessor, hsame.successor]
    exact hthread
  · rw [hlist]
    rw [toList_plug] at hsorted
    simp only [toList_nil, List.append_nil] at hsorted
    exact (hsorted.insert hk).congr fun x _ => hcore x

lemma insertRoot_spec (hfuel : 0 < fuel) (h : IsTree W key t nil) (hfresh : t.Fresh n) :
    ∃ t', insertRoot A fuel t n = some t' ∧ Inserted W key t t' n [] [] := by
  have hpar : Function.update t.links.parent n none = t.links.parent := by
    rw [← hfresh.parent]
    exact Function.update_eq_self _ _
  have hagg : aggregatePath A fuel ((t.setRoot (some n)).aggregateNode A n) none
      = some ((t.setRoot (some n)).aggregateNode A n) := by
    simp [aggregatePath]
  obtain ⟨t', h1, h2⟩ := attach_inserted (c := []) (n := n) (t.setRoot (some n)) hfuel h
    (by simp) hfresh (by simp [Fits, before, after])
    (by simp [setHole, holePar, setRoot, Links.setRoot, Links.setParent, hpar]) rfl rfl
    ⟨hfresh.predecessor, hfresh.successor, trivial⟩
  refine ⟨t', ?_, h2⟩
  rw [holePar, hagg] at h1
  exact h1

lemma insertLeft_spec (hfuel : c.length + 1 < fuel) (h : IsTree W key t (plug c (node nil x r)))
    (hn : n ∉ (plug c (node nil x r)).toList) (hfresh : t.Fresh n)
    (hk : Fits W key t n (before c) (x :: r.toList ++ after c)) :
    ∃ t', insertLeft A fuel t x n = some t' ∧
      Inserted W key t t' n (before c) (x :: r.toList ++ after c) := by
  have hlist : (plug c (node nil x r)).toList = before c ++ (x :: r.toList ++ after c) := by
    simp [toList_plug]
  have hth := h.threaded
  have hnd := h.ok.nodup
  have hne := fun y hy => ne_of_mem_of_not_mem (a := y) hy hn
  rw [hlist] at hth hnd hne
  obtain ⟨hpx, -⟩ := hth.neighbours
  have hxn : x ≠ n := hne x (by simp)
  refine attach_inserted (c := ⟨.left, x, r⟩ :: c) _ (by simpa using hfuel) h hn hfresh hk
    (by simp [setHole, holePar]) (by ext; simp) (by ext; simp) ?_
  refine hth.insert hnd ?_ ?_ (fun y hy => ?_) (fun y hy => ?_)
  · simp [hxn.symm, hpx]
  · simp
  · by_cases hyx : y = x
    · simp [hyx]
    · simp [hne y hy, hyx, Ne.symm hyx]
  · simp [hne y hy, successor_guarded_setSuccessor, hpx]

lemma insertRight_spec (hfuel : c.length + 1 < fuel) (h : IsTree W key t (plug c (node l x nil)))
    (hn : n ∉ (plug c (node l x nil)).toList) (hfresh : t.Fresh n)
    (hk : Fits W key t n (before c ++ (l.toList ++ [x])) (after c)) :
    ∃ t', insertRight A fuel t x n = some t' ∧
      Inserted W key t t' n (before c ++ (l.toList ++ [x])) (after c) := by
  have hlist : (plug c (node l x nil)).toList = before c ++ (l.toList ++ [x]) ++ after c := by
    simp [toList_plug]
  have hth := h.threaded
  have hnd := h.ok.nodup
  have hne := fun y hy => ne_of_mem_of_not_mem (a := y) hy hn
  rw [hlist] at hth hnd hne
  have hsx : t.successor x = (after c).head? := by
    have hcut : before c ++ (l.toList ++ [x]) ++ after c
        = (before c ++ l.toList) ++ x :: after c := by simp
    rw [hcut] at hth
    exact hth.neighbours.2
  have hxn : x ≠ n := hne x (by simp)
  refine attach_inserted (c := ⟨.right, x, l⟩ :: c) _ (by simpa using hfuel) h hn hfresh hk
    (by simp [setHole, holePar]) (by ext; simp) (by ext; simp) ?_
  refine hth.insert hnd ?_ ?_ (fun y hy => ?_) (fun y hy => ?_)
  · have hna : (after c).head? ≠ some n := head?_ne_of_notMem fun h => hne n (by simp [h]) rfl
    simp [predecessor_guarded_setPredecessor, hsx, hna]
  · simp [hsx]
  · simp [hne y hy, predecessor_guarded_setPredecessor, hsx]
  · by_cases hyx : y = x
    · simp [hyx, hxn]
    · simp [hne y hy, hyx, Ne.symm hyx]

omit [DecidableEq P] in
/-- The keys on the two sides of a node of a sorted tree. -/
lemma Sorted.node (h : Sorted W key t (plug c (node l x r)).toList) :
    Fits W key t x l.toList r.toList := by
  rw [toList_plug] at h
  obtain ⟨h, -, -⟩ := List.pairwise_append.mp h
  obtain ⟨-, h, -⟩ := List.pairwise_append.mp h
  obtain ⟨-, hr, hlr⟩ := List.pairwise_append.mp h
  exact ⟨fun y hy => hlr y hy x (by simp), (List.pairwise_cons.mp hr).1⟩

variable (hless : ∀ a b, less a b = decide (key (W.core a) < key (W.core b)))

include hless

/-- **The loop of `Insert`** keeps the nodes before the current subtree at or below the new
key and those after it above, and ends at a free child pointer. -/
lemma insertLoop_spec (hfresh : t.Fresh n) {steps : ℕ} (hsteps : (node l x r).toList.length ≤ steps)
    (hfuel : (plug c (node l x r)).toList.length < fuel) (h : IsTree W key t (plug c (node l x r)))
    (hn : n ∉ (plug c (node l x r)).toList) (hk : Fits W key t n (before c) (after c)) :
    ∃ t' l₁ l₂, insertLoop A less fuel t n steps x = some t' ∧
      (plug c (node l x r)).toList = l₁ ++ l₂ ∧ Inserted W key t t' n l₁ l₂ := by
  induction steps generalizing c l x r with
  | zero => simp at hsteps
  | succ steps ih =>
    obtain ⟨-, -, -, hrl, hrr⟩ := rep_plug.mp h.ok.rep
    obtain ⟨hl, hr⟩ := h.sorted.node
    have hlen : c.length + 1 < fuel := by
      have hle := length_le_ctxItems c
      simp only [ctxItems, toList_plug, toList_node, List.length_append, List.length_cons]
        at hle hfuel
      omega
    rw [insertLoop, hless]
    by_cases hlt : key (W.core (t.item n)) < key (W.core (t.item x))
    · simp only [hlt, decide_true, if_true]
      have hk' : Fits W key t n (before c) (x :: r.toList ++ after c) := by
        refine ⟨hk.1, fun y hy => ?_⟩
        simp only [List.cons_append, List.mem_cons, List.mem_append] at hy
        rcases hy with rfl | hy | hy
        · exact hlt.le
        · exact hlt.le.trans (hr y hy)
        · exact hk.2 y hy
      cases l with
      | nil =>
        have hnone : t.getLeft x = none := hrl
        obtain ⟨t', ht', hins⟩ := insertLeft_spec hlen h hn hfresh hk'
        refine ⟨t', _, _, ?_, ?_, hins⟩
        · rw [hnone]
          exact ht'
        · simp [toList_plug]
      | node ll lx lr =>
        have hsome : t.getLeft x = some lx := hrl.1
        rw [hsome]
        exact ih (c := ⟨.left, x, r⟩ :: c) (by simp at hsteps ⊢; omega) hfuel h hn hk'
    · simp only [hlt, decide_false]
      have hle := not_lt.mp hlt
      have hk' : Fits W key t n (before c ++ (l.toList ++ [x])) (after c) := by
        refine ⟨fun y hy => ?_, hk.2⟩
        simp only [List.mem_append, List.mem_singleton] at hy
        rcases hy with hy | hy | rfl
        · exact hk.1 y hy
        · exact (hl y hy).trans hle
        · exact hle
      cases r with
      | nil =>
        have hnone : t.getRight x = none := hrr
        obtain ⟨t', ht', hins⟩ := insertRight_spec hlen h hn hfresh hk'
        refine ⟨t', _, _, ?_, ?_, hins⟩
        · rw [hnone]
          exact ht'
        · simp [toList_plug]
      | node rl rx rr =>
        have hsome : t.getRight x = some rx := hrr.1
        rw [hsome]
        exact ih (c := ⟨.right, x, l⟩ :: c) (by simp at hsteps ⊢; omega) hfuel h hn hk'

/-- **`Insert` keeps the invariant**: the new node is linked at its place in the order. -/
theorem insert_spec (h : IsTree W key t s) (hfresh : t.Fresh n) (hn : n ∉ s.toList)
    (hfuel : s.toList.length < fuel) :
    ∃ t' l₁ l₂, insert A less fuel t n = some t' ∧ s.toList = l₁ ++ l₂ ∧
      Inserted W key t t' n l₁ l₂ := by
  cases s with
  | nil =>
    have hroot : t.getRoot = none := h.ok.rep
    obtain ⟨t', ht', hins⟩ := insertRoot_spec (Nat.zero_lt_of_lt hfuel) h hfresh
    refine ⟨t', [], [], ?_, rfl, hins⟩
    rw [insert, hroot]
    exact ht'
  | node l x r =>
    have hroot : t.getRoot = some x := h.ok.rep.1
    rw [insert, hroot]
    exact insertLoop_spec (c := []) hless hfresh hfuel.le hfuel h hn
      (by simp [Fits, before, after])

end Tree

end Northport.RBTree
