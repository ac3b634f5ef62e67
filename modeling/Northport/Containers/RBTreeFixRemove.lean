/-
# Rebalancing before a removal

`FixRemove` runs while the doomed node is still linked: it rebalances the context around
that node for a hole that is one black node short.  So its specification is about a
context: the subtree in the hole stays as it is.
-/
import Northport.Containers.RBTreeInvariant

namespace Northport.RBTree

open Lib Lib.Shape Lib.Links

namespace Tree

open AggLaws

variable {P D C M : Type} [DecidableEq P] {A : Aggregator D} {W : AggLaws A C M}
  {t t' t'' : Tree P D} {s s₀ : Shape P} {c c' c'' : List (Frame P)} {x n u : P} {d : Side}
  {e a : Shape P} {b : Bool} {k fuel : ℕ} {f : Frame P}

/-- The step from `t` to `t'` turns the context `c` into `c'`: the order of the nodes, the
threading and the colours of all nodes outside the context stay. -/
structure Rebalanced (W : AggLaws A C M) (t t' : Tree P D) (c c' : List (Frame P)) : Prop where
  before_eq : before c' = before c
  after_eq : after c' = after c
  same : Same W t t'
  color : ∀ x ∉ ctxItems c, t'.color x = t.color x

section

omit [DecidableEq P]

lemma Rebalanced.ctxItems_eq (h : Rebalanced W t t' c c') : ctxItems c' = ctxItems c := by
  rw [ctxItems, ctxItems, h.before_eq, h.after_eq]

lemma Rebalanced.refl (t : Tree P D) (c : List (Frame P)) : Rebalanced W t t c c :=
  ⟨rfl, rfl, Same.refl t, fun _ _ => rfl⟩

lemma Rebalanced.trans (h : Rebalanced W t t' c c') (h' : Rebalanced W t' t'' c' c'') :
    Rebalanced W t t'' c c'' where
  before_eq := h'.before_eq.trans h.before_eq
  after_eq := h'.after_eq.trans h.after_eq
  same := h.same.trans h'.same
  color := fun x hx => (h'.color x (by rwa [h.ctxItems_eq])).trans (h.color x hx)

end

/-- Recolouring a node of the context. -/
lemma Rebalanced.setColor (h : Rebalanced W t t' c c') (hx : x ∈ ctxItems c) (v : ColorType) :
    Rebalanced W t (t'.setColor x v) c c' where
  before_eq := h.before_eq
  after_eq := h.after_eq
  same := h.same.trans (same_setColor t' x v)
  color := by
    intro y hy
    have hyx : y ≠ x := fun h => hy (h ▸ hx)
    simp [hyx, h.color y hy]

omit [DecidableEq P] in
/-- A frame below a rebalanced context stays. -/
lemma Rebalanced.cons (h : Rebalanced W t t' c c') (f : Frame P) :
    Rebalanced W t t' (f :: c) (f :: c') where
  before_eq := by
    obtain ⟨d, x, b⟩ := f
    cases d <;> simp [before, h.before_eq]
  after_eq := by
    obtain ⟨d, x, b⟩ := f
    cases d <;> simp [after, h.after_eq]
  same := h.same
  color := fun x hx => h.color x fun hx' => hx (mem_ctxItems_cons.mpr (.inr (.inr hx')))

/-- The sibling of the hole is rotated up. -/
lemma rotate_sibling {b : Shape P} (h : Ok W t (plug (⟨d, u, join d b n e⟩ :: c) s₀)) :
    ∃ t', rotate A d t n = some t' ∧ Ok W t' (plug (⟨d, u, b⟩ :: ⟨d, n, e⟩ :: c) s₀) ∧
      t'.color = t.color ∧
      Rebalanced W t t' (⟨d, u, join d b n e⟩ :: c) (⟨d, u, b⟩ :: ⟨d, n, e⟩ :: c) := by
  have h' : Ok W t (plug (⟨d.flip, u, s₀⟩ :: c) (join d b n e)) := by
    rw [plug_cons, join_flip]
    exact h
  obtain ⟨t', hrot, hok, hcol, hsame⟩ := rotate_spec h'
  refine ⟨t', hrot, hok, hcol, ?_, ?_, hsame, fun x _ => by rw [hcol]⟩
  · cases d <;> simp [before, join]
  · cases d <;> simp [after, join]

/-- The inner child of the sibling is rotated up. -/
lemma rotate_nephew {b : Shape P} {p : P}
    (h : Ok W t (plug (⟨d, p, join d (join d a n b) u e⟩ :: c) s₀)) :
    ∃ t', rotate A d.flip t n = some t' ∧
      Ok W t' (plug (⟨d, p, join d a n (join d b u e)⟩ :: c) s₀) ∧ t'.color = t.color ∧
      Rebalanced W t t' (⟨d, p, join d (join d a n b) u e⟩ :: c)
        (⟨d, p, join d a n (join d b u e)⟩ :: c) := by
  have h' : Ok W t (plug (⟨d.flip.flip, u, e⟩ :: ⟨d.flip, p, s₀⟩ :: c) (join d.flip b n a)) := by
    rw [plug_cons, plug_cons, Side.flip_flip, join_flip, join_flip]
    exact h
  obtain ⟨t', hrot, hok, hcol, hsame⟩ := rotate_spec h'
  refine ⟨t', hrot, ?_, hcol, ?_, ?_, hsame, fun x _ => by rw [hcol]⟩
  · rw [plug_cons, join_flip, join_flip, join_flip] at hok
    exact hok
  · cases d <;> simp [before, join]
  · cases d <;> simp [after, join]

/-! ### The black sibling -/

section

omit [DecidableEq P]

lemma CtxBal.sib (hc : t.CtxBal (f :: c) k) : ∃ b, t.Bal f.sib b k := by
  rcases hc with ⟨-, hs, -⟩ | ⟨-, hs, -⟩
  · exact ⟨false, hs⟩
  · exact hs

/-- Another frame takes the place of the innermost one, with its colour. -/
lemma CtxBal.replace {g : Frame P} (hc : t.CtxBal (f :: c) k)
    (hg : t'.color g.item = t.color f.item) (hs : t'.Bal g.sib false k)
    (hcol : ∀ z ∈ ctxItems c, t'.color z = t.color z) : t'.CtxBal (g :: c) k := by
  rcases hc with ⟨hu, -, hcc, i, c', rfl, hi⟩ | ⟨hu, -, hcc⟩
  · refine .inl ⟨hg.trans hu, hs, CtxBal.congr hcc hcol, i, c', rfl, ?_⟩
    exact (hcol _ (mem_ctxItems_cons.mpr (.inl rfl))).trans hi
  · exact .inr ⟨hg.trans hu, ⟨false, hs⟩, CtxBal.congr hcc hcol⟩

/-- A subtree of positive black height has a root. -/
lemma exists_root (h : t.Bal s b (k + 1)) : ∃ a x e, s = join d a x e := by
  cases s with
  | nil => cases h
  | node l x r =>
    obtain ⟨a, e, hae⟩ := exists_join d l x r
    exact ⟨a, x, e, hae⟩

lemma getChild_sibling (h : Ok W t (plug (f :: c) s₀)) (hsib : f.sib = join d a x e) :
    t.getChild f.side.flip f.item = some x := by
  obtain ⟨⟨-, -, hrep, -⟩, -⟩ := rep_plug.mp h.rep
  rw [hsib] at hrep
  exact (rep_join.mp hrep).1

/-- The nodes around the innermost frame of a context are distinct. -/
lemma nodup_frame (hnd : (ctxItems (f :: c)).Nodup) (hsib : f.sib = join d a x e) :
    f.item ≠ x ∧ f.item ∉ a.toList ∧ f.item ∉ e.toList ∧ f.item ∉ ctxItems c ∧
      x ∉ a.toList ∧ x ∉ e.toList ∧ x ∉ ctxItems c ∧ (∀ y ∈ a.toList, y ∉ e.toList) ∧
      (∀ y ∈ e.toList, y ∉ ctxItems c) := by
  obtain ⟨hfs, hfc, -, hnds, hd⟩ := nodup_ctxItems_cons hnd
  rw [hsib] at hfs hnds hd
  obtain ⟨-, -, hxa, hxe, hae⟩ := nodup_join.mp hnds
  simp only [mem_join, not_or] at hfs
  exact ⟨hfs.1, hfs.2.1, hfs.2.2, hfc, hxa, hxe, hd x (by simp), hae,
    fun y hy => hd y (by simp [hy])⟩

end

/-- **The first part of `FixRemove`** ends with a black sibling.  When it had to rotate, the
parent is red, so that no further round follows. -/
lemma fixRemoveSibling_spec (h : Ok W t (plug (f :: c) s₀)) (hc : t.CtxBal (f :: c) (k + 1)) :
    ∃ t' c' a x e, fixRemoveSibling A f.side t f.item = some (t', x) ∧
      Ok W t' (plug (⟨f.side, f.item, join f.side a x e⟩ :: c') s₀) ∧
      t'.CtxBal (⟨f.side, f.item, join f.side a x e⟩ :: c') (k + 1) ∧ t'.color x = .black ∧
      (c' = c ∨ t'.color f.item = .red) ∧
      Rebalanced W t t' (f :: c) (⟨f.side, f.item, join f.side a x e⟩ :: c') := by
  obtain ⟨b, hsb⟩ := hc.sib
  obtain ⟨a, x, e, hsib⟩ := exists_root (d := f.side) hsb
  have hx := getChild_sibling h hsib
  obtain ⟨d, u, sib⟩ := f
  simp only at hsib hx hsb ⊢
  subst hsib
  obtain ⟨-, hnd, -⟩ := nodup_plug.mp h.nodup
  obtain ⟨hux, hua, hue, huc, hxa, hxe, hxc, -, hec⟩ := nodup_frame hnd rfl
  rcases balanced_join hsb with ⟨rfl, hred, ha, he⟩ | ⟨rfl, hblack, -⟩
  · -- the sibling is red, so the parent is black
    obtain ⟨hu, hcc⟩ : t.color u = .black ∧ t.CtxBal c (k + 2) := by
      rcases hc with ⟨-, hs, -⟩ | ⟨hu, -, hcc⟩
      · obtain ⟨-, hb, -⟩ := (balanced_join hs).resolve_left (by simp)
        cases hred.symm.trans hb
      · exact ⟨hu, hcc⟩
    obtain ⟨t1, hrot, hok1, hcol1, hreb1⟩ := rotate_sibling h
    obtain ⟨a', x', e', rfl⟩ := exists_root (d := d) ha
    have hitems : u ∈ ctxItems (⟨d, u, join d (join d a' x' e') x e⟩ :: c) ∧
        x ∈ ctxItems (⟨d, u, join d (join d a' x' e') x e⟩ :: c) := by
      constructor <;> simp [mem_ctxItems_cons]
    have ha1 : ((t1.setColor u .red).setColor x .black).Bal _ _ _ := Bal.recolor ha hcol1 hua hxa
    refine ⟨(t1.setColor u .red).setColor x .black, ⟨d, x, e⟩ :: c, a', x', e', ?_,
      (hok1.setColor _ _).setColor _ _, .inl ⟨?_, ?_, .inr ⟨?_, ⟨false, ?_⟩, ?_⟩, _, _, rfl, ?_⟩,
      ?_, .inr ?_, (hreb1.setColor hitems.1 _).setColor hitems.2 _⟩
    · have hs1 := getChild_sibling hok1 rfl
      simp [fixRemoveSibling, hx, hred, hrot, hs1]
    · simp [hux]
    · exact ha1
    · simp
    · exact Bal.recolor he hcol1 hue hxe
    · exact hcc.recolor hcol1 huc hxc
    · simp
    · exact ((balanced_join ha1).resolve_left (by simp)).2.1
    · simp [hux]
  · refine ⟨t, c, a, x, e, ?_, h, hc, hblack, .inl rfl, Rebalanced.refl t _⟩
    simp [fixRemoveSibling, hx, hblack]

/-! ### The last rotations -/

section

variable (h : Ok W t (plug (⟨d, u, join d a x e⟩ :: c) s₀))
  (hc : t.CtxBal (⟨d, u, join d a x e⟩ :: c) (k + 1))

include h hc

/-- The outer child of the black sibling is red: one rotation ends the repair. -/
lemma fixRemoveOuter_spec (ha : t.Bal a b k) (he : t.Bal e true k) :
    ∃ t' c', fixRemoveOuter A d t u x (t.color u) = some t' ∧ Ok W t' (plug c' s₀) ∧
      t'.CtxBal c' k ∧ Rebalanced W t t' (⟨d, u, join d a x e⟩ :: c) c' := by
  obtain ⟨-, hnd, -⟩ := nodup_plug.mp h.nodup
  obtain ⟨hux, hua, hue, huc, hxa, hxe, hxc, hae, hec⟩ := nodup_frame hnd rfl
  obtain ⟨t1, hrot, hok1, hcol1, hreb1⟩ := rotate_sibling h
  cases he with
  | @red el er y _ hy hel her =>
    have hye : y ∈ (node el y er).toList := by simp
    have hyx : y ≠ x := fun h => hxe (h ▸ hye)
    have hyu : y ≠ u := fun h => hue (h ▸ hye)
    obtain ⟨-, -, hyl, hyr, -⟩ := (nodup_join (d := .left)).mp
      (nodup_join.mp (nodup_ctxItems_cons hnd).2.2.2.1).2.1
    have hitems : u ∈ ctxItems (⟨d, u, join d a x (node el y er)⟩ :: c) ∧
        x ∈ ctxItems (⟨d, u, join d a x (node el y er)⟩ :: c) ∧
        y ∈ ctxItems (⟨d, u, join d a x (node el y er)⟩ :: c) := by
      refine ⟨?_, ?_, ?_⟩ <;> simp [mem_ctxItems_cons]
    set t2 := ((t1.setColor u .black).setColor x (t.color u)).setColor y .black with ht2
    have hcx : t2.color x = t.color u := by simp [ht2, Ne.symm hyx]
    have hcu : t2.color u = .black := by simp [ht2, Ne.symm hyu, hux]
    have he2 : t2.Bal (node el y er) false (k + 1) := by
      simp only [toList_node, List.mem_append, List.mem_cons, not_or] at hue hxe
      exact Balanced.black (by simp [ht2])
        ((Bal.recolor hel hcol1 hue.1 hxe.1).setColor hyl)
        ((Bal.recolor her hcol1 hue.2.2 hxe.2.2).setColor hyr)
    have ha2 : t2.Bal a b k := (ha.recolor hcol1 hua hxa).setColor fun h => hae y h hye
    refine ⟨t2, ⟨d, u, a⟩ :: ⟨d, x, node el y er⟩ :: c, ?_,
      ((hok1.setColor _ _).setColor _ _).setColor _ _, .inr ⟨hcu, ⟨b, ha2⟩, ?_⟩,
      ((hreb1.setColor hitems.1 _).setColor hitems.2.1 _).setColor hitems.2.2 _⟩
    · have hchild : t1.getChild d.flip x = some y := by
        obtain ⟨⟨-, -, -, -, -, hrep, -⟩, -⟩ := rep_plug.mp hok1.rep
        exact hrep.1
      simp [fixRemoveOuter, hrot, hchild, ht2]
    · -- the sibling has taken the place and the colour of the parent
      refine hc.replace hcx he2 fun z hz => ?_
      simp [ht2, hcol1, ne_of_mem_of_not_mem hz huc, ne_of_mem_of_not_mem hz hxc,
        ne_of_mem_of_not_mem hz (hec y hye)]

/-- **The last part of `FixRemove`**: a black sibling with a red child. -/
lemma fixRemoveRotate_spec {ba be : Bool} (ha : t.Bal a ba k) (he : t.Bal e be k)
    (hred : ba = true ∨ be = true) :
    ∃ t' c', fixRemoveRotate A d t u x = some t' ∧ Ok W t' (plug c' s₀) ∧
      t'.CtxBal c' k ∧ Rebalanced W t t' (⟨d, u, join d a x e⟩ :: c) c' := by
  obtain ⟨⟨-, -, hrep, -⟩, -⟩ := rep_plug.mp h.rep
  obtain ⟨-, -, hrepa, hrepe⟩ := rep_join.mp hrep
  have hra : t.isRed (t.getChild d x) = ba := isRed_eq hrepa ha
  have hbe : t.isBlack (t.getChild d.flip x) = !be := isBlack_eq hrepe he
  cases be with
  | true =>
    obtain ⟨t', c', h1, h2⟩ := fixRemoveOuter_spec h hc ha he
    refine ⟨t', c', ?_, h2⟩
    simp [fixRemoveRotate, hbe, h1]
  | false =>
    obtain rfl : ba = true := by simpa using hred
    cases ha with
    | @red al ar y _ hy hal har =>
      -- the inner child is rotated up and becomes the sibling
      obtain ⟨p, q, hpq⟩ := exists_join d al y ar
      have ha' : t.Bal (node al y ar) true k := Balanced.red hy hal har
      rw [hpq] at ha'
      obtain ⟨-, -, hp, hq⟩ := (balanced_join ha').resolve_right (by simp)
      have hchild : t.getChild d x = some y := hrepa.1
      rw [hpq] at h hc ⊢
      obtain ⟨-, hnd, -⟩ := nodup_plug.mp h.nodup
      obtain ⟨hux, hua, hue, huc, hxa, hxe, hxc, hae, hec⟩ := nodup_frame hnd rfl
      obtain ⟨-, -, hyp, hyq, -⟩ := nodup_join.mp
        (nodup_join.mp (nodup_ctxItems_cons hnd).2.2.2.1).1
      simp only [mem_join, not_or] at hua hxa hae
      have hyc : y ∉ ctxItems c := (nodup_ctxItems_cons hnd).2.2.2.2 y (by simp)
      obtain ⟨t1, hrot, hok1, hcol1, hreb1⟩ := rotate_nephew h
      set t2 := (t1.setColor x .red).setColor y .black with ht2
      have hitems : x ∈ ctxItems (⟨d, u, join d (join d p y q) x e⟩ :: c) ∧
          y ∈ ctxItems (⟨d, u, join d (join d p y q) x e⟩ :: c) := by
        constructor <;> simp [mem_ctxItems_cons]
      have hp2 : t2.Bal p false k := Bal.recolor hp hcol1 hxa.2.1 hyp
      have hn2 : t2.Bal (join d q x e) true k :=
        Balanced.join_red (by simp [ht2, hxa.1]) (Bal.recolor hq hcol1 hxa.2.2 hyq)
          (he.recolor hcol1 hxe (hae y (.inl rfl)))
      have hcu : t2.color u = t.color u := by simp [ht2, hcol1, hux, hua.1]
      have hsib2 : t2.Bal (join d p y (join d q x e)) false (k + 1) :=
        Balanced.join_black (by simp [ht2]) hp2 hn2
      have hc2 : t2.CtxBal (⟨d, u, join d p y (join d q x e)⟩ :: c) (k + 1) := by
        refine hc.replace hcu hsib2 fun z hz => ?_
        simp [ht2, hcol1, ne_of_mem_of_not_mem hz hxc, ne_of_mem_of_not_mem hz hyc]
      obtain ⟨t', c', h1, h2, h3, hreb⟩ := fixRemoveOuter_spec
        ((hok1.setColor x .red).setColor y .black) hc2 hp2 hn2
      rw [hcu] at h1
      refine ⟨t', c', ?_, h2, h3,
        ((hreb1.setColor hitems.1 _).setColor hitems.2 _).trans hreb⟩
      simp only [fixRemoveRotate, hra, hbe, Bool.not_false, and_self, if_true]
      simp [hchild, hrot, h1]

end

/-! ### The whole of `FixRemove` -/

/-- The two mirrored halves of `FixRemove`, for the side `d` of `parent` on which `n` hangs. -/
lemma fixRemove_step {parent : P} (hp : t.getParent n = some parent)
    (hd : t.getChild d parent = some n) (hd' : t.getChild d.flip parent ≠ some n)
    (hs : t.fixRemoveSibling A d parent = some (t', x)) (h1 : t'.getChild d parent = some n)
    (h1' : t'.getChild d.flip parent ≠ some n) :
    fixRemove A (fuel + 1) t n =
      if t'.isBlack (t'.getChild d x) ∧ t'.isBlack (t'.getChild d.flip x) then
        if t'.color parent = .black then fixRemove A fuel (t'.setColor x .red) parent
        else some ((t'.setColor parent .black).setColor x .red)
      else t'.fixRemoveRotate A d parent x := by
  rw [fixRemove, hp]
  cases d with
  | left =>
    simp only [getLeft, getRight, hd, hs, h1, if_true, Option.bind_eq_bind, Option.bind_some,
      Side.flip]
    rfl
  | right =>
    simp only [Side.flip] at hd' h1'
    simp only [getLeft, getRight, hd', hs, h1', if_false, Option.bind_eq_bind, Option.bind_some,
      Side.flip, and_comm]
    rfl

/-- **`FixRemove` makes the context one black node shorter.** -/
lemma fixRemove_spec {l r : Shape P} (hfuel : c.length < fuel) (h : Ok W t (plug c (node l n r)))
    (hc : t.CtxBal c (k + 1)) :
    ∃ t' c', fixRemove A fuel t n = some t' ∧ Ok W t' (plug c' (node l n r)) ∧
      t'.CtxBal c' k ∧ Rebalanced W t t' c c' := by
  induction c generalizing t l n r k fuel with
  | nil =>
    obtain ⟨fuel, rfl⟩ : ∃ i, fuel = i + 1 := ⟨fuel - 1, by omega⟩
    have hp : t.getParent n = none := h.rep.2.1
    exact ⟨t, [], by rw [fixRemove, hp], h, trivial, Rebalanced.refl t []⟩
  | cons f c ih =>
    obtain ⟨fuel, rfl⟩ : ∃ i, fuel = i + 1 := ⟨fuel - 1, by omega⟩
    have hlinked : ∀ {t : Tree P D} {f : Frame P} {c : List (Frame P)},
        Ok W t (plug (f :: c) (node l n r)) → t.getParent n = some f.item ∧
          t.getChild f.side f.item = some n ∧ t.getChild f.side.flip f.item ≠ some n := by
      intro t f c h
      obtain ⟨⟨-, -, hrep, -⟩, hptr, hpar, -⟩ := rep_plug.mp h.rep
      obtain ⟨hnd, -, -⟩ := (nodup_plug (c := c)).mp h.nodup
      obtain ⟨-, -, -, -, hd⟩ := nodup_join.mp hnd
      exact ⟨hpar, hptr, fun h => hd n (by simp) (hrep.mem_of_ptr h)⟩
    obtain ⟨t1, c1, a, x, e, hs1, hok1, hc1, hx1, hnext, hreb1⟩ := fixRemoveSibling_spec h hc
    obtain ⟨hpar, hptr, hptr'⟩ := hlinked h
    obtain ⟨-, hptr1, hptr1'⟩ := hlinked hok1
    rw [fixRemove_step hpar hptr hptr' hs1 hptr1 hptr1']
    obtain ⟨ba, be, ha, he⟩ : ∃ ba be, t1.Bal a ba k ∧ t1.Bal e be k := by
      obtain ⟨b, hb⟩ := hc1.sib
      obtain ⟨-, -, m, ba, be, hm, ha, he⟩ := (balanced_join hb).resolve_left (by simp [hx1])
      obtain rfl : m = k := by omega
      exact ⟨ba, be, ha, he⟩
    obtain ⟨⟨-, -, hrep, -⟩, -⟩ := rep_plug.mp hok1.rep
    obtain ⟨-, -, hrepa, hrepe⟩ := rep_join.mp hrep
    have hba : t1.isBlack (t1.getChild f.side x) = !ba := isBlack_eq hrepa ha
    have hbe : t1.isBlack (t1.getChild f.side.flip x) = !be := isBlack_eq hrepe he
    by_cases hboth : ba = false ∧ be = false
    · obtain ⟨rfl, rfl⟩ := hboth
      rw [if_pos (by simp [hba, hbe])]
      obtain ⟨-, hnd1, -⟩ := nodup_plug.mp hok1.nodup
      obtain ⟨hux, hua, hue, huc, hxa, hxe, hxc, -, hec⟩ := nodup_frame hnd1 rfl
      have hac : ∀ y ∈ a.toList, y ∉ ctxItems c1 := fun y hy =>
        (nodup_ctxItems_cons hnd1).2.2.2.2 y (by simp [hy])
      have hitem : x ∈ ctxItems (f :: c) ∧ f.item ∈ ctxItems (f :: c) := by
        rw [← hreb1.ctxItems_eq]
        constructor <;> simp [mem_ctxItems_cons]
      by_cases hu : t1.color f.item = .black
      · -- the parent is black: the next round starts there
        rw [if_pos hu]
        obtain rfl : c1 = c := hnext.resolve_right (by simp [hu])
        obtain ⟨-, -, hcc⟩ := hc1.resolve_left fun h => by cases hu.symm.trans h.1
        replace hcc := CtxBal.setColor hcc hxc (v := .red)
        obtain ⟨l', r', hnode⟩ := exists_node f.side (node l n r) f.item (join f.side a x e)
        have hok2 : Ok W (t1.setColor x .red) (plug c1 (node l' f.item r')) := by
          rw [← hnode]
          exact hok1.setColor x .red
        have hlen : c1.length < fuel := by
          simp only [List.length_cons] at hfuel
          omega
        obtain ⟨t', c', h1, h2, h3, hreb⟩ := ih hlen hok2 hcc
        have hcol : ∀ y, y ≠ x → y ∉ ctxItems c1 → t'.color y = t1.color y := by
          intro y hyx hyc
          rw [hreb.color y hyc]
          simp [hyx]
        refine ⟨t', ⟨f.side, f.item, join f.side a x e⟩ :: c', h1, ?_, .inr ⟨?_, ⟨true, ?_⟩, h3⟩,
          (hreb1.setColor hitem.1 .red).trans (hreb.cons _)⟩
        · rw [← hnode] at h2
          exact h2
        · exact (hcol _ hux huc).trans hu
        · refine Balanced.join_red ?_ (ha.congr fun y hy => ?_) (he.congr fun y hy => ?_)
          · rw [hreb.color x hxc]
            simp
          · exact hcol y (ne_of_mem_of_not_mem hy hxa) (hac y hy)
          · exact hcol y (ne_of_mem_of_not_mem hy hxe) (hec y hy)
      · -- the parent is red: it pays for the missing black node
        rw [if_neg hu]
        obtain ⟨-, -, hcc, -⟩ := hc1.resolve_right fun h => hu h.1
        have hux' : f.item ≠ x := hux
        exact ⟨_, _, rfl, (hok1.setColor _ _).setColor _ _, .inr ⟨by simp [hux'], ⟨true,
          Balanced.join_red (by simp) (ha.recolor rfl hua hxa) (he.recolor rfl hue hxe)⟩,
          CtxBal.recolor hcc rfl huc hxc⟩, (hreb1.setColor hitem.2 _).setColor hitem.1 _⟩
    · rw [if_neg (by simpa [hba, hbe] using hboth)]
      obtain ⟨t', c', h1, h2, h3, hreb⟩ := fixRemoveRotate_spec hok1 hc1 ha he (by
        cases ba <;> cases be <;> simp_all)
      exact ⟨t', c', h1, h2, h3, hreb1.trans hreb⟩

end Tree

end Northport.RBTree
