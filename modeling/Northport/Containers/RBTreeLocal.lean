/-
# The reach of the operations of a red-black tree

Several trees share the memory of their nodes.  An operation on one of them follows the
pointers of its nodes only and writes to these nodes only: if the pointers of a set `S`
of nodes stay in `S`, then so they do afterwards, and nothing outside of `S` has changed.
This is a fact about the code alone and needs no invariant of the tree.
-/
import Northport.Containers.RBTreeInsert
import Northport.Containers.RBTreeRemove
import Northport.Lib.Post

namespace Northport.RBTree

open Lib Lib.Shape Lib.Links

namespace Tree

variable {P D : Type}

/-- The pointer is null or leads to a node in `S`. -/
abbrev Into (S : Set P) (v : Option P) : Prop := ∀ y ∈ v, y ∈ S

/-- The root and the pointers of the nodes in `S` lead to nodes in `S`. -/
structure Closed (S : Set P) (t : Tree P D) : Prop where
  root : ∀ y ∈ t.links.root, y ∈ S
  parent : ∀ x ∈ S, ∀ y ∈ t.links.parent x, y ∈ S
  child : ∀ x ∈ S, ∀ d, ∀ y ∈ t.links.child d x, y ∈ S
  predecessor : ∀ x ∈ S, ∀ y ∈ t.predecessor x, y ∈ S
  successor : ∀ x ∈ S, ∀ y ∈ t.successor x, y ∈ S

/-- From `t` to `t'` only nodes in `S` were written, and their pointers stay in `S`. -/
structure Within (S : Set P) (t t' : Tree P D) : Prop where
  closed : t'.Closed S
  outside : ∀ x ∉ S, SameNode t t' x

variable {S : Set P} {t₀ t t' : Tree P D} {p n : P} {v : Option P} {d : Side}

lemma Closed.within (h : t.Closed S) : Within S t t :=
  ⟨h, fun _ _ => ⟨rfl, fun _ => rfl, rfl, rfl, rfl, rfl⟩⟩

namespace Within

/-- A pointer to a node in `S`. -/
lemma some_mem {x : P} (hx : x ∈ S) : Into S (some x) := by
  intro y hy
  rwa [← Option.some.inj hy]

lemma none_mem : ∀ y ∈ (none : Option P), y ∈ S := fun _ hy => absurd hy (by simp)

variable [DecidableEq P] (h : Within S t₀ t) {w : Option P} {parent : P} {less : D → D → Bool}
include h

/-! ### Single writes -/

omit [DecidableEq P] in
lemma setRoot (hv : Into S v) : Within S t₀ (t.setRoot v) :=
  ⟨⟨hv, h.closed.parent, h.closed.child, h.closed.predecessor, h.closed.successor⟩, fun x hx =>
    ⟨(h.outside x hx).parent, (h.outside x hx).child, (h.outside x hx).predecessor,
      (h.outside x hx).successor, (h.outside x hx).color, (h.outside x hx).item⟩⟩

omit [DecidableEq P] in
/-- One node in `S` is written, with pointers to nodes in `S`. -/
lemma write (hp : p ∈ S) (hsame : ∀ x, x ≠ p → SameNode t t' x)
    (hroot : t'.links.root = t.links.root) (hparent : Into S (t'.links.parent p))
    (hchild : ∀ d, Into S (t'.links.child d p)) (hpred : Into S (t'.predecessor p))
    (hsucc : Into S (t'.successor p)) : Within S t₀ t' where
  closed := by
    refine ⟨hroot ▸ h.closed.root, fun x hx => ?_, fun x hx d => ?_, fun x hx => ?_, fun x hx => ?_⟩ <;>
      obtain rfl | hxp := eq_or_ne x p
    · exact hparent
    · exact (hsame x hxp).parent ▸ h.closed.parent x hx
    · exact hchild d
    · exact (hsame x hxp).child d ▸ h.closed.child x hx d
    · exact hpred
    · exact (hsame x hxp).predecessor ▸ h.closed.predecessor x hx
    · exact hsucc
    · exact (hsame x hxp).successor ▸ h.closed.successor x hx
  outside := by
    intro x hx
    have hnew := hsame x fun heq => hx (heq ▸ hp)
    have hold := h.outside x hx
    exact ⟨hnew.parent.trans hold.parent, fun d => (hnew.child d).trans (hold.child d),
      hnew.predecessor.trans hold.predecessor, hnew.successor.trans hold.successor,
      hnew.color.trans hold.color, hnew.item.trans hold.item⟩

section

variable (hp : p ∈ S) (hv : Into S v)

include hp hv

lemma setParent : Within S t₀ (t.setParent p v) :=
  h.write hp (fun x hx => ⟨by simp [hx], fun _ => rfl, rfl, rfl, rfl, rfl⟩) rfl (by simpa using hv)
    (h.closed.child p hp) (h.closed.predecessor p hp) (h.closed.successor p hp)

lemma setChild : Within S t₀ (t.setChild d p v) := by
  refine h.write hp (fun x hx => ⟨rfl, fun _ => by simp [hx], rfl, rfl, rfl, rfl⟩) rfl
    (h.closed.parent p hp) (fun e y hy => ?_) (h.closed.predecessor p hp) (h.closed.successor p hp)
  rw [setChild_links, child_setChild] at hy
  split_ifs at hy
  · exact hv y hy
  · exact h.closed.child p hp e y hy

lemma setPredecessor : Within S t₀ (t.setPredecessor p v) :=
  h.write hp (fun x hx => ⟨rfl, fun _ => rfl, by simp [hx], rfl, rfl, rfl⟩) rfl
    (h.closed.parent p hp) (h.closed.child p hp) (by simpa using hv) (h.closed.successor p hp)

lemma setSuccessor : Within S t₀ (t.setSuccessor p v) :=
  h.write hp (fun x hx => ⟨rfl, fun _ => rfl, rfl, by simp [hx], rfl, rfl⟩) rfl
    (h.closed.parent p hp) (h.closed.child p hp) (h.closed.predecessor p hp) (by simpa using hv)

end

lemma setColor (hp : p ∈ S) (c : ColorType) : Within S t₀ (t.setColor p c) :=
  h.write hp (fun _ hx => ⟨rfl, fun _ => rfl, rfl, rfl, Function.update_of_ne hx _ _, rfl⟩) rfl
    (h.closed.parent p hp) (h.closed.child p hp) (h.closed.predecessor p hp) (h.closed.successor p hp)

lemma setItem (hp : p ∈ S) (a : D) : Within S t₀ (t.setItem p a) :=
  h.write hp (fun x hx => ⟨rfl, fun _ => rfl, rfl, rfl, rfl, by simp [hx]⟩) rfl
    (h.closed.parent p hp) (h.closed.child p hp) (h.closed.predecessor p hp) (h.closed.successor p hp)

section

variable (hw : Into S w) (hv : Into S v)

include hw hv

lemma guardedSetParent : Within S t₀ (t.guarded w fun t y => t.setParent y v) := by
  cases w with
  | none => exact h
  | some y => exact h.setParent (hw y rfl) hv

lemma guardedSetPredecessor : Within S t₀ (t.guarded w fun t y => t.setPredecessor y v) := by
  cases w with
  | none => exact h
  | some y => exact h.setPredecessor (hw y rfl) hv

lemma guardedSetSuccessor : Within S t₀ (t.guarded w fun t y => t.setSuccessor y v) := by
  cases w with
  | none => exact h
  | some y => exact h.setSuccessor (hw y rfl) hv

lemma replaceChild {u : P} : Within S t₀ (t.replaceChild w u v) := by
  cases w with
  | none => exact h.setRoot hv
  | some w =>
    have hws : w ∈ S := hw w rfl
    by_cases hleft : t.links.child .left w = some u
    · have heq : t.replaceChild (some w) u v = t.setChild .left w v := by
        rw [Tree.replaceChild, Links.replaceChild, if_pos hleft, Tree.setChild]
      exact heq ▸ h.setChild hws hv
    · have heq : t.replaceChild (some w) u v = t.setChild .right w v := by
        rw [Tree.replaceChild, Links.replaceChild, if_neg hleft, Tree.setChild]
      exact heq ▸ h.setChild hws hv

end

/-! ### Aggregation and rotation -/

variable {A : Aggregator D} {fuel : ℕ}

lemma aggregateNode (hp : p ∈ S) : Within S t₀ (t.aggregateNode A p) :=
  h.setItem hp _

lemma aggregatePath (hv : Into S v) : Post (Within S t₀) (aggregatePath A fuel t v) := by
  induction fuel generalizing t v with
  | zero =>
    cases v with
    | none => exact .some h
    | some x => exact .none
  | succ fuel ih =>
    cases v with
    | none => exact .some h
    | some x =>
      have hx : x ∈ S := hv x rfl
      have hagg := h.aggregateNode (A := A) hx
      exact .ite (fun _ => ih hagg (hagg.closed.parent x hx)) fun _ => .some hagg

lemma rotate (hn : n ∈ S) : Post (Within S t₀) (t.rotate A d n) := by
  refine .bind fun u hu => .some ?_
  have hus : u ∈ S := h.closed.parent n hn u hu
  have hv : Into S (t.getChild d n) := h.closed.child n hn d
  have hw : Into S (t.getParent u) := h.closed.parent u hus
  have h₁ := h.guardedSetParent hv (some_mem hus)
  have h₂ := (h₁.setChild (d := d.flip) hus hv).setParent hus (some_mem hn)
  have h₃ := (h₂.setChild (d := d) hn (some_mem hus)).setParent hn hw
  exact ((h₃.replaceChild hw (some_mem hn)).aggregateNode hus).aggregateNode hn

/-! ### Insertion -/

lemma fixInsertRotate {grand : P} (hn : n ∈ S) (hparent : parent ∈ S) (hgrand : grand ∈ S) :
    Post (Within S t₀) (t.fixInsertRotate A d n parent grand) := by
  refine .ite (fun _ => ?_) fun _ => ?_
  · exact (h.rotate hn).seq fun t₁ h₁ => (h₁.rotate hn).seq fun t₂ h₂ =>
      .some ((h₂.setColor hn _).setColor hgrand _)
  · exact (h.rotate hparent).seq fun t₁ h₁ => .some ((h₁.setColor hparent _).setColor hgrand _)

lemma fixInsert (hn : n ∈ S) : Post (Within S t₀) (fixInsert A fuel t n) := by
  induction fuel generalizing t n with
  | zero => exact .none
  | succ fuel ih =>
    rw [fixInsert]
    cases hparent : t.getParent n with
    | none => exact .some (h.setColor hn _)
    | some parent =>
      have hps : parent ∈ S := h.closed.parent n hn parent hparent
      have hred := h.setColor hn .red
      refine .ite (fun _ => .some hred) fun _ => .bind fun grand hgrand => ?_
      have hgs : grand ∈ S := hred.closed.parent parent hps grand hgrand
      have hrecolor := (hred.setColor hgs .red).setColor hps .black
      -- what follows does not depend on the side of the uncle
      have huncle : ∀ d uncle, _ = some uncle → _ := fun d uncle huncle =>
        ih (hrecolor.setColor (hrecolor.closed.child grand hgs d uncle huncle) .black) hgs
      refine .ite (fun _ => .bind (huncle _)) fun _ => .ite (fun _ => .bind (huncle _)) fun _ => ?_
      exact .ite (fun _ => hred.fixInsertRotate hn hps hgs)
        fun _ => hred.fixInsertRotate hn hps hgs

lemma insertRoot (hn : n ∈ S) : Post (Within S t₀) (insertRoot A fuel t n) :=
  ((h.setRoot (some_mem hn)).aggregateNode hn).fixInsert hn

lemma insertLeft (hparent : parent ∈ S) (hn : n ∈ S) :
    Post (Within S t₀) (insertLeft A fuel t parent n) := by
  have hlink := (h.setChild (d := .left) hparent (some_mem hn)).setParent hn (some_mem hparent)
  have hpred := hlink.closed.predecessor parent hparent
  have h₂ := hlink.guardedSetSuccessor hpred (some_mem hn)
  have h₃ := ((h₂.setPredecessor hn hpred).setSuccessor hn (some_mem hparent)).setPredecessor
    hparent (some_mem hn)
  exact ((h₃.aggregateNode hn).aggregatePath (some_mem hparent)).seq fun t₁ h₁ => h₁.fixInsert hn

lemma insertRight (hparent : parent ∈ S) (hn : n ∈ S) :
    Post (Within S t₀) (insertRight A fuel t parent n) := by
  have hlink := (h.setChild (d := .right) hparent (some_mem hn)).setParent hn (some_mem hparent)
  have hsucc := hlink.closed.successor parent hparent
  have h₂ := ((hlink.setSuccessor hparent (some_mem hn)).setPredecessor hn
    (some_mem hparent)).setSuccessor hn hsucc
  have h₃ := h₂.guardedSetPredecessor hsucc (some_mem hn)
  exact ((h₃.aggregateNode hn).aggregatePath (some_mem hparent)).seq fun t₁ h₁ => h₁.fixInsert hn

lemma insertLoop {steps : ℕ} {current : P} (hn : n ∈ S) (hcurrent : current ∈ S) :
    Post (Within S t₀) (insertLoop A less fuel t n steps current) := by
  induction steps generalizing current with
  | zero => exact .none
  | succ steps ih =>
    refine .ite (fun _ => ?_) fun _ => ?_
    · cases hnext : t.getLeft current with
      | none => exact h.insertLeft hcurrent hn
      | some next => exact ih (h.closed.child current hcurrent _ next hnext)
    · cases hnext : t.getRight current with
      | none => exact h.insertRight hcurrent hn
      | some next => exact ih (h.closed.child current hcurrent _ next hnext)

/-- **`Insert` stays in the tree.** -/
theorem insert (hn : n ∈ S) (heq : insert A less fuel t n = some t') : Within S t₀ t' := by
  rw [Tree.insert] at heq
  cases hroot : t.getRoot with
  | none =>
    rw [hroot] at heq
    exact h.insertRoot hn t' heq
  | some root =>
    rw [hroot] at heq
    exact h.insertLoop hn (h.closed.root root hroot) t' heq

/-! ### Removal -/

lemma fixRemoveOuter {s : P} {c : ColorType} (hparent : parent ∈ S) (hs : s ∈ S) :
    Post (Within S t₀) (t.fixRemoveOuter A d parent s c) := by
  refine (h.rotate hs).seq fun t₁ h₁ => .bind fun outer houter => .some ?_
  have hcolor := (h₁.setColor hparent .black).setColor hs c
  exact hcolor.setColor (hcolor.closed.child s hs _ outer houter) _

lemma fixRemoveRotate {s : P} (hparent : parent ∈ S) (hs : s ∈ S) :
    Post (Within S t₀) (t.fixRemoveRotate A d parent s) := by
  refine .ite (fun _ => .bind fun child hchild => ?_) fun _ => h.fixRemoveOuter hparent hs
  have hcs : child ∈ S := h.closed.child s hs _ child hchild
  exact (h.rotate hcs).seq fun t₂ h₂ =>
    ((h₂.setColor hs _).setColor hcs _).fixRemoveOuter hparent hcs

lemma fixRemoveSibling (hparent : parent ∈ S) :
    Post (fun r => Within S t₀ r.1 ∧ r.2 ∈ S) (t.fixRemoveSibling A d parent) := by
  have hsibling : ∀ t₁, Within S t₀ t₁ → Post (fun r => Within S t₀ r.1 ∧ r.2 ∈ S)
      ((t₁.getChild d.flip parent).bind fun s => some (t₁, s)) := fun t₁ h₁ =>
    .bind fun s hs => .some ⟨h₁, h₁.closed.child parent hparent _ s hs⟩
  refine .bind fun x hx => ?_
  have hxs : x ∈ S := h.closed.child parent hparent _ x hx
  refine .ite (fun _ => ?_) fun _ => hsibling t h
  exact (h.rotate hxs).seq fun t₁ h₁ => hsibling _ ((h₁.setColor hparent .red).setColor hxs .black)

section

variable (hn : n ∈ S)
include hn

lemma fixRemove : Post (Within S t₀) (fixRemove A fuel t n) := by
  induction fuel generalizing t n with
  | zero => exact .none
  | succ fuel ih =>
    rw [fixRemove]
    cases hparent : t.getParent n with
    | none => exact .some h
    | some parent =>
      have hps : parent ∈ S := h.closed.parent n hn parent hparent
      -- what follows does not depend on the side of the sibling
      have hrest : ∀ r : Tree P D × P, Within S t₀ r.1 ∧ r.2 ∈ S → Post (Within S t₀)
          (if r.1.isBlack (r.1.getLeft r.2) ∧ r.1.isBlack (r.1.getRight r.2) then
            if r.1.color parent = .black then
              fixRemove A fuel (r.1.setColor r.2 .red) parent
            else some ((r.1.setColor parent .black).setColor r.2 .red)
          else if r.1.getLeft parent = some n then r.1.fixRemoveRotate A .left parent r.2
          else r.1.fixRemoveRotate A .right parent r.2) := by
        rintro r ⟨hr, hs⟩
        exact .ite (fun _ => .ite (fun _ => ih (hr.setColor hs _) hps)
            fun _ => .some ((hr.setColor hps _).setColor hs _))
          fun _ => .ite (fun _ => hr.fixRemoveRotate hps hs) fun _ => hr.fixRemoveRotate hps hs
      exact .ite (fun _ => (h.fixRemoveSibling hps).seq hrest)
        fun _ => (h.fixRemoveSibling hps).seq hrest

lemma clearHook : Within S t₀ (t.clearHook n) :=
  ((((h.setChild hn none_mem).setChild hn none_mem).setParent hn none_mem).setPredecessor hn
    none_mem).setSuccessor hn none_mem

lemma unthread : Within S t₀ (t.unthread n) := by
  have hpred := h.closed.predecessor n hn
  have hsucc := h.closed.successor n hn
  have h₁ := h.guardedSetSuccessor hpred hsucc
  exact h₁.guardedSetPredecessor hsucc hpred

lemma unlink (hv : Into S v) : Within S t₀ (t.unlink n v) := by
  have hparent := h.closed.parent n hn
  have h₁ := h.replaceChild (u := n) hparent hv
  exact (h₁.guardedSetParent hv hparent).clearHook hn

lemma fixHalfLeaf (hv : Into S v) : Post (Within S t₀) (t.fixHalfLeaf A fuel n v) :=
  .ite (fun _ => .ite
    (fun _ => .bind fun child hchild => .some (h.setColor (hv child hchild) _))
    fun _ => h.fixRemove hn) fun _ => .some h

lemma removeHalfLeaf (hv : Into S v) :
    Post (Within S t₀) (removeHalfLeaf A fuel t n v) :=
  ((h.unthread hn).fixHalfLeaf hn hv).seq fun _ hfix =>
    (hfix.unlink hn hv).aggregatePath (hfix.closed.parent n hn)

lemma substitute {m : P} (hm : m ∈ S) : Within S t₀ (t.substitute n m) := by
  have hparent := h.closed.parent n hn
  have hleft := h.closed.child n hn .left
  have hright := h.closed.child n hn .right
  have h₁ := ((h.replaceChild (u := n) hparent (some_mem hm)).setParent hm hparent).setColor hm
    (((t.replaceChild (t.getParent n) n (some m)).setParent m (t.getParent n)).color n)
  have h₂ := h₁.setChild (d := .left) hm hleft
  have h₃ := h₂.guardedSetParent hleft (some_mem hm)
  have h₄ := h₃.setChild (d := .right) hm hright
  have h₅ := h₄.guardedSetParent hright (some_mem hm)
  have h₆ := h₅.guardedSetSuccessor (h₅.closed.predecessor n hn) (some_mem hm)
  have h₇ := h₆.setPredecessor hm (h₆.closed.predecessor n hn)
  have h₈ := h₇.setSuccessor hm (h₇.closed.successor n hn)
  have h₉ := h₈.guardedSetPredecessor (h₈.closed.successor n hn) (some_mem hm)
  exact h₉.clearHook hn

/-- **`Remove` stays in the tree.** -/
theorem remove (heq : remove A fuel t n = some t') : Within S t₀ t' := by
  have hleft := h.closed.child n hn .left
  have hright := h.closed.child n hn .right
  rw [Tree.remove] at heq
  cases hl : t.getLeft n with
  | none =>
    rw [hl] at heq
    exact h.removeHalfLeaf hn hright t' heq
  | some left =>
    cases hr : t.getRight n with
    | none =>
      rw [hl, hr] at heq
      exact h.removeHalfLeaf hn (some_mem (hleft left hl)) t' heq
    | some right =>
      rw [hl, hr] at heq
      refine Post.bind (fun pred hpred => ?_) t' heq
      have hps : pred ∈ S := h.closed.predecessor n hn pred hpred
      exact (h.removeHalfLeaf hps (h.closed.child pred hps .left)).seq fun _ hhalf =>
        ((hhalf.substitute hn hps).aggregateNode hps).aggregatePath (hhalf.closed.parent n hn)

end

end Within

/-! ### Trees that share their memory -/

variable [DecidableEq P] {C M K : Type} [LinearOrder K] {A : Aggregator D} {W : AggLaws A C M} {key : C → K}
  {s : Shape P} {fuel : ℕ} {x : P}

lemma IsTree.closed (h : IsTree W key t s) : t.Closed {x | x ∈ s.toList} where
  root := fun _ hy => h.ok.rep.mem_of_ptr hy
  parent := fun _ hx y hy => (h.ok.rep.parent_mem hx y hy).resolve_right (by simp)
  child := fun _ hx d => h.ok.rep.child_mem hx d
  predecessor := fun _ hx => (h.threaded.neighbours_mem hx).1
  successor := fun _ hx => (h.threaded.neighbours_mem hx).2

omit [DecidableEq P] in
/-- A node that is in no tree has no pointers. -/
lemma Closed.insert (h : t.Closed S) (hn : t.Fresh n) : t.Closed ({n} ∪ S) where
  root := fun y hy => .inr (h.root y hy)
  parent := by
    rintro x (rfl | hx) y hy
    · exact absurd hy (by simp [hn.parent])
    · exact .inr (h.parent x hx y hy)
  child := by
    rintro x (rfl | hx) d y hy
    · exact absurd hy (by simp [hn.child])
    · exact .inr (h.child x hx d y hy)
  predecessor := by
    rintro x (rfl | hx) y hy
    · exact absurd hy (by simp [hn.predecessor])
    · exact .inr (h.predecessor x hx y hy)
  successor := by
    rintro x (rfl | hx) y hy
    · exact absurd hy (by simp [hn.successor])
    · exact .inr (h.successor x hx y hy)

/-- An insertion leaves the nodes of the other trees alone. -/
lemma IsTree.sameNode_insert {less : D → D → Bool} (h : IsTree W key t s) (hn : t.Fresh n)
    (heq : insert A less fuel t n = some t') (hx : x ∉ s.toList) (hxn : x ≠ n) : SameNode t t' x :=
  ((h.closed.insert hn).within.insert (.inl rfl) heq).outside x (by simp [hx, hxn])

/-- A removal leaves the nodes of the other trees alone. -/
lemma IsTree.sameNode_remove (h : IsTree W key t s) (hn : n ∈ s.toList)
    (heq : remove A fuel t n = some t') (hx : x ∉ s.toList) : SameNode t t' x :=
  (h.closed.within.remove hn heq).outside x hx

/-! ### The hook of a removed node -/

lemma Fresh.aggregatePath (h : t.Fresh n) :
    Post (fun t' => t'.Fresh n) (aggregatePath A fuel t v) := by
  induction fuel generalizing t v with
  | zero =>
    cases v with
    | none => exact .some h
    | some x => exact .none
  | succ fuel ih =>
    cases v with
    | none => exact .some h
    | some x =>
      have hagg : (t.aggregateNode A x).Fresh n := { h with }
      exact .ite (fun _ => ih hagg) fun _ => .some hagg

lemma fresh_clearHook (t : Tree P D) (n : P) : (t.clearHook n).Fresh n where
  parent := by simp [clearHook]
  child := by
    intro d
    cases d <;> simp [clearHook]
  predecessor := by simp [clearHook]
  successor := by simp [clearHook]

/-- **A removed node can be inserted again**: nothing is left in its hook. -/
lemma fresh_remove (heq : remove A fuel t n = some t') : t'.Fresh n := by
  rw [remove] at heq
  have hhalf : ∀ child, Post (fun t' => t'.Fresh n) (removeHalfLeaf A fuel t n child) :=
    fun child => .bind fun t₁ _ => (fresh_clearHook _ n).aggregatePath
  split at heq
  · exact hhalf _ t' heq
  · exact hhalf _ t' heq
  · refine Post.bind (Q := fun t' : Tree P D => t'.Fresh n) (fun pred _ => .bind fun t₁ _ => ?_) t' heq
    exact Fresh.aggregatePath ⟨(fresh_clearHook _ n).parent, (fresh_clearHook _ n).child,
      (fresh_clearHook _ n).predecessor, (fresh_clearHook _ n).successor⟩

end Tree

end Northport.RBTree
