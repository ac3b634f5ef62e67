/-
# The intrusive forward list (`List.h`)

`sl::FwdList` keeps pointers to the first and to the last node; the nodes carry the pointer to their
successor.  It follows the mathematical list as long as nothing but the first node is erased: to an
erasure behind a node it answers with the node that it erased, not with the one that follows, and
when that was the last node `tail` becomes null.
-/
import Northport.Lib.FwdList
import Northport.Lib.Refine

namespace Northport.Containers

open Lib List Option Function

/-- A list, with the hooks of all nodes, also of those that are in no list. -/
structure FwdList (α : Type) where
  head : Option α
  tail : Option α
  next : α → Option α
  /-- How many nodes were put in so far. -/
  count : ℕ

inductive FwdListOp (α : Type) where
  | pushFront (value : α)
  | pushBack (value : α)
  | popFront
  | insertAfter (it : Option α) (value : α)
  | eraseAfter (it : Option α)
  | remove (value : Option α)
deriving DecidableEq, Repr

namespace FwdList

variable {α : Type} [DecidableEq α]

/-- The constructor; the hooks of the nodes are as the nodes' owners left them. -/
def empty (next : α → Option α) : FwdList α := ⟨none, none, next, 0⟩

def setNext (s : FwdList α) (p : α) (q : Option α) : FwdList α :=
  { s with next := update s.next p q }

def pushFront (s : FwdList α) (value : α) : FwdList α :=
  let s := s.setNext value s.head
  { s with head := some value, count := s.count + 1,
           tail := if s.tail = none then some value else s.tail }

/-- `none` when `tail` is null although the list is not empty. -/
def pushBack (s : FwdList α) (value : α) : Option (FwdList α) :=
  let s := s.setNext value none
  match s.head, s.tail with
  | none, _ => some { s with head := some value, tail := some value, count := s.count + 1 }
  | some _, some t =>
    some { s.setNext t (some value) with tail := some value, count := s.count + 1 }
  | some _, none => none

def popFront (s : FwdList α) : FwdList α × Option α :=
  match s.head with
  | none => (s, none)
  | some temp =>
    let head := s.next temp
    ({ s with head := head, tail := if head = none then none else s.tail }, some temp)

def insertAfter (s : FwdList α) (it : Option α) (value : α) : Option (FwdList α) :=
  match it with
  | none => s.pushBack value
  | some p =>
    let s := (s.setNext value (s.next p)).setNext p (some value)
    some { s with tail := if some p = s.tail then some value else s.tail, count := s.count + 1 }

def eraseAfter (s : FwdList α) (it : Option α) : Option (FwdList α × Option α) :=
  match it with
  | none => some (s, none)
  | some p =>
    match s.next p with
    | some temp =>
      let s := s.setNext p (s.next temp)
      some ({ s with tail := if some temp = s.tail then s.next temp else s.tail }, some temp)
    | none =>
      -- the successor of a null pointer is read when `tail` is null too
      if s.tail = none then none else some (s.setNext p none, none)

/-- The loop of `Remove`. -/
def removeLoop (s : FwdList α) (value : α) : ℕ → α → Option (FwdList α × Option α)
  | 0, _ => none
  | fuel + 1, scan =>
    match s.next scan with
    | none => some (s, none)
    | some q => if q = value then s.eraseAfter (some scan) else removeLoop s value fuel q

def remove (s : FwdList α) (value : Option α) : Option (FwdList α × Option α) :=
  match value, s.head with
  | none, _ => some (s, none)
  | _, none => some (s, none)
  | some value, some h =>
    if h = value then
      let s := s.popFront.1
      some (s, s.head)
    else s.removeLoop value s.count h

/-- An operation, with the pointer or the position that it returns. -/
def step (s : FwdList α) : FwdListOp α → Option (FwdList α × Option α)
  | .pushFront value => some (s.pushFront value, none)
  | .pushBack value => (s.pushBack value).map (·, none)
  | .popFront => some s.popFront
  | .insertAfter it value => (s.insertAfter it value).map (·, none)
  | .eraseAfter it => s.eraseAfter it
  | .remove value => s.remove value

/-! ### The mathematical list -/

/-- The operations on a list of distinct nodes.  A node must not be put in twice, and a position must
be one of the list or its end. -/
def spec (l : List α) : FwdListOp α → Option (List α × Option α)
  | .pushFront value => if value ∈ l then none else some (value :: l, none)
  | .pushBack value => if value ∈ l then none else some (l ++ [value], none)
  | .popFront => some (l.tail, l.head?)
  | .insertAfter none value => if value ∈ l then none else some (l ++ [value], none)
  | .insertAfter (some p) value =>
    if p ∉ l ∨ value ∈ l then none else some (Lib.insertAfter p value l, none)
  | .eraseAfter none => some (l, none)
  | .eraseAfter (some p) =>
    if p ∉ l then none
    else some (Lib.eraseAfter p l, (following l p).bind (following l))
  | .remove none => some (l, none)
  | .remove (some value) => some (l.erase value, if value ∈ l then following l value else none)

/-- **The nodes of the list**, from `head` on, and the last one of them is `tail`. -/
structure Rep (s : FwdList α) (l : List α) : Prop where
  head : s.head = l.head?
  chain : Chain s.next l
  tail : s.tail = l.getLast?
  nodup : l.Nodup
  count : l.length ≤ s.count

/-- Nothing but the first node is erased. -/
def OnlyFirst (l : List α) : FwdListOp α → Prop
  | .eraseAfter (some p) => p ∈ l → following l p = none
  | .remove (some value) => value ∈ l → l.head? = some value
  | _ => True

instance (l : List α) : (o : FwdListOp α) → Decidable (OnlyFirst l o)
  | .eraseAfter (some p) => inferInstanceAs (Decidable (p ∈ l → following l p = none))
  | .remove (some value) => inferInstanceAs (Decidable (value ∈ l → l.head? = some value))
  | .pushFront _ | .pushBack _ | .popFront | .insertAfter _ _ | .eraseAfter none | .remove none =>
    .isTrue trivial

variable {s : FwdList α} {l : List α} {p q : α}

omit [DecidableEq α] in
lemma rep_empty (next : α → Option α) : (empty next).Rep [] :=
  ⟨rfl, trivial, rfl, nodup_nil, le_rfl⟩

lemma Rep.pushFront (h : s.Rep l) (hp : p ∉ l) : (s.pushFront p).Rep (p :: l) := by
  refine ⟨rfl, ⟨?_, h.chain.congr fun q hq => ?_⟩, ?_, nodup_cons.mpr ⟨hp, h.nodup⟩,
    Nat.succ_le_succ h.count⟩
  · exact (update_self ..).trans h.head
  · exact update_of_ne (ne_of_mem_of_not_mem hq hp) _ _
  · show (if s.tail = none then some p else s.tail) = _
    rw [h.tail]
    cases l <;> simp

lemma Rep.pushBack (h : s.Rep l) (hp : p ∉ l) : ∃ s', s.pushBack p = some s' ∧ s'.Rep (l ++ [p]) := by
  rcases eq_nil_or_concat' l with rfl | ⟨k, t, rfl⟩
  · have hhead : s.head = none := h.head
    refine ⟨_, by simp only [FwdList.pushBack, setNext, hhead]; rfl, rfl, ⟨?_, trivial⟩, rfl,
      nodup_singleton p, ?_⟩
    · exact update_self ..
    · exact Nat.succ_le_succ zero_le
  · obtain ⟨a, ha⟩ : ∃ a, s.head = some a := by
      rw [h.head]
      cases k <;> exact ⟨_, rfl⟩
    have ht : s.tail = some t := h.tail.trans (by simp)
    refine ⟨_, by simp only [FwdList.pushBack, setNext, ha, ht]; rfl, ?_, ?_, ?_, ?_, ?_⟩
    · show some a = _
      rw [← ha, h.head]
      cases k <;> rfl
    · -- the last node was the only one that pointed nowhere
      refine (h.chain.pushBack hp).congr fun q hq => ?_
      have hpt : t ≠ p := ne_of_mem_of_not_mem (by simp) hp
      simp only [Lib.pushBack, update_apply]
      by_cases hqt : q = t
      · subst hqt
        have hnone := (h.chain.next_eq_none h.nodup (p := q) (by simp)).mpr (by simp)
        rw [if_pos rfl, if_neg hpt, if_pos ⟨by simp, hnone⟩]
      · rw [if_neg hqt]
        split_ifs with hqp hlast
        · rfl
        · have hlast := (h.chain.next_eq_none h.nodup hlast.1).mp hlast.2
          simp only [getLast?_append, getLast?_singleton, some_or] at hlast
          exact absurd (some.inj hlast).symm hqt
        · rfl
    · show some p = _
      simp
    · exact h.nodup.append (nodup_singleton p) (disjoint_singleton.mpr hp)
    · rw [length_append]
      exact Nat.succ_le_succ h.count

omit [DecidableEq α] in
lemma Rep.popFront (h : s.Rep l) : s.popFront.1.Rep l.tail ∧ s.popFront.2 = l.head? := by
  cases l with
  | nil =>
    rw [popFront, show s.head = none from h.head]
    exact ⟨h, rfl⟩
  | cons a l =>
    have hnext : s.next a = l.head? := h.chain.1
    rw [popFront, show s.head = some a from h.head]
    refine ⟨⟨hnext, h.chain.2, ?_, (nodup_cons.mp h.nodup).2,
      (Nat.le_succ _).trans h.count⟩, rfl⟩
    show (if s.next a = none then none else s.tail) = _
    rw [hnext, h.tail]
    cases l <;> rfl

lemma Rep.insertAfter (h : s.Rep l) (hp : p ∈ l) (hq : q ∉ l) :
    ∃ s', s.insertAfter (some p) q = some s' ∧ s'.Rep (Lib.insertAfter p q l) := by
  have hne : ∀ {r}, r ∈ l → r ≠ q := fun hr => ne_of_mem_of_not_mem hr hq
  refine ⟨_, rfl, h.head.trans head?_insertAfter.symm, ?_, ?_, nodup_insertAfter h.nodup hp hq, ?_⟩
  · refine h.chain.insertAfter h.nodup hp ?_ ?_ fun r hr hrp => ?_
    · exact (update_of_ne (hne hp).symm ..).trans (update_self ..)
    · exact update_self ..
    · exact (update_of_ne hrp ..).trans (update_of_ne (hne hr) ..)
  · show (if some p = s.tail then some q else s.tail) = _
    rw [getLast?_insertAfter h.nodup hp, h.tail]
    simp only [eq_comm]
  · rw [length_insertAfter hp]
    exact Nat.succ_le_succ h.count

/-- Behind the last node nothing happens. -/
lemma Rep.eraseAfter_last (h : s.Rep l) (hp : p ∈ l) (hnext : s.next p = none) :
    s.eraseAfter (some p) = some (s, none) := by
  have htail : s.tail ≠ none := by
    rw [h.tail, Ne, getLast?_eq_none_iff]
    exact ne_nil_of_mem hp
  simp only [eraseAfter, hnext, if_neg htail, setNext]
  rw [update_eq_self_iff.mpr hnext.symm]

/-- An erasure returns the node that it erased. -/
lemma eraseAfter_returns (hnext : s.next p = some q) :
    ∃ s', s.eraseAfter (some p) = some (s', some q) := by
  simp only [eraseAfter, hnext]
  exact ⟨_, rfl⟩

/-- The loop of `Remove` ends behind the list or in front of the node. -/
lemma removeLoop_spec {k : List α} {scan : α} (hchain : Chain s.next (scan :: k)) {fuel : ℕ}
    (hfuel : k.length < fuel) :
    (q ∉ k → s.removeLoop q fuel scan = some (s, none)) ∧
      (q ∈ k → ∃ p, s.next p = some q ∧ s.removeLoop q fuel scan = s.eraseAfter (some p)) := by
  induction k generalizing scan fuel with
  | nil =>
    obtain ⟨fuel, rfl⟩ := Nat.exists_eq_add_of_lt hfuel
    have hnext : s.next scan = none := hchain.1
    exact ⟨fun _ => by simp only [removeLoop, hnext], fun hq => absurd hq not_mem_nil⟩
  | cons a k ih =>
    obtain ⟨fuel, rfl⟩ : ∃ fuel', fuel = fuel' + 1 := ⟨fuel - 1, by omega⟩
    have hnext : s.next scan = some a := hchain.1
    obtain ⟨hnone, hsome⟩ := ih hchain.2 (show k.length < fuel by simpa using hfuel)
    simp only [removeLoop, hnext]
    by_cases haq : a = q
    · rw [if_pos haq]
      exact ⟨fun hq => absurd (haq ▸ mem_cons_self) hq, fun _ => ⟨scan, haq ▸ hnext, rfl⟩⟩
    · rw [if_neg haq]
      refine ⟨fun hq => hnone fun hk => hq (mem_cons_of_mem _ hk), fun hq => hsome ?_⟩
      exact mem_of_ne_of_mem (Ne.symm haq) hq

/-! ### One operation -/

section

variable (h : s.Rep l)

include h

lemma Rep.answers_insertAfter (it : Option α) (q : α) :
    Answers step spec Rep s l (.insertAfter it q) := by
  intro l' r hspec
  cases it with
  | none =>
    obtain ⟨hq, hspec⟩ := ite_none_left_eq_some.mp hspec
    cases hspec
    obtain ⟨s', hs', hrep⟩ := h.pushBack hq
    exact ⟨s', by rw [step, FwdList.insertAfter, hs']; rfl, hrep⟩
  | some p =>
    obtain ⟨hpq, hspec⟩ := ite_none_left_eq_some.mp hspec
    cases hspec
    rw [not_or, not_not] at hpq
    obtain ⟨s', hs', hrep⟩ := h.insertAfter hpq.1 hpq.2
    exact ⟨s', by rw [step, hs']; rfl, hrep⟩

lemma Rep.answers_eraseAfter (it : Option α) :
    Answers step spec Rep s l (.eraseAfter it) ↔ OnlyFirst l (.eraseAfter it) := by
  cases it with
  | none =>
    refine iff_of_true (fun l' r hspec => ?_) trivial
    cases hspec
    exact ⟨s, rfl, h⟩
  | some p =>
    by_cases hp : p ∈ l
    · have hspec : spec l (.eraseAfter (some p)) =
          some (Lib.eraseAfter p l, (following l p).bind (following l)) := if_neg (not_not.mpr hp)
      have hfollowing := h.chain.following_eq hp
      constructor
      · intro hanswers _
        cases hnext : s.next p with
        | none => exact hfollowing.trans hnext
        | some q =>
          -- the result is the node itself, and it does not follow itself
          obtain ⟨s', hs', -⟩ := hanswers _ _ hspec
          obtain ⟨s'', hs''⟩ := eraseAfter_returns hnext
          have hr := (Prod.mk.inj (some.inj (hs''.symm.trans hs'))).2
          rw [hfollowing, hnext] at hr
          exact absurd hr.symm (following_ne h.nodup)
      · intro hlast l' r hspec'
        have hlast := hlast hp
        rw [hspec, hlast, eraseAfter_of_last hlast] at hspec'
        cases hspec'
        exact ⟨s, h.eraseAfter_last hp (hfollowing.symm.trans hlast), h⟩
    · refine iff_of_true (fun l' r hspec => ?_) fun hp' => absurd hp' hp
      exact absurd hspec (by simp [spec, hp])

/-- `Remove` of the first node, or of a node that is not in the list. -/
lemma Rep.remove (hq : q ∈ l → l.head? = some q) :
    ∃ s', s.remove (some q) = some (s', if q ∈ l then following l q else none) ∧
      s'.Rep (l.erase q) := by
  cases l with
  | nil =>
    have hhead : s.head = none := h.head
    exact ⟨s, by simp only [remove, hhead, not_mem_nil, if_false], h⟩
  | cons a l =>
    have hhead : s.head = some a := h.head
    simp only [remove, hhead]
    by_cases haq : a = q
    · subst haq
      obtain ⟨hrep, -⟩ := h.popFront
      refine ⟨s.popFront.1, ?_, by rw [erase_cons_head]; exact hrep⟩
      simp only [if_true, mem_cons_self, following]
      rw [hrep.head]
      rfl
    · have hnot : q ∉ a :: l := fun hmem => haq (some.inj (hq hmem))
      have hloop := (removeLoop_spec (q := q) h.chain h.count).1
        fun hmem => hnot (mem_cons_of_mem _ hmem)
      refine ⟨s, ?_, by rw [erase_of_not_mem hnot]; exact h⟩
      simp only [if_neg haq, if_neg hnot, hloop]

/-- `Remove` of another node returns the node. -/
lemma Rep.remove_returns (hq : q ∈ l) (hhead : l.head? ≠ some q) :
    ∃ s', s.remove (some q) = some (s', some q) := by
  cases l with
  | nil => cases hq
  | cons a l =>
    have haq : a ≠ q := fun heq => hhead (congrArg some heq)
    obtain ⟨p, hp, hloop⟩ := (removeLoop_spec (q := q) h.chain h.count).2
      (mem_of_ne_of_mem haq.symm hq)
    obtain ⟨s', hs'⟩ := eraseAfter_returns hp
    refine ⟨s', ?_⟩
    simp only [FwdList.remove, show s.head = some a from h.head, if_neg haq, hloop, hs']

lemma Rep.answers_remove (value : Option α) :
    Answers step spec Rep s l (.remove value) ↔ OnlyFirst l (.remove value) := by
  cases value with
  | none =>
    refine iff_of_true (fun l' r hspec => ?_) trivial
    cases hspec
    refine ⟨s, ?_, h⟩
    rw [step, FwdList.remove]
  | some q =>
    constructor
    · intro hanswers hq
      by_contra hhead
      obtain ⟨s', hs', -⟩ := hanswers _ _ rfl
      obtain ⟨s'', hs''⟩ := h.remove_returns hq hhead
      have hr := (Prod.mk.inj (some.inj (hs''.symm.trans hs'))).2
      rw [if_pos hq] at hr
      exact following_ne h.nodup hr.symm
    · intro hq l' r hspec
      cases hspec
      exact h.remove hq

/-- **One operation** is answered rightly exactly if it erases nothing but the first node. -/
lemma Rep.answers_iff (o : FwdListOp α) : Answers step spec Rep s l o ↔ OnlyFirst l o := by
  cases o with
  | pushFront p =>
    refine iff_of_true (fun l' r hspec => ?_) trivial
    obtain ⟨hp, hspec⟩ := ite_none_left_eq_some.mp hspec
    cases hspec
    exact ⟨_, rfl, h.pushFront hp⟩
  | pushBack p =>
    refine iff_of_true (fun l' r hspec => ?_) trivial
    obtain ⟨hp, hspec⟩ := ite_none_left_eq_some.mp hspec
    cases hspec
    obtain ⟨s', hs', hrep⟩ := h.pushBack hp
    exact ⟨s', by rw [step, hs']; rfl, hrep⟩
  | popFront =>
    refine iff_of_true (fun l' r hspec => ?_) trivial
    cases hspec
    obtain ⟨hrep, hr⟩ := h.popFront
    exact ⟨_, by rw [step, ← hr], hrep⟩
  | insertAfter it q => exact iff_of_true (h.answers_insertAfter it q) trivial
  | eraseAfter it => exact h.answers_eraseAfter it
  | remove value => exact h.answers_remove value

end

/-- **The list follows the mathematical list exactly if nothing but the first node is erased.** -/
theorem follows_iff_onlyFirst (next : α → Option α) (ops : List (FwdListOp α)) :
    Follows step spec Rep (empty next) [] ops ↔ Allowed (specState spec) OnlyFirst [] ops :=
  follows_iff_allowed (fun _ _ o h => h.answers_iff o) (rep_empty next) ops

/-- **The last of two nodes is removed**: `Remove` returns it, `tail` is null although the first node
is still there, and a later `PushBack` has no node to append to. -/
theorem remove_last_loses_tail :
    ¬ Follows step spec Rep (empty fun _ : ℕ => none) []
      [.pushBack 1, .pushBack 2, .remove (some 2)] ∧
    (run (fun s o => (s.step o).map Prod.fst) (empty fun _ : ℕ => none)
      [.pushBack 1, .pushBack 2, .remove (some 2)]).map (fun s => (s.head, s.tail)) =
        some (some 1, none) ∧
    (run (fun s o => (s.step o).map Prod.fst) (empty fun _ : ℕ => none)
      [.pushBack 1, .pushBack 2, .remove (some 2), .pushBack 3]).isNone := by
  refine ⟨?_, by decide, by decide⟩
  rw [follows_iff_allowed (fun _ _ o h => Rep.answers_iff h o) (rep_empty _)]
  decide

end FwdList

end Northport.Containers
