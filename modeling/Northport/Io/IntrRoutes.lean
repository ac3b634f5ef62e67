/-
# Vectors of interrupt routes

The routes of each core form a well formed tree in which no vector occurs twice, and the
trees of different cores have no route in common.  A search for a vector therefore finds
the route that holds it; the first vector that is free is the one that a new route gets;
and taking a route out of its tree leaves it as it was before it was routed.
-/
import Northport.Io.IntrRouter
import Northport.Lib.Run

namespace Northport.Io

open Lib Northport.RBTree Drivers List Function

lemma allocBase_pos (arch : Arch) : 0 < intVectorAllocBase arch := by cases arch <;> decide

lemma allocLimit_le_noVector (arch : Arch) : intVectorAllocLimit arch ≤ noVector arch := by
  cases arch <;> decide

namespace InterruptRouter

variable {P : Type} [DecidableEq P] {arch : Arch} {s s' : InterruptRouter P}
  {shape : ℕ → Shape P} {i j self core vector : ℕ} {route x : P} {routing : CoreIntrRouting P}
  {t : Tree P InterruptRoute} {sh : Shape P}

/-- **The invariant** of the router; `shape i` is the tree of the routing `i`. -/
structure Trees (arch : Arch) (s : InterruptRouter P) (shape : ℕ → Shape P) : Prop where
  coreLocal : ∀ core i, s.coreLocal core = some i ↔
    ∃ routing, s.routings[i]? = some routing ∧ routing.coreId = core
  isTree : ∀ i, (s.tree i).IsTree (nullLaws _) InterruptRoute.vector (shape i)
  disjoint : ∀ i j, i ≠ j → ∀ x ∈ (shape i).toList, x ∉ (shape j).toList
  core : ∀ i, ∀ x ∈ (shape i).toList, s.coreLocal (s.routes.item x).core = some i
  range : ∀ i, ∀ x ∈ (shape i).toList, (s.routes.item x).vector ∈
    Finset.Ico (intVectorAllocBase arch) (intVectorAllocLimit arch)
  distinct : ∀ i, ∀ x ∈ (shape i).toList, ∀ y ∈ (shape i).toList,
    (s.routes.item x).vector = (s.routes.item y).vector → x = y
  fresh : ∀ x, (∀ i, x ∉ (shape i).toList) → s.routes.Fresh x

lemma trees_init (item : P → InterruptRoute) : Trees arch (init item) fun _ => .nil where
  coreLocal := by simp [init]
  isTree := fun _ => Tree.isTree_empty item
  disjoint := by simp
  core := by simp
  range := by simp
  distinct := by simp
  fresh := fun _ _ => ⟨rfl, fun _ => rfl, rfl, rfl⟩

/-! ### Looking up routings and routes -/

/-- Whichever way `GetRouting` takes, it comes to the routing of the core. -/
lemma Trees.getRouting (h : Trees arch s shape) : s.getRouting self core = s.coreLocal core := by
  rw [InterruptRouter.getRouting]
  split_ifs with hself
  · rw [hself]
  · cases hidx : s.routings.findIdx? fun scan => scan.coreId = core with
    | none =>
      rw [findIdx?_eq_none_iff] at hidx
      cases hlocal : s.coreLocal core with
      | none => rfl
      | some i =>
        obtain ⟨routing, hi, hid⟩ := (h.coreLocal core i).mp hlocal
        exact absurd hid (by simpa using hidx routing (mem_of_getElem? hi))
    | some i =>
      obtain ⟨hlt, hid, -⟩ := findIdx?_eq_some_iff_getElem.mp hidx
      exact ((h.coreLocal core i).mpr ⟨s.routings[i], getElem?_eq_getElem hlt,
        by simpa using hid⟩).symm

omit [DecidableEq P] in
/-- The comparison that directs `FindRoute`. -/
lemma findRoute_cmp (a b : ℕ) :
    (if b = a then .eq else if a < b then .lt else .gt : Ordering) = compare a b := by
  rcases lt_trichotomy a b with h | rfl | h
  · rw [if_neg h.ne', if_pos h, compare_lt_iff_lt.mpr h]
  · rw [if_pos rfl, compare_eq_iff_eq.mpr rfl]
  · rw [if_neg h.ne, if_neg h.not_gt, compare_gt_iff_gt.mpr h]

section

variable (h : Trees arch s shape)

include h

/-- There are at most as many routes in a tree as there are vectors. -/
lemma Trees.length_le (i : ℕ) :
    (shape i).toList.length ≤ intVectorAllocLimit arch - intVectorAllocBase arch := by
  have hnd : ((shape i).toList.map fun x => (s.routes.item x).vector).Nodup :=
    Nodup.map_on (h.distinct i) (h.isTree i).ok.nodup
  have hsub : ((shape i).toList.map fun x => (s.routes.item x).vector).toFinset ⊆
      Finset.Ico (intVectorAllocBase arch) (intVectorAllocLimit arch) := by
    intro v hv
    obtain ⟨x, hx, rfl⟩ := mem_map.mp (mem_toFinset.mp hv)
    exact h.range i x hx
  have hcard := Finset.card_le_card hsub
  rwa [toFinset_card_of_nodup hnd, length_map, Nat.card_Ico] at hcard

lemma Trees.sorted (i : ℕ) : (shape i).toList.Pairwise fun x y =>
    (s.routes.item x).vector < (s.routes.item y).vector := by
  refine (pairwise_and_iff.mpr ⟨(h.isTree i).sorted, (h.isTree i).ok.nodup⟩).imp_of_mem ?_
  rintro x y hx hy ⟨hle, hne⟩
  exact lt_of_le_of_ne hle fun heq => hne (h.distinct i x hx y hy heq)

/-- **`FindRoute` finds the route that holds the vector.** -/
lemma Trees.findRoute (self vector : ℕ) (hi : s.coreLocal core = some i) :
    ∃ found, s.findRoute arch self core vector = some found ∧
      ∀ x, found = some x ↔ x ∈ (shape i).toList ∧ (s.routes.item x).vector = vector := by
  refine ⟨_, ?_, fun x => Shape.search_iff (h.sorted i)⟩
  rw [InterruptRouter.findRoute, h.getRouting, hi]
  simp only [findRoute_cmp]
  exact (h.isTree i).ok.rep.search _ ((h.length_le i).trans (Nat.sub_le _ _))

/-! ### Changes of the router -/

/-- A route that is in no tree may be written. -/
lemma Trees.setRoute (hroute : ∀ i, route ∉ (shape i).toList)
    (core vector : ℕ) : Trees arch (s.setRoute route core vector) shape := by
  have hitem : ∀ i, ∀ x ∈ (shape i).toList,
      (s.setRoute route core vector).routes.item x = s.routes.item x := by
    intro i x hx
    have hne : x ≠ route := fun heq => hroute i (heq ▸ hx)
    simp [InterruptRouter.setRoute, hne]
  refine ⟨h.coreLocal, fun i => ?_, h.disjoint, ?_, ?_, ?_, ?_⟩
  · refine (h.isTree i).congr rfl fun x hx => ⟨rfl, fun _ => rfl, rfl, rfl, rfl, ?_⟩
    exact hitem i x hx
  · intro i x hx
    rw [hitem i x hx]
    exact h.core i x hx
  · intro i x hx
    rw [hitem i x hx]
    exact h.range i x hx
  · intro i x hx y hy
    rw [hitem i x hx, hitem i y hy]
    exact h.distinct i x hx y hy
  · exact fun x hx => { h.fresh x hx with }

end

section

omit [DecidableEq P]

lemma coreId_setTree (t : Tree P InterruptRoute) (i j core : ℕ) :
    (∃ routing, (s.setTree i t).routings[j]? = some routing ∧ routing.coreId = core) ↔
      ∃ routing, s.routings[j]? = some routing ∧ routing.coreId = core := by
  rw [setTree, getElem?_modify]
  by_cases hij : i = j
  · cases s.routings[j]? <;> simp [hij]
  · simp [hij]

lemma tree_setTree_self (hi : s.routings[i]? = some routing) : (s.setTree i t).tree i = t := by
  rw [tree, setTree]
  rw [getElem?_modify_eq, hi]
  rfl

lemma tree_setTree_ne (hij : i ≠ j) :
    (s.setTree i t).tree j = t.setRoot (s.routings[j]?.bind CoreIntrRouting.root) := by
  rw [tree, setTree]
  rw [getElem?_modify_ne _ _ hij]

end

lemma Trees.fresh_tree (h : Trees arch s shape) (i : ℕ) (hx : ∀ j, x ∉ (shape j).toList) :
    (s.tree i).Fresh x :=
  ⟨(h.fresh x hx).parent, (h.fresh x hx).child, (h.fresh x hx).predecessor, (h.fresh x hx).successor⟩

/-- **The tree of one core is changed** at one route only. -/
lemma Trees.setTree (h : Trees arch s shape) (hi : s.routings[i]? = some routing)
    (htree : t.IsTree (nullLaws _) InterruptRoute.vector sh) (hitem : t.item = s.routes.item)
    (hout : ∀ x, x ∉ (shape i).toList → x ≠ route → (s.tree i).SameNode t x)
    (hsub : ∀ x ∈ sh.toList, x = route ∨ x ∈ (shape i).toList)
    (hkeep : ∀ x ∈ (shape i).toList, x ≠ route → x ∈ sh.toList)
    (hcore : s.coreLocal (s.routes.item route).core = some i)
    (hrange : (s.routes.item route).vector ∈
      Finset.Ico (intVectorAllocBase arch) (intVectorAllocLimit arch))
    (hfree : ∀ x ∈ (shape i).toList,
      (s.routes.item x).vector = (s.routes.item route).vector → x = route)
    (hfresh : route ∉ sh.toList → t.Fresh route) :
    Trees arch (s.setTree i t) (update shape i sh) := by
  have hcores : ∀ j, ∀ x ∈ (update shape i sh j).toList,
      s.coreLocal (t.item x).core = some j := by
    refine (forall_update_iff shape fun j sh => ∀ x ∈ sh.toList,
      s.coreLocal (t.item x).core = some j).mpr ⟨fun x hx => ?_, fun j _ => hitem ▸ h.core j⟩
    rw [hitem]
    rcases hsub x hx with rfl | hx
    · exact hcore
    · exact h.core i x hx
  refine ⟨fun core j => ?_, fun j => ?_, ?_, hcores, ?_, ?_, fun x hx => ?_⟩
  · rw [coreId_setTree]
    exact h.coreLocal core j
  · by_cases hij : j = i
    · rw [hij, update_self, tree_setTree_self hi]
      exact htree
    · rw [update_of_ne hij, tree_setTree_ne (Ne.symm hij)]
      refine (h.isTree j).congr rfl fun x hx => ?_
      have hx := hout x (h.disjoint j i hij x hx) fun heq =>
        hij (Option.some.inj ((h.core j x hx).symm.trans (heq ▸ hcore)))
      exact { hx with }
  · -- the core of a route says which tree it is in
    intro j k hjk x hx hx'
    exact hjk (Option.some.inj ((hcores j x hx).symm.trans (hcores k x hx')))
  · refine (forall_update_iff shape fun _ sh => ∀ x ∈ sh.toList, (t.item x).vector ∈
      Finset.Ico _ _).mpr ⟨fun x hx => ?_, fun j _ => hitem ▸ h.range j⟩
    rw [hitem]
    rcases hsub x hx with rfl | hx
    · exact hrange
    · exact h.range i x hx
  · refine (forall_update_iff shape fun _ sh => ∀ x ∈ sh.toList, ∀ y ∈ sh.toList,
      (t.item x).vector = (t.item y).vector → x = y).mpr
        ⟨fun x hx y hy hxy => ?_, fun j _ => hitem ▸ h.distinct j⟩
    rw [hitem] at hxy
    rcases hsub x hx with rfl | hx <;> rcases hsub y hy with rfl | hy
    · rfl
    · exact (hfree y hy hxy.symm).symm
    · exact hfree x hx hxy
    · exact h.distinct i x hx y hy hxy
  · obtain ⟨hsh, hothers⟩ := (forall_update_iff shape fun _ sh => x ∉ sh.toList).mp hx
    by_cases hxr : x = route
    · exact hxr ▸ hfresh (hxr ▸ hsh)
    · have hxi : x ∉ (shape i).toList := fun hxi => hsh (hkeep x hxi hxr)
      refine (hout x hxi hxr).fresh (h.fresh_tree i fun j => ?_)
      by_cases hj : j = i
      · exact hj ▸ hxi
      · exact hothers j hj

lemma intrTreeLess_eq (a b : InterruptRoute) : intrTreeLess a b =
    decide (InterruptRoute.vector ((nullLaws InterruptRoute).core a) <
      InterruptRoute.vector ((nullLaws InterruptRoute).core b)) := rfl

/-- **A route is inserted** with a vector that is free. -/
lemma Trees.insert (h : Trees arch s shape) (hi : s.routings[i]? = some routing)
    (hroute : ∀ i, route ∉ (shape i).toList)
    (hcore : (s.routes.item route).core = routing.coreId)
    (hrange : (s.routes.item route).vector ∈
      Finset.Ico (intVectorAllocBase arch) (intVectorAllocLimit arch))
    (hfree : ∀ x ∈ (shape i).toList, (s.routes.item x).vector ≠ (s.routes.item route).vector) :
    ∃ t sh, Tree.insert (nullAggregate _) intrTreeLess (intVectorAllocLimit arch) (s.tree i) route =
        some t ∧ Trees arch (s.setTree i t) (update shape i sh) ∧
      (∀ x, x ∈ sh.toList ↔ x = route ∨ x ∈ (shape i).toList) ∧ t.item = s.routes.item := by
  have hfresh := h.fresh_tree i hroute
  have hlen : (shape i).toList.length < intVectorAllocLimit arch := by
    have := h.length_le i
    have := allocBase_pos arch
    have := Finset.mem_Ico.mp hrange
    omega
  obtain ⟨t, l₁, l₂, heq, hlist, sh, htree, hsh, hsame⟩ :=
    Tree.insert_spec intrTreeLess_eq (h.isTree i) hfresh (hroute i) hlen
  have hitem : t.item = s.routes.item := funext fun x => hsame x
  have hmem : ∀ x, x ∈ sh.toList ↔ x = route ∨ x ∈ (shape i).toList := by
    intro x
    rw [hsh, hlist, mem_append, mem_cons, mem_append]
    tauto
  have hlocal : s.coreLocal (s.routes.item route).core = some i :=
    (h.coreLocal _ i).mpr ⟨routing, hi, hcore.symm⟩
  refine ⟨t, sh, heq, h.setTree hi htree hitem ?_ (fun x => (hmem x).mp) ?_ hlocal hrange
    (fun x hx hxy => absurd hxy (hfree x hx)) ?_, hmem, hitem⟩
  · exact fun x hx hne => (h.isTree i).sameNode_insert hfresh heq hx hne
  · exact fun x hx _ => (hmem x).mpr (.inr hx)
  · exact fun hnot => absurd ((hmem route).mpr (.inl rfl)) hnot

/-- **A route is removed**, and its hook is as it was before it was inserted. -/
lemma Trees.remove (h : Trees arch s shape) (hroute : route ∈ (shape i).toList) :
    ∃ t sh, Tree.remove (nullAggregate _) (intVectorAllocLimit arch) (s.tree i) route = some t ∧
      Trees arch (s.setTree i t) (update shape i sh) ∧
      (∀ x, x ∈ sh.toList ↔ x ≠ route ∧ x ∈ (shape i).toList) ∧ t.item = s.routes.item := by
  obtain ⟨routing, hi, -⟩ := (h.coreLocal _ i).mp (h.core i route hroute)
  obtain ⟨t, heq, sh, htree, hsh, hsame⟩ :=
    Tree.remove_spec (h.isTree i) hroute ((h.length_le i).trans (Nat.sub_le _ _))
  have hitem : t.item = s.routes.item := funext fun x => hsame x
  have hmem : ∀ x, x ∈ sh.toList ↔ x ≠ route ∧ x ∈ (shape i).toList := by
    intro x
    rw [hsh]
    exact (h.isTree i).ok.nodup.mem_erase_iff
  refine ⟨t, sh, heq, h.setTree hi htree hitem ?_ (fun x hx => .inr ((hmem x).mp hx).2)
    (fun x hx hne => (hmem x).mpr ⟨hne, hx⟩) (h.core i route hroute) (h.range i route hroute) ?_
    (fun _ => Tree.fresh_remove heq), hmem, hitem⟩
  · exact fun x hx _ => (h.isTree i).sameNode_remove hroute heq hx
  · exact fun x hx => h.distinct i x hx route hroute

/-! ### The calls -/

omit [DecidableEq P] in
lemma tree_initCore (s : InterruptRouter P) (self i : ℕ) : (s.initCore self).tree i = s.tree i := by
  have hroot : (s.routings ++ [⟨self, none⟩])[i]?.bind CoreIntrRouting.root =
      s.routings[i]?.bind CoreIntrRouting.root := by
    rcases lt_trichotomy i s.routings.length with h | rfl | h
    · rw [getElem?_append_left h]
    · simp
    · rw [getElem?_eq_none (by simpa using h), getElem?_eq_none h.le]
  rw [tree, tree, initCore]
  rw [hroot]

/-- A core that has not yet called it calls `InitCore`. -/
lemma Trees.initCore (h : Trees arch s shape) (hself : s.coreLocal self = none) :
    Trees arch (s.initCore self) shape where
  coreLocal := by
    intro core i
    show update s.coreLocal self (some s.routings.length) core = some i ↔
      ∃ routing, (s.routings ++ [⟨self, none⟩])[i]? = some routing ∧ routing.coreId = core
    rcases lt_trichotomy i s.routings.length with hi | rfl | hi
    · rw [getElem?_append_left hi, ← h.coreLocal]
      by_cases hcore : core = self
      · rw [hcore, update_self, hself]
        simp [hi.ne']
      · rw [update_of_ne hcore]
    · by_cases hcore : core = self
      · simp [hcore]
      · rw [update_of_ne hcore]
        have hout : s.coreLocal core ≠ some s.routings.length := by
          intro heq
          obtain ⟨routing, hi, -⟩ := (h.coreLocal core _).mp heq
          simp at hi
        simp [hout, Ne.symm hcore]
    · have hout : (s.routings ++ [⟨self, none⟩])[i]? = none :=
        getElem?_eq_none (by simpa using hi)
      rw [hout]
      by_cases hcore : core = self
      · simp [hcore, hi.ne]
      · rw [update_of_ne hcore, h.coreLocal, getElem?_eq_none hi.le]
  isTree := by
    intro i
    rw [tree_initCore]
    exact h.isTree i
  disjoint := h.disjoint
  core := by
    intro i x hx
    have hcore := h.core i x hx
    have hne : (s.routes.item x).core ≠ self := fun heq => by simp [heq, hself] at hcore
    exact (update_of_ne hne _ _).trans hcore
  range := h.range
  distinct := h.distinct
  fresh := h.fresh

/-- The route is in one of the trees. -/
def InTree (shape : ℕ → Shape P) (x : P) : Prop := ∃ i, x ∈ (shape i).toList

/-- The core of a route says which tree it is in. -/
lemma Trees.mem_iff (h : Trees arch s shape) : x ∈ (shape i).toList ↔
    InTree shape x ∧ s.coreLocal (s.routes.item x).core = some i := by
  constructor
  · intro hx
    exact ⟨⟨i, hx⟩, h.core i x hx⟩
  · rintro ⟨⟨j, hx⟩, hcore⟩
    rw [h.core j x hx] at hcore
    exact Option.some.inj hcore ▸ hx

/-- What a search finds depends on the routes in the trees only. -/
lemma Trees.findRoute_congr {shape' : ℕ → Shape P} (h : Trees arch s shape)
    (h' : Trees arch s' shape') (hlocal : s'.coreLocal = s.coreLocal)
    (htree : ∀ x, InTree shape' x ↔ InTree shape x)
    (hitem : ∀ x, InTree shape x → s'.routes.item x = s.routes.item x) :
    s'.findRoute arch self core vector = s.findRoute arch self core vector := by
  cases hi : s.coreLocal core with
  | none =>
    have hi' : s'.coreLocal core = none := by rw [hlocal, hi]
    rw [InterruptRouter.findRoute, InterruptRouter.findRoute, h.getRouting, h'.getRouting, hi, hi']
  | some i =>
    obtain ⟨found, heq, hfound⟩ := h.findRoute self vector hi
    obtain ⟨found', heq', hfound'⟩ := h'.findRoute self vector
      ((congrFun hlocal core).trans hi)
    rw [heq, heq']
    refine congrArg some (Option.ext fun x => ?_)
    rw [hfound, hfound', h.mem_iff, h'.mem_iff, htree, hlocal, and_assoc, and_assoc]
    refine and_congr_right fun hx => ?_
    rw [hitem x hx]

/-- From `s` to `s'` no route but `route` has changed, and no core. -/
structure Steps (arch : Arch) (s s' : InterruptRouter P) (shape' : ℕ → Shape P) (route : P) :
    Prop where
  trees : Trees arch s' shape'
  coreLocal : s'.coreLocal = s.coreLocal
  item : ∀ x, x ≠ route → s'.routes.item x = s.routes.item x

lemma Steps.trans {s₁ s₂ : InterruptRouter P} {shape₁ shape₂ : ℕ → Shape P}
    (h₁ : Steps arch s s₁ shape₁ route) (h₂ : Steps arch s₁ s₂ shape₂ route) :
    Steps arch s s₂ shape₂ route :=
  ⟨h₂.trees, h₂.coreLocal.trans h₁.coreLocal, fun x hx => (h₂.item x hx).trans (h₁.item x hx)⟩

lemma Trees.steps_setRoute (h : Trees arch s shape) (hroute : ¬ InTree shape route)
    (core vector : ℕ) : Steps arch s (s.setRoute route core vector) shape route := by
  refine ⟨h.setRoute (fun i hi => hroute ⟨i, hi⟩) core vector, rfl, fun x hx => ?_⟩
  simp [InterruptRouter.setRoute, hx]

omit [DecidableEq P] in
/-- The trees that a tree is replaced in. -/
lemma inTree_update :
    InTree (update shape i sh) x ↔ x ∈ sh.toList ∨ ∃ j, j ≠ i ∧ x ∈ (shape j).toList :=
  exists_update_iff shape fun _ sh => x ∈ sh.toList

omit [DecidableEq P] in
lemma inTree_iff (i : ℕ) :
    InTree shape x ↔ x ∈ (shape i).toList ∨ ∃ j, j ≠ i ∧ x ∈ (shape j).toList := by
  rw [← inTree_update, update_eq_self]

section

variable (h : Trees arch s shape)
include h

lemma Trees.insertRoute (hi : s.routings[i]? = some routing)
    (hroute : ¬ InTree shape route) (hcore : (s.routes.item route).core = routing.coreId)
    (hrange : vector ∈ Finset.Ico (intVectorAllocBase arch) (intVectorAllocLimit arch))
    (hfree : ∀ x ∈ (shape i).toList, (s.routes.item x).vector ≠ vector) :
    ∃ s' shape', s.insertRoute arch i route vector = some s' ∧ Steps arch s s' shape' route ∧
      (s'.routes.item route).vector = vector ∧
      ∀ x, InTree shape' x ↔ x = route ∨ InTree shape x := by
  obtain ⟨s₁, hs₁⟩ : ∃ s₁, s₁ = s.setRoute route (s.routes.item route).core vector := ⟨_, rfl⟩
  have hsteps : Steps arch s s₁ shape route := hs₁ ▸ h.steps_setRoute hroute _ _
  have hitem : (s₁.routes.item route).core = routing.coreId ∧
      (s₁.routes.item route).vector = vector := by
    rw [hs₁]
    simp [InterruptRouter.setRoute, hcore]
  obtain ⟨t, sh, heq, htrees, hmem, ht⟩ := hsteps.trees.insert (by rw [hs₁]; exact hi) (fun i hi => hroute ⟨i, hi⟩) hitem.1
    (by rw [hitem.2]; exact hrange) (by
      intro x hx
      rw [hitem.2, hsteps.item x fun heq => hroute ⟨i, heq ▸ hx⟩]
      exact hfree x hx)
  refine ⟨s₁.setTree i t, _, ?_, ⟨htrees, hsteps.coreLocal, ?_⟩, ?_, ?_⟩
  · rw [InterruptRouter.insertRoute, ← hs₁, heq]
    rfl
  · intro x hx
    show t.item x = s.routes.item x
    rw [ht, hsteps.item x hx]
  · show (t.item route).vector = vector
    rw [ht, hitem.2]
  · intro x
    rw [inTree_update, hmem, or_assoc, ← inTree_iff]

/-- **The loop of `AddRoute`** takes the first vector that is free; if there is none, it leaves the
trees alone. -/
lemma Trees.allocLoop (self : ℕ) (hi : s.routings[i]? = some routing)
    (hroute : ¬ InTree shape route) (hcore : (s.routes.item route).core = routing.coreId) (n : ℕ)
    (hbase : intVectorAllocBase arch ≤ vector) (hlimit : vector + n = intVectorAllocLimit arch) :
    (s.allocLoop arch self i routing.coreId route n vector = some s ∧
      ∀ v, vector ≤ v → v < intVectorAllocLimit arch →
        ∃ x ∈ (shape i).toList, (s.routes.item x).vector = v) ∨
    ∃ s' shape', s.allocLoop arch self i routing.coreId route n vector = some s' ∧
      Steps arch s s' shape' route ∧ (s'.routes.item route).vector < intVectorAllocLimit arch ∧
      ∀ x, InTree shape' x ↔ x = route ∨ InTree shape x := by
  induction n generalizing vector with
  | zero => exact .inl ⟨rfl, fun v hv hv' => absurd hv' (by omega)⟩
  | succ n ih =>
    obtain ⟨found, heq, hfound⟩ := h.findRoute self vector
      ((h.coreLocal routing.coreId i).mpr ⟨routing, hi, rfl⟩)
    rw [allocLoop, heq]
    cases found with
    | none =>
      -- the vector is free
      right
      have hfree : ∀ x ∈ (shape i).toList, (s.routes.item x).vector ≠ vector := by
        intro x hx hv
        exact absurd ((hfound x).mpr ⟨hx, hv⟩) (by simp)
      obtain ⟨s', shape', hins, hsteps, hvector, htree⟩ := h.insertRoute hi hroute hcore
        (Finset.mem_Ico.mpr ⟨hbase, by omega⟩) hfree
      exact ⟨s', shape', hins, hsteps, by omega, htree⟩
    | some y =>
      obtain ⟨hy, hvy⟩ := (hfound y).mp rfl
      rcases ih (Nat.le_succ_of_le hbase) (by omega) with ⟨hrest, htaken⟩ | hrest
      · refine .inl ⟨hrest, fun v hv hlt => ?_⟩
        rcases Nat.eq_or_lt_of_le hv with rfl | hv
        · exact ⟨y, hy, hvy⟩
        · exact htaken v hv hlt
      · exact .inr hrest

/-- **`AddRoute`** routes the route, or fails because all vectors of the core are taken. -/
lemma Trees.addRoute (hroute : ¬ InTree shape route)
    (hi : s.coreLocal (if core = noCoreAffinity arch then self else core) = some i) :
    ∃ ok s' shape', s.addRoute arch self (some route) core = some (ok, s') ∧
      Steps arch s s' shape' route ∧
      (ok = false → shape' = shape ∧ ∀ v ∈ Finset.Ico (intVectorAllocBase arch)
        (intVectorAllocLimit arch), ∃ x ∈ (shape i).toList, (s.routes.item x).vector = v) ∧
      (ok = true → ∀ x, InTree shape' x ↔ x = route ∨ InTree shape x) := by
  obtain ⟨target, htarget⟩ : ∃ target, target = if core = noCoreAffinity arch then self else core :=
    ⟨_, rfl⟩
  rw [← htarget] at hi
  obtain ⟨s₁, hs₁⟩ : ∃ s₁, s₁ = s.setRoute route target (noVector arch) := ⟨_, rfl⟩
  have hsteps : Steps arch s s₁ shape route := hs₁ ▸ h.steps_setRoute hroute _ _
  have hitem : (s₁.routes.item route).core = target ∧
      (s₁.routes.item route).vector = noVector arch := by
    rw [hs₁]
    simp [InterruptRouter.setRoute]
  have hi₁ : s₁.coreLocal target = some i := (congrFun hsteps.coreLocal target).trans hi
  obtain ⟨routing, hrouting, hid⟩ := (hsteps.trees.coreLocal target i).mp hi₁
  have hle : intVectorAllocBase arch ≤ intVectorAllocLimit arch := by cases arch <;> decide
  have hadd : s.addRoute arch self (some route) core =
      (s₁.allocLoop arch self i routing.coreId route
        (intVectorAllocLimit arch - intVectorAllocBase arch) (intVectorAllocBase arch)).map
          fun s => (decide ((s.routes.item route).vector ≠ noVector arch), s) := by
    rw [addRoute.eq_def]
    dsimp only
    rw [← htarget, ← hs₁, hsteps.trees.getRouting, hi₁]
    dsimp only
    rw [hrouting]
    rfl
  rcases hsteps.trees.allocLoop self hrouting hroute (hitem.1.trans hid.symm)
    (intVectorAllocLimit arch - intVectorAllocBase arch) le_rfl (by omega) with
    ⟨heq, htaken⟩ | ⟨s', shape', heq, hsteps', hvector, htree⟩
  · refine ⟨false, s₁, shape, ?_, hsteps, fun _ => ⟨rfl, fun v hv => ?_⟩, by simp⟩
    · rw [hadd, heq, Option.map_some, hitem.2]
      simp
    · obtain ⟨hv, hlt⟩ := Finset.mem_Ico.mp hv
      obtain ⟨x, hx, hxv⟩ := htaken v hv hlt
      refine ⟨x, hx, ?_⟩
      rwa [← hsteps.item x fun heq => hroute ⟨i, heq ▸ hx⟩]
  · refine ⟨true, s', shape', ?_, hsteps.trans hsteps', by simp, fun _ => htree⟩
    have hne : (s'.routes.item route).vector ≠ noVector arch := by
      have := allocLimit_le_noVector arch
      omega
    rw [hadd, heq, Option.map_some, decide_eq_true hne]

/-- **`RemoveRoute`** takes a route that is in a tree out of it. -/
lemma Trees.removeRoute (self : ℕ) (hroute : InTree shape route) :
    ∃ s' shape', s.removeRoute arch self (some route) = some (true, s') ∧
      Steps arch s s' shape' route ∧ ∀ x, InTree shape' x ↔ x ≠ route ∧ InTree shape x := by
  obtain ⟨i, hroute⟩ := hroute
  obtain ⟨t, sh, heq, htrees, hmem, ht⟩ := h.remove hroute
  have htree : ∀ x, InTree (update shape i sh) x ↔ x ≠ route ∧ InTree shape x := by
    intro x
    rw [inTree_update, hmem, inTree_iff i, and_or_left]
    refine or_congr_right (iff_and_self.mpr ?_)
    rintro ⟨j, hji, hx⟩ rfl
    exact h.disjoint j i hji x hx hroute
  have hsteps : Steps arch s (s.setTree i t) (update shape i sh) route :=
    ⟨htrees, rfl, fun x _ => congrFun ht x⟩
  have hout : ¬ InTree (update shape i sh) route := fun hin => ((htree route).mp hin).1 rfl
  refine ⟨_, _, ?_, hsteps.trans (htrees.steps_setRoute hout (noCoreAffinity arch) (noVector arch)),
    htree⟩
  rw [removeRoute.eq_def]
  dsimp only
  rw [h.getRouting, h.core i route hroute]
  dsimp only
  rw [heq]
  rfl

/-- **`ClaimRoute`** routes the route, or leaves the trees as they were. -/
lemma Trees.claimRoute {gsi : ℕ} {pin : ℕ → ℕ → ℕ → Bool}
    (hroute : ¬ InTree shape route)
    (hi : s.coreLocal (if core = noCoreAffinity arch then self else core) = some i) :
    ∃ ok s' shape', s.claimRoute arch self route core gsi pin = some (ok, s') ∧
      Steps arch s s' shape' route ∧ (ok = false → ∀ x, InTree shape' x ↔ InTree shape x) ∧
      (ok = true → ∀ x, InTree shape' x ↔ x = route ∨ InTree shape x) := by
  obtain ⟨ok, s₁, shape₁, hadd, hsteps, hfail, hok⟩ := h.addRoute hroute hi
  rw [InterruptRouter.claimRoute, hadd, Option.bind_some]
  cases ok with
  | false =>
    refine ⟨false, s₁, shape₁, rfl, hsteps, fun _ x => ?_, by simp⟩
    rw [(hfail rfl).1]
  | true =>
    cases hpin : pin (s₁.routes.item route).core (s₁.routes.item route).vector gsi with
    | true =>
      refine ⟨true, s₁, shape₁, ?_, hsteps, by simp, hok⟩
      simp
    | false =>
      -- the route is taken out again
      obtain ⟨s₂, shape₂, hremove, hsteps₂, htree⟩ :=
        hsteps.trees.removeRoute self ((hok rfl route).mpr (.inl rfl))
      refine ⟨false, s₂, shape₂, ?_, hsteps.trans hsteps₂, fun _ x => ?_, by simp⟩
      · simp [hremove]
      · rw [htree, hok rfl]
        exact ⟨fun hx => hx.2.resolve_left hx.1, fun hx => ⟨fun heq => hroute (heq ▸ hx), .inr hx⟩⟩

end

end InterruptRouter

/-! ### Whole runs -/

namespace RouterState

open InterruptRouter

variable {P : Type} [DecidableEq P] {arch : Arch} {s s' : RouterState P}

/-- The routes in the trees are those that the callers know to be routed. -/
structure Inv (arch : Arch) (s : RouterState P) (shape : ℕ → Shape P) : Prop where
  trees : Trees arch s.router shape
  routed : ∀ x, x ∈ s.routed ↔ InTree shape x
  nodup : s.routed.Nodup

/-- The route is routed to the vector of the core. -/
def Holds (s : RouterState P) (core vector : ℕ) (route : P) : Prop :=
  route ∈ s.routed ∧ (s.router.routes.item route).core = core ∧
    (s.router.routes.item route).vector = vector

/-- The routes are the same, and so is what is found for each vector. -/
structure Unchanged (arch : Arch) (s : RouterState P) (router : InterruptRouter P) : Prop where
  item : ∀ r ∈ s.routed, router.routes.item r = s.router.routes.item r
  findRoute : ∀ self core vector,
    router.findRoute arch self core vector = s.router.findRoute arch self core vector

/-- **What holds between the calls**, and what the next call can do. -/
structure Correct (arch : Arch) (s : RouterState P) : Prop where
  ran : ∀ r ∈ s.routed, s.Ran (s.router.routes.item r).core
  range : ∀ core vector r, s.Holds core vector r →
    intVectorAllocBase arch ≤ vector ∧ vector < intVectorAllocLimit arch
  distinct : ∀ core vector r r', s.Holds core vector r → s.Holds core vector r' → r = r'
  dispatch : ∀ self, s.Ran self → ∀ vector answer, ∃ d,
    s.router.dispatch arch self vector answer = some d ∧
      ∀ r, d.route = some r ↔ s.Holds self vector r
  add : ∀ self route core, s.MayAdd arch self route core → ∃ ok router,
    s.router.addRoute arch self (some route) core = some (ok, router) ∧
      (ok = false → s.Unchanged arch router ∧
        ∀ vector, intVectorAllocBase arch ≤ vector → vector < intVectorAllocLimit arch →
          ∃ r, s.Holds (if core = noCoreAffinity arch then self else core) vector r)
  claim : ∀ self route core gsi pin, s.MayAdd arch self route core → ∃ ok router,
    s.router.claimRoute arch self route core gsi pin = some (ok, router) ∧
      (ok = false → s.Unchanged arch router)

variable {shape : ℕ → Shape P} {self core : ℕ} {route : P} {router : InterruptRouter P}
  {shape' : ℕ → Shape P}

lemma inv_init (item : P → InterruptRoute) : Inv arch (init item) fun _ => .nil :=
  ⟨trees_init item, by simp [init, InTree], nodup_nil⟩

section

variable (h : Inv arch s shape)

include h

lemma Inv.holds_iff {vector i : ℕ} (hi : s.router.coreLocal core = some i) :
    s.Holds core vector route ↔
      route ∈ (shape i).toList ∧ (s.router.routes.item route).vector = vector := by
  rw [Holds, h.routed, h.trees.mem_iff, ← and_assoc]
  refine and_congr_left fun _ => and_congr_right fun _ => ⟨fun hcore => by rw [hcore, hi], ?_⟩
  intro hcore
  -- two cores do not share a routing
  obtain ⟨routing, hrouting, hid⟩ := (h.trees.coreLocal core i).mp hi
  obtain ⟨routing', hrouting', hid'⟩ := (h.trees.coreLocal _ i).mp hcore
  rw [hrouting] at hrouting'
  rw [← hid', ← hid, Option.some.inj hrouting']

/-- The core that a route is added to has a routing, and the route is in no tree. -/
lemma Inv.mayAdd (hmay : s.MayAdd arch self route core) :
    (∃ i, s.router.coreLocal (if core = noCoreAffinity arch then self else core) = some i) ∧
      ¬ InTree shape route := by
  obtain ⟨hself, hcore, hroute⟩ := hmay
  refine ⟨?_, fun hin => hroute ((h.routed route).mpr hin)⟩
  split_ifs with haffinity
  · exact Option.isSome_iff_exists.mp hself
  · exact Option.isSome_iff_exists.mp (hcore.resolve_left haffinity)

/-- A call that did not route its route. -/
lemma Inv.unchanged (hroute : route ∉ s.routed) (hsteps : Steps arch s.router router shape' route)
    (htree : ∀ x, InTree shape' x ↔ InTree shape x) : s.Unchanged arch router := by
  have hitem : ∀ x, InTree shape x → router.routes.item x = s.router.routes.item x :=
    fun x hx => hsteps.item x fun heq => hroute ((h.routed route).mpr (heq ▸ hx))
  refine ⟨fun x hx => hitem x ((h.routed x).mp hx), fun self core vector => ?_⟩
  exact h.trees.findRoute_congr hsteps.trees hsteps.coreLocal htree hitem

lemma Inv.correct : Correct arch s where
  ran := by
    intro r hr
    obtain ⟨i, hi⟩ := (h.routed r).mp hr
    exact Option.isSome_iff_exists.mpr ⟨i, h.trees.core i r hi⟩
  range := by
    rintro core vector r ⟨hr, -, rfl⟩
    obtain ⟨i, hi⟩ := (h.routed r).mp hr
    exact Finset.mem_Ico.mp (h.trees.range i r hi)
  distinct := by
    rintro core vector r r' hr hr'
    obtain ⟨i, hi⟩ := (h.routed r).mp hr.1
    have hcore := h.trees.core i r hi
    rw [hr.2.1] at hcore
    rw [h.holds_iff hcore] at hr hr'
    exact h.trees.distinct i r hr.1 r' hr'.1 (hr.2.trans hr'.2.symm)
  dispatch := by
    intro self hself vector answer
    obtain ⟨i, hi⟩ := Option.isSome_iff_exists.mp hself
    obtain ⟨found, heq, hfound⟩ := h.trees.findRoute self vector hi
    rw [dispatch, h.trees.getRouting, hi]
    rw [heq]
    refine ⟨_, rfl, fun r => ?_⟩
    rw [h.holds_iff hi, ← hfound]
    cases found <;> rfl
  add := by
    intro self route core hmay
    obtain ⟨⟨i, hi⟩, hroute⟩ := h.mayAdd hmay
    obtain ⟨ok, router, shape', heq, hsteps, hfail, -⟩ := h.trees.addRoute hroute hi
    refine ⟨ok, router, heq, fun hok => ?_⟩
    obtain ⟨rfl, htaken⟩ := hfail hok
    refine ⟨h.unchanged hmay.2.2 hsteps fun x => Iff.rfl, fun vector hbase hlimit => ?_⟩
    obtain ⟨x, hx, hv⟩ := htaken vector (Finset.mem_Ico.mpr ⟨hbase, hlimit⟩)
    exact ⟨x, (h.holds_iff hi).mpr ⟨hx, hv⟩⟩
  claim := by
    intro self route core gsi pin hmay
    obtain ⟨⟨i, hi⟩, hroute⟩ := h.mayAdd hmay
    obtain ⟨ok, router, shape', heq, hsteps, hfail, -⟩ := h.trees.claimRoute hroute hi
    exact ⟨ok, router, heq, fun hok => h.unchanged hmay.2.2 hsteps (hfail hok)⟩

/-- The result of a call that adds a route. -/
lemma Inv.added {ok : Bool} (hroute : route ∉ s.routed)
    (htrees : Trees arch router shape') (hfail : ok = false → ∀ x, InTree shape' x ↔ InTree shape x)
    (hok : ok = true → ∀ x, InTree shape' x ↔ x = route ∨ InTree shape x) :
    Inv arch (s.added route (ok, router)) shape' := by
  refine ⟨htrees, fun x => ?_, ?_⟩
  · cases ok with
    | false => exact (h.routed x).trans (hfail rfl x).symm
    | true =>
      show x ∈ route :: s.routed ↔ _
      rw [mem_cons, h.routed, hok rfl]
  · cases ok with
    | false => exact h.nodup
    | true => exact nodup_cons.mpr ⟨hroute, h.nodup⟩

lemma Inv.step {op : RouterOp P} (hop : s.Valid arch op) :
    ∃ s' shape', s.step arch op = some s' ∧ Inv arch s' shape' := by
  cases op with
  | initCore self =>
    have hnone : s.router.coreLocal self = none := by simpa [Valid, Ran] using hop
    exact ⟨_, shape, rfl, h.trees.initCore hnone, h.routed, h.nodup⟩
  | addRoute self route core =>
    obtain ⟨⟨i, hi⟩, hroute⟩ := h.mayAdd hop
    obtain ⟨ok, router, shape', heq, hsteps, hfail, hok⟩ := h.trees.addRoute hroute hi
    refine ⟨_, shape', by rw [RouterState.step, heq]; rfl,
      h.added hop.2.2 hsteps.trees (fun hfalse x => ?_) hok⟩
    rw [(hfail hfalse).1]
  | claimRoute self route core gsi pin =>
    obtain ⟨⟨i, hi⟩, hroute⟩ := h.mayAdd hop
    obtain ⟨ok, router, shape', heq, hsteps, hfail, hok⟩ := h.trees.claimRoute hroute hi
    exact ⟨_, shape', by rw [RouterState.step, heq]; rfl, h.added hop.2.2 hsteps.trees hfail hok⟩
  | removeRoute self route =>
    obtain ⟨router, shape', heq, hsteps, htree⟩ :=
      h.trees.removeRoute self ((h.routed route).mp hop.2)
    refine ⟨_, shape', by rw [RouterState.step, heq]; rfl, hsteps.trees, fun x => ?_,
      h.nodup.erase route⟩
    show x ∈ s.routed.erase route ↔ _
    rw [h.nodup.mem_erase_iff, h.routed, htree]

end

/-- **The routes of a run**: every call returns, and after each of them every vector leads to the
one route that holds it. -/
theorem routes_correct (arch : Arch) (item : P → InterruptRoute) (ops : List (RouterOp P))
    (hops : Allowed (step arch) (Valid arch) (init item) ops) :
    ∃ s, run (step arch) (init item) ops = some s ∧ Correct arch s := by
  obtain ⟨s, hrun, shape, hinv⟩ := run_invariant (fun s => ∃ shape, Inv arch s shape)
    (fun s op ⟨shape, h⟩ hop => by
      obtain ⟨s', shape', hstep, h'⟩ := h.step hop
      exact ⟨s', hstep, shape', h'⟩) ⟨_, inv_init item⟩ hops
  exact ⟨s, hrun, hinv.correct⟩

/-- A route is claimed without success and then added to another core, removed and added again. -/
theorem routes_correct_moved : ∃ s, run (step .x86_64)
    (init fun _ : ℕ => ⟨0, 0, 0, none, none⟩) [.initCore 0, .initCore 1,
      .claimRoute 0 7 1 3 fun _ _ _ => false, .addRoute 1 7 (noCoreAffinity .x86_64),
      .removeRoute 0 7, .addRoute 1 7 0] = some s ∧ Correct .x86_64 s :=
  routes_correct .x86_64 _ _ (by decide)

end RouterState

end Northport.Io
