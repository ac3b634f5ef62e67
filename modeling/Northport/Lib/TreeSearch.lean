/-
# Searching a binary tree

The search goes down from the root: at each node a comparison says that this is the node
that is wanted, or on which side of it to go on.  When the comparison is with the keys of
the nodes, the search finds all nodes exactly if the keys increase strictly along the
symmetric order (`search_iff`, `sorted_of_search`).  Any comparison will do that points from
every other node to the one that is wanted (`search_iff_of_pairwise`).
-/
import Northport.Lib.LinkedTree

namespace Northport.Lib

open List

namespace Shape

variable {α K : Type*} {cmp : α → Ordering} {s : Shape α} {x : α}

/-- The node that a descent from the root ends at; `cmp` directs it. -/
def search (cmp : α → Ordering) : Shape α → Option α
  | nil => none
  | node l x r =>
      match cmp x with
      | .eq => some x
      | .lt => l.search cmp
      | .gt => r.search cmp

lemma search_mem (h : s.search cmp = some x) : x ∈ s.toList ∧ cmp x = .eq := by
  induction s with
  | nil => exact absurd h (by simp [search])
  | node l y r ihl ihr =>
    rw [search] at h
    rw [toList_node, mem_append, mem_cons]
    cases hy : cmp y with
    | eq =>
      rw [hy] at h
      cases h
      exact ⟨.inr (.inl rfl), hy⟩
    | lt =>
      rw [hy] at h
      exact ⟨.inl (ihl h).1, (ihl h).2⟩
    | gt =>
      rw [hy] at h
      exact ⟨.inr (.inr (ihr h).1), (ihr h).2⟩

lemma search_congr {cmp' : α → Ordering} (h : ∀ x ∈ s.toList, cmp' x = cmp x) :
    s.search cmp' = s.search cmp := by
  induction s with
  | nil => rfl
  | node l y r ihl ihr =>
    rw [search, search, h y (by simp), ihl fun x hx => h x (by simp [hx]),
      ihr fun x hx => h x (by simp [hx])]

/-- The search finds the node that is wanted if the comparison points to it from both sides. -/
lemma search_iff_of_pairwise (h : s.toList.Pairwise fun x y =>
      (cmp x = .eq → cmp y = .lt) ∧ (cmp y = .eq → cmp x = .gt)) :
    s.search cmp = some x ↔ x ∈ s.toList ∧ cmp x = .eq := by
  refine ⟨search_mem, ?_⟩
  rintro ⟨hmem, hx⟩
  induction s with
  | nil => cases hmem
  | node l y r ihl ihr =>
    obtain ⟨hl, hyr, hlr⟩ := pairwise_append.mp h
    obtain ⟨hr, hr'⟩ := pairwise_cons.mp hyr
    rw [search]
    rcases mem_append.mp hmem with hmem | hmem
    · rw [(hlr x hmem y mem_cons_self).1 hx]
      exact ihl hl hmem
    · rcases mem_cons.mp hmem with rfl | hmem
      · rw [hx]
      · rw [(hr x hmem).2 hx]
        exact ihr hr' hmem

variable [LinearOrder K] {f : α → K}

/-- In a sorted tree the search finds the node with the key, if there is one. -/
lemma search_iff (h : s.toList.Pairwise fun x y => f x < f y) {k : K} :
    s.search (fun y => compare k (f y)) = some x ↔ x ∈ s.toList ∧ f x = k := by
  rw [search_iff_of_pairwise, compare_eq_iff_eq, eq_comm (a := k)]
  refine h.imp fun hlt => ⟨fun hx => ?_, fun hy => ?_⟩
  · rw [compare_eq_iff_eq.mp hx]
    exact compare_lt_iff_lt.mpr hlt
  · rw [compare_eq_iff_eq.mp hy]
    exact compare_gt_iff_gt.mpr hlt

/-- A tree in which the search finds every node is sorted. -/
lemma sorted_of_search (hnd : s.toList.Nodup)
    (h : ∀ x ∈ s.toList, s.search (fun y => compare (f x) (f y)) = some x) :
    s.toList.Pairwise fun x y => f x < f y := by
  induction s with
  | nil => exact Pairwise.nil
  | node l y r ihl ihr =>
    obtain ⟨hndl, hndr, hyl, hyr, hlr⟩ := (nodup_join (d := .left)).mp hnd
    -- the search for a node of a subtree takes the way to this subtree
    have hleft : ∀ x ∈ l.toList, f x < f y ∧ l.search (fun z => compare (f x) (f z)) = some x := by
      intro x hx
      have hsearch := h x (by simp [hx])
      rw [search] at hsearch
      cases hcmp : compare (f x) (f y) with
      | lt =>
        rw [hcmp] at hsearch
        exact ⟨compare_lt_iff_lt.mp hcmp, hsearch⟩
      | eq =>
        rw [hcmp] at hsearch
        exact absurd hx (Option.some.inj hsearch ▸ hyl)
      | gt =>
        rw [hcmp] at hsearch
        exact absurd (search_mem hsearch).1 (hlr x hx)
    have hright : ∀ x ∈ r.toList, f y < f x ∧ r.search (fun z => compare (f x) (f z)) = some x := by
      intro x hx
      have hsearch := h x (by simp [hx])
      rw [search] at hsearch
      cases hcmp : compare (f x) (f y) with
      | lt =>
        rw [hcmp] at hsearch
        exact absurd hx (hlr x (search_mem hsearch).1)
      | eq =>
        rw [hcmp] at hsearch
        exact absurd hx (Option.some.inj hsearch ▸ hyr)
      | gt =>
        rw [hcmp] at hsearch
        exact ⟨compare_gt_iff_gt.mp hcmp, hsearch⟩
    refine pairwise_append.mpr ⟨ihl hndl fun x hx => (hleft x hx).2,
      pairwise_cons.mpr ⟨fun x hx => (hright x hx).1, ihr hndr fun x hx => (hright x hx).2⟩, ?_⟩
    intro x hx z hz
    rcases mem_cons.mp hz with rfl | hz
    · exact (hleft x hx).1
    · exact (hleft x hx).1.trans (hright z hz).1

end Shape

namespace Links

variable {P : Type*} {k : Links P} {par p : Option P} {s : Shape P}

/-- The search through the child pointers, with a bound on the number of its steps. -/
def search (k : Links P) (cmp : P → Ordering) : ℕ → Option P → Option (Option P)
  | _, none => some none
  | 0, some _ => none
  | fuel + 1, some x =>
      match cmp x with
      | .eq => some (some x)
      | .lt => k.search cmp fuel (k.child .left x)
      | .gt => k.search cmp fuel (k.child .right x)

lemma Rep.search (h : k.Rep par p s) (cmp : P → Ordering) {fuel : ℕ}
    (hfuel : s.toList.length ≤ fuel) : k.search cmp fuel p = some (s.search cmp) := by
  induction s generalizing par p fuel with
  | nil =>
    have hp : p = none := h
    rw [hp, search]
    rfl
  | node l x r ihl ihr =>
    obtain ⟨rfl, -, hl, hr⟩ := h
    rw [Shape.toList_node, length_append, length_cons] at hfuel
    obtain ⟨fuel, rfl⟩ : ∃ n, fuel = n + 1 := ⟨fuel - 1, by omega⟩
    rw [search, Shape.search]
    cases cmp x with
    | eq => rfl
    | lt => exact ihl hl (by omega)
    | gt => exact ihr hr (by omega)

end Links

end Northport.Lib
