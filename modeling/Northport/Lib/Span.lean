/-
# Lists of address spans

A span is a half-open interval of addresses.  A list of spans tiles an interval when every
address of the interval is in exactly one span of the list, and no other address is in
any.  Empty spans may occur; they contain no address.
-/
import Mathlib.Data.List.Nodup
import Mathlib.Tactic

namespace Northport.Lib

open List

/-- The addresses from `base` on, `length` of them. -/
structure Span where
  base : ℕ
  length : ℕ
deriving DecidableEq, Repr

namespace Span

/-- The span contains the address. -/
def Contains (s : Span) (a : ℕ) : Prop := s.base ≤ a ∧ a < s.base + s.length

instance (s : Span) (a : ℕ) : Decidable (s.Contains a) := inferInstanceAs (Decidable (_ ∧ _))

/-- The spans have no common address. -/
def Disjoint (s t : Span) : Prop := ∀ a, s.Contains a → ¬ t.Contains a

/-- All addresses of the span lie between the bounds, which holds of its ends also when
it is empty. -/
def Inside (s : Span) (lo hi : ℕ) : Prop := lo ≤ s.base ∧ s.base + s.length ≤ hi

/-- One of the spans begins where the other one ends; empty spans touch nothing. -/
def Touches (s t : Span) : Prop :=
  0 < s.length ∧ 0 < t.length ∧ (s.base + s.length = t.base ∨ t.base + t.length = s.base)

lemma Touches.symm {s t : Span} (h : s.Touches t) : t.Touches s := ⟨h.2.1, h.1, h.2.2.symm⟩

lemma not_touches_self (s : Span) : ¬ s.Touches s := by
  rintro ⟨hs, -, h | h⟩ <;> omega

end Span

/-- How many spans of the list contain the address. -/
def cover (l : List Span) (a : ℕ) : ℕ := l.countP fun s => decide (s.Contains a)

/-- Every address between the bounds is in exactly one span, every other one in none. -/
def Tiles (lo hi : ℕ) (l : List Span) : Prop :=
  ∀ a, cover l a = if lo ≤ a ∧ a < hi then 1 else 0

/-- The spans tile the interval on top of the spans `extra`: an address between the bounds
is in one span more than of `extra`, every other one in as many. -/
def TilesOver (extra : List Span) (lo hi : ℕ) (l : List Span) : Prop :=
  ∀ a, cover l a = cover extra a + if lo ≤ a ∧ a < hi then 1 else 0

variable {l l' extra : List Span} {lo hi a : ℕ} {s : Span} {α : Type*}

@[simp] lemma cover_nil : cover [] a = 0 := rfl

lemma cover_cons (s : Span) (l : List Span) (a : ℕ) :
    cover (s :: l) a = cover l a + if s.Contains a then 1 else 0 := by
  simp [cover, countP_cons]

lemma cover_append (l l' : List Span) (a : ℕ) : cover (l ++ l') a = cover l a + cover l' a :=
  countP_append

lemma cover_perm (h : l.Perm l') (a : ℕ) : cover l a = cover l' a := h.countP_eq _

lemma cover_pos : 0 < cover l a ↔ ∃ s ∈ l, s.Contains a := by
  simp [cover, countP_pos_iff]

/-- An empty span covers nothing. -/
lemma cover_cons_empty (h : s.length = 0) : cover (s :: l) a = cover l a := by
  rw [cover_cons, if_neg]
  · simp
  · rintro ⟨h1, h2⟩
    omega

/-- A span is cut in two. -/
lemma cover_split (b x y : ℕ) (l : List Span) (a : ℕ) :
    cover (⟨b, x⟩ :: ⟨b + x, y⟩ :: l) a = cover (⟨b, x + y⟩ :: l) a := by
  rw [cover_cons, cover_cons, cover_cons]
  split_ifs with h1 h2 h3 h3 h2 h3 h3 <;> simp only [Span.Contains] at * <;> omega

lemma tilesOver_nil : TilesOver [] lo hi l ↔ Tiles lo hi l := by
  simp [TilesOver, Tiles, cover_nil, zero_add]

lemma TilesOver.congr (h : TilesOver extra lo hi l) (hl : ∀ a, cover l' a = cover l a) :
    TilesOver extra lo hi l' :=
  fun a => (hl a).trans (h a)

/-- More spans on both sides. -/
lemma TilesOver.append (h : TilesOver extra lo hi l) (l' : List Span) :
    TilesOver (l' ++ extra) lo hi (l' ++ l) := by
  intro a
  rw [cover_append, cover_append, h a]
  omega

lemma tiles_singleton (lo hi : ℕ) : Tiles lo hi [⟨lo, hi - lo⟩] := by
  intro a
  rw [cover_cons, cover_nil]
  split_ifs with h1 h2 h2 <;> simp only [Span.Contains] at h1 <;> omega

lemma cover_le_one (h : Tiles lo hi l) (a : ℕ) : cover l a ≤ 1 := by
  rw [h a]
  split_ifs <;> omega

/-- The addresses of the interval are those of the spans. -/
lemma Tiles.mem_iff (h : Tiles lo hi l) (a : ℕ) : (∃ s ∈ l, s.Contains a) ↔ lo ≤ a ∧ a < hi := by
  rw [← cover_pos, h a]
  split_ifs with hb <;> simp [hb]

/-- Spans that cover no address twice are disjoint. -/
lemma pairwise_disjoint_of_cover (h : ∀ a, cover l a ≤ 1) : l.Pairwise Span.Disjoint := by
  induction l with
  | nil => exact List.Pairwise.nil
  | cons s l ih =>
    refine pairwise_cons.mpr ⟨?_, ih fun a => ?_⟩
    · intro t ht a hs hta
      have hpos : 0 < cover l a := cover_pos.mpr ⟨t, ht, hta⟩
      have hle := h a
      rw [cover_cons, if_pos hs] at hle
      omega
    · have hle := h a
      rw [cover_cons] at hle
      omega

/-- Spans that do not overlap have no more addresses than the interval around them. -/
lemma sum_length_le (h : ∀ a, cover l a ≤ 1) (hin : ∀ s ∈ l, s.Inside lo hi) :
    (l.map Span.length).sum ≤ hi - lo := by
  have hsum : ∀ l : List Span, (∀ s ∈ l, s.Inside lo hi) →
      (l.map Span.length).sum = ∑ a ∈ Finset.Ico lo hi, cover l a := by
    intro l hin
    induction l with
    | nil => simp
    | cons s l ih =>
      have hs := hin s mem_cons_self
      have hfilter : (Finset.Ico lo hi).filter (fun a => s.Contains a) =
          Finset.Ico s.base (s.base + s.length) := by
        ext a
        rw [Finset.mem_filter, Finset.mem_Ico, Finset.mem_Ico, Span.Contains]
        have h1 := hs.1
        have h2 := hs.2
        omega
      simp only [map_cons, sum_cons, cover_cons, Finset.sum_add_distrib,
        ih fun t ht => hin t (mem_cons_of_mem _ ht)]
      rw [← Finset.sum_filter, hfilter]
      simp [add_comm]
  rw [hsum l hin]
  calc ∑ a ∈ Finset.Ico lo hi, cover l a ≤ ∑ a ∈ Finset.Ico lo hi, 1 :=
        Finset.sum_le_sum fun a _ => h a
    _ = hi - lo := by simp

/-- Disjoint spans cover no address twice. -/
lemma cover_le_one_of_pairwise (h : l.Pairwise Span.Disjoint) (a : ℕ) : cover l a ≤ 1 := by
  induction l with
  | nil => exact zero_le
  | cons s l ih =>
    rw [pairwise_cons] at h
    rw [cover_cons]
    split_ifs with hs
    · have hnone : ¬ 0 < cover l a := by
        rw [cover_pos]
        rintro ⟨t, ht, hta⟩
        exact h.1 t ht a hs hta
      omega
    · exact ih h.2

lemma cover_map_pos {f : α → Span} {l : List α} {x : α} (hx : x ∈ l) (hax : (f x).Contains a) :
    0 < cover (l.map f) a :=
  cover_pos.mpr ⟨f x, mem_map_of_mem hx, hax⟩

/-- A list that covers no address twice has one element for an address. -/
lemma eq_of_cover_map {f : α → Span} {l : List α} (h : cover (l.map f) a ≤ 1) {x y : α} (hx : x ∈ l)
    (hy : y ∈ l) (hax : (f x).Contains a) (hay : (f y).Contains a) : x = y := by
  induction l with
  | nil => cases hx
  | cons z l ih =>
    rw [map_cons, cover_cons] at h
    rcases mem_cons.mp hx with rfl | hxl <;> rcases mem_cons.mp hy with rfl | hyl
    · rfl
    · have := cover_map_pos hyl hay
      rw [if_pos hax] at h
      omega
    · have := cover_map_pos hxl hax
      rw [if_pos hay] at h
      omega
    · exact ih (by omega) hxl hyl

/-! ### Spans that do not touch -/

/-- No two spans of the list touch. -/
def Apart (l : List Span) : Prop := ∀ s ∈ l, ∀ t ∈ l, ¬ s.Touches t

lemma apart_cons (h : Apart l) (hs : ∀ t ∈ l, ¬ s.Touches t) : Apart (s :: l) := by
  intro x hx y hy
  rw [mem_cons] at hx hy
  rcases hx with rfl | hx <;> rcases hy with rfl | hy
  · exact Span.not_touches_self _
  · exact hs y hy
  · exact fun htouch => hs x hx htouch.symm
  · exact h x hx y hy

lemma Apart.perm (h : Apart l) (hl : l'.Perm l) : Apart l' :=
  fun s hs t ht => h s (hl.mem_iff.mp hs) t (hl.mem_iff.mp ht)

lemma eq_of_contains (h : ∀ a, cover l a ≤ 1) {t : Span} (hs : s ∈ l) (ht : t ∈ l)
    (hsa : s.Contains a) (hta : t.Contains a) : s = t :=
  eq_of_cover_map (f := id) (by simpa using h a) hs ht hsa hta

/-- **A run of covered addresses lies in one span**, when no two spans touch. -/
lemma Apart.exists_span (h : Apart l) (hone : ∀ a, cover l a ≤ 1) {b n : ℕ} (hn : 0 < n)
    (hrun : ∀ a, b ≤ a → a < b + n → ∃ s ∈ l, s.Contains a) :
    ∃ s ∈ l, s.base ≤ b ∧ b + n ≤ s.base + s.length := by
  obtain ⟨s, hs, hlo, hhi⟩ := hrun b le_rfl (by omega)
  refine ⟨s, hs, hlo, ?_⟩
  by_contra hlt
  -- the span `t` that contains the first address behind `s`
  obtain ⟨t, ht, htlo, hthi⟩ := hrun (s.base + s.length) (by omega) (by omega)
  by_cases htouch : s.base + s.length = t.base
  · exact h s hs t ht ⟨by omega, by omega, Or.inl htouch⟩
  · have heq : s = t := eq_of_contains hone hs ht (a := s.base + s.length - 1)
      ⟨by omega, by omega⟩ ⟨by omega, by omega⟩
    subst heq
    omega

end Northport.Lib
