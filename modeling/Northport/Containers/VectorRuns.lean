/-
# When the vector is a list

For each operation, from a vector that represents a list: it succeeds and represents the list of the
specification if the operation is safe, and it fails, or erases other elements, if it is not.
-/
import Northport.Containers.Vector

namespace Northport.Containers

open Lib List Option VectorSpec Slot Nat

namespace Vector

variable {T : Type} {sizeT : ℕ}

/-- **The vector represents the list**: the first `size` slots have its elements, the other ones of
the `capacity` slots have none. -/
structure Rep (sizeT : ℕ) (v : Vector T) (t : VectorSpec T) : Prop where
  elements : v.elements = t.list.map .live ++ replicate (t.capacity - t.list.length) .raw
  size : v.size = t.list.length
  capacity : v.capacity = t.capacity
  le : t.list.length ≤ t.capacity
  bytes : sizeT * t.capacity < wordSize

/-- The storage of a list, with `k` slots behind it that have no element. -/
def packed (l : List T) (k : ℕ) : Vector T :=
  ⟨l.map .live ++ replicate k .raw, l.length, l.length + k⟩

variable {v v' : Vector T} {l : List T} {k needed index count : ℕ} {t t' : VectorSpec T}
  {elements : List (Slot T)} {i : ℕ} {o : VectorOp T} {r : Option T} {w : Option (Vector T)}

lemma rep_packed {capacity : ℕ} (hcap : l.length + k = capacity)
    (hbytes : sizeT * capacity < wordSize) : Rep sizeT (packed l k) ⟨l, capacity⟩ := by
  subst hcap
  refine ⟨?_, rfl, rfl, le_add_right _ _, hbytes⟩
  rw [packed, Nat.add_sub_cancel_left]

/-- There is only one vector for a list and a capacity. -/
lemma Rep.eq_packed (h : Rep sizeT v t) :
    ∃ l k, sizeT * (l.length + k) < wordSize ∧ v = packed l k ∧ t = ⟨l, l.length + k⟩ := by
  obtain ⟨elements, size, _⟩ := v
  obtain ⟨l, capacity⟩ := t
  obtain ⟨k, rfl : capacity = l.length + k⟩ := Nat.exists_eq_add_of_le h.le
  obtain ⟨rfl, rfl, rfl, -, hbytes⟩ := h
  refine ⟨l, k, hbytes, ?_, rfl⟩
  rw [packed, Nat.add_sub_cancel_left]

lemma packed_length (l : List T) (k : ℕ) : (packed l k).elements.length = l.length + k := by
  rw [packed, length_append, length_map, length_replicate]

lemma packed_size (l : List T) (k : ℕ) : (packed l k).size = l.length := rfl

/-- The slots that an element is in. -/
lemma packed_live (hi : index < l.length) : (packed l k).elements[index]? = some (.live l[index]) := by
  rw [packed, getElem?_append_left (by rwa [length_map]), getElem?_map,
    getElem?_eq_getElem hi]
  rfl

/-- The slot behind the last element. -/
lemma packed_raw (l : List T) (k : ℕ) :
    (packed l k).elements[l.length]? = (replicate k .raw)[0]? := by
  rw [packed, getElem?_append_right (by rw [length_map]), length_map, Nat.sub_self]

/-- The storage of a vector is smaller than the address space. -/
structure Bounded (sizeT : ℕ) (l : List T) (k : ℕ) : Prop where
  pos : 0 < sizeT
  bytes : sizeT * (l.length + k) < wordSize

lemma Bounded.capacity_lt (hb : Bounded sizeT l k) : l.length + k < wordSize :=
  (Nat.le_mul_of_pos_left _ hb.pos).trans_lt hb.bytes

/-! ### `EnsureCapacity` -/

lemma le_newCapacity (capacity needed : ℕ) : needed ≤ newCapacity capacity needed := by
  rw [newCapacity]
  split_ifs with hle
  · exact hle
  · exact le_max_right _ _

lemma capacity_le_newCapacity (capacity needed : ℕ) : capacity ≤ newCapacity capacity needed := by
  rw [newCapacity]
  split_ifs with hle
  · exact le_rfl
  · exact (not_le.mp hle).le.trans (le_max_right _ _)

lemma ensureCapacity_of_le (h : needed ≤ v.capacity) : v.ensureCapacity sizeT needed = some v :=
  if_pos h

/-- Full storage is replaced by larger storage. -/
lemma ensureCapacity_packed (hsize : 0 < sizeT)
    (hfits : Fits sizeT ⟨l, l.length + k⟩ needed)
    (hfull : needed ≤ l.length + k ∨ l.length = l.length + k) :
    (packed l k).ensureCapacity sizeT needed =
      some (packed l (newCapacity (l.length + k) needed - l.length)) := by
  by_cases hle : needed ≤ l.length + k
  · rw [newCapacity, if_pos hle, Nat.add_sub_cancel_left]
    exact if_pos hle
  · obtain rfl : k = 0 := by omega
    obtain ⟨k', hk'⟩ := Nat.exists_eq_add_of_le (capacity_le_newCapacity l.length needed)
    have halloc : (allocate sizeT (mul64 sizeT (newCapacity l.length needed)) : List (Slot T)) =
        replicate (l.length + k') .raw := by
      rw [allocate, mul64, mod_eq_of_lt (show sizeT * newCapacity l.length needed < _ from hfits.2),
        Nat.mul_div_cancel_left _ hsize, hk']
    have hmoved := forUp_relocate [] l k'
    have hdestroyed := forUp_destroy (a := []) (i := 0)
      (replicate l.length (.moved : Slot T))
      (fun x hx => by simp [eq_of_mem_replicate hx]) rfl []
    simp only [length_nil, replicate_zero, nil_append, map_nil, zero_add,
      append_nil, length_replicate] at hmoved hdestroyed
    rw [ensureCapacity, if_neg (show ¬ needed ≤ (packed l 0).capacity from hle)]
    simp only [packed, halloc, add_zero, replicate_zero, append_nil, hmoved,
      bind_some, hdestroyed, map_some]
    rw [hk', Nat.add_sub_cancel_left]

/-- Storage that is not full, or that would be too large, is not replaced by storage for the
elements that are needed. -/
lemma ensureCapacity_fails (hb : Bounded sizeT l k) (hneeded : needed < wordSize)
    (hbad : ¬ (Fits sizeT ⟨l, l.length + k⟩ needed ∧
      (needed ≤ l.length + k ∨ l.length = l.length + k)))
    (hv' : (packed l k).ensureCapacity sizeT needed = some v') :
    v'.elements.length < needed ∧ v'.size = l.length := by
  obtain ⟨hsize, hbytes⟩ := hb
  by_cases hle : needed ≤ l.length + k
  · refine absurd ⟨⟨hneeded, ?_⟩, .inl hle⟩ hbad
    rw [newCapacity, if_pos hle]
    exact hbytes
  · rw [ensureCapacity, if_neg (show ¬ needed ≤ (packed l k).capacity from hle)] at hv'
    obtain ⟨⟨old, new⟩, hmoved, hv'⟩ := bind_eq_some_iff.mp hv'
    obtain ⟨-, -, rfl⟩ := map_eq_some_iff.mp hv'
    have hlength := forUp_relocate_length hmoved
    refine ⟨?_, rfl⟩
    cases k with
    | zero =>
      rw [add_zero] at hle hbytes
      -- the new block has as many bytes as are left when the product wraps around
      have hover : wordSize ≤ sizeT * newCapacity l.length needed := by
        by_contra hlt
        exact hbad ⟨⟨hneeded, not_le.mp hlt⟩, .inr rfl⟩
      simp only [allocate, length_replicate] at hlength
      rw [hlength]
      refine (div_lt_iff_lt_mul hsize).mpr ?_
      rw [mul_comm]
      show mul64 sizeT (newCapacity l.length needed) < sizeT * needed
      have hmod : mul64 sizeT (newCapacity l.length needed) < wordSize := mod_lt _ wordSize_pos
      rw [newCapacity, if_neg hle] at hover hmod ⊢
      rcases le_total (mul64 l.length 2) needed with hmax | hmax
      · rw [max_eq_right hmax] at hover hmod ⊢
        omega
      · -- the old capacity was doubled, and twice the old size wraps around
        rw [max_eq_left hmax] at hover hmod ⊢
        have hdouble : mul64 l.length 2 = l.length * 2 := by
          refine mod_eq_of_lt ?_
          by_contra hwrap
          have hmul : mul64 l.length 2 = l.length * 2 - wordSize := by
            rw [mul64, mod_eq_sub_mod (by omega), mod_eq_of_lt (by omega)]
          omega
        have hcomm : sizeT * (l.length * 2) = 2 * (sizeT * l.length) := by ring
        rw [hdouble, hcomm] at hover
        have hsub : mul64 sizeT (mul64 l.length 2) = 2 * (sizeT * l.length) - wordSize := by
          rw [hdouble, mul64, hcomm, mod_eq_sub_mod hover, mod_eq_of_lt (by omega)]
        have hle' : sizeT * l.length ≤ sizeT * needed := mul_le_mul_left _ (by omega)
        omega
    | succ k =>
      -- the first slot without an element is moved, too
      cases (forUp_relocate_raw (s := ((packed l (k + 1)).elements, _)) (packed_raw l (k + 1))
        (show l.length < l.length + (k + 1) by omega)).symm.trans hmoved

/-- **Storage for an element `n` slots behind the last one**, or too little of it. -/
lemma ensureCapacity_next (hb : Bounded sizeT l k) {n : ℕ}
    (hword : l.length + n < wordSize) :
    (FitsAt sizeT ⟨l, l.length + k⟩ (l.length + n) ∧
      ∃ k', l.length + (n + (k' + 1)) = newCapacity (l.length + k) (l.length + n + 1) ∧
        (packed l k).ensureCapacity sizeT (add64 (l.length + n) 1) =
          some (packed l (n + (k' + 1)))) ∨
    (¬ FitsAt sizeT ⟨l, l.length + k⟩ (l.length + n) ∧
      ∀ v', (packed l k).ensureCapacity sizeT (add64 (l.length + n) 1) = some v' →
        v'.elements.length ≤ l.length + n ∧ v'.size = l.length) := by
  by_cases hok : FitsAt sizeT ⟨l, l.length + k⟩ (l.length + n)
  · obtain ⟨k', hk'⟩ := Nat.exists_eq_add_of_le (le_newCapacity (l.length + k) (l.length + n + 1))
    refine .inl ⟨hok, k', by omega, ?_⟩
    rw [add64_eq hok.2.2.1, ensureCapacity_packed hb.pos hok.2.2 (hok.2.1.imp_left succ_le_of_lt),
      hk', show l.length + n + 1 + k' - l.length = n + (k' + 1) by omega]
  · refine .inr ⟨hok, fun v' hv' => ?_⟩
    by_cases hlast : l.length + n + 1 < wordSize
    · rw [add64_eq hlast] at hv'
      obtain ⟨hshort, hsz⟩ := ensureCapacity_fails hb hlast (fun hfits =>
        hok ⟨le_add_right _ _, hfits.2.imp_left lt_of_succ_le, hfits.1⟩) hv'
      exact ⟨le_of_lt_succ hshort, hsz⟩
    · -- the sum wraps around to 0
      have hcap := hb.capacity_lt
      rw [add64, show l.length + n + 1 = wordSize by omega, mod_self,
        ensureCapacity_of_le zero_le] at hv'
      cases hv'
      exact ⟨by rw [packed_length]; omega, rfl⟩

/-! ### New elements -/

/-- An element behind the last one. -/
lemma constructAt_packed (l : List T) (k : ℕ) (elem : T) :
    (packed l (k + 1)).constructAt l.length elem =
      some { packed (l ++ [elem]) k with size := l.length } := by
  rw [constructAt, packed, replicate_succ, construct_raw (length_map _)]
  simp [packed, add_assoc, add_comm 1]

lemma push_packed (hword : l.length + 1 < wordSize) (elem : T) :
    ({ packed (l ++ [elem]) k with size := add64 l.length 1 } : Vector T) = packed (l ++ [elem]) k := by
  rw [add64_eq hword, packed, length_append, length_singleton]

lemma constructAt_lt {elem : T} (h : v.constructAt index elem = some v') :
    index < v.elements.length := by
  by_contra hshort
  rw [constructAt, construct_short (not_lt.mp hshort)] at h
  cases h

lemma fitsAt_length : FitsAt sizeT ⟨l, l.length + k⟩ l.length ↔
    Fits sizeT ⟨l, l.length + k⟩ (l.length + 1) :=
  ⟨fun h => h.2.2, fun h => ⟨le_rfl, by simp only; omega, h⟩⟩

lemma answers_pushBack (hb : Bounded sizeT l k) (elem : T) :
    (∃ v', (packed l k).pushBack sizeT elem = some v' ∧
      Rep sizeT v' ⟨l ++ [elem], newCapacity (l.length + k) (l.length + 1)⟩) ↔
      Fits sizeT ⟨l, l.length + k⟩ (l.length + 1) := by
  have hcap := hb.capacity_lt
  rw [← fitsAt_length]
  rcases ensureCapacity_next hb (n := 0) (by omega) with
    ⟨hok, k', hk', hv⟩ | ⟨hbad, hshort⟩
  · refine iff_of_true ⟨packed (l ++ [elem]) k', ?_, rep_packed ?_ hok.2.2.2⟩ hok
    · rw [pushBack, show (packed l k).size = l.length + 0 from rfl, hv, bind_some, zero_add,
        packed_size, constructAt_packed, map_some, push_packed hok.2.2.1]
    · rw [length_append, length_singleton, ← hk']
      omega
  · refine iff_of_false (fun ⟨v', hv', _⟩ => ?_) hbad
    obtain ⟨v₁, hv₁, hv'⟩ := bind_eq_some_iff.mp hv'
    obtain ⟨v₂, hv₂, -⟩ := map_eq_some_iff.mp hv'
    obtain ⟨hlen, hsz⟩ := hshort v₁ hv₁
    have hlt := constructAt_lt hv₂
    omega

/-! ### Shifting elements -/

/-- A turn of the loop without a slot to move to. -/
lemma shiftUp_none (h : ∀ x e, move (i - 1) elements = some (x, e) → e[i]? ≠ some .raw) :
    shiftUp i elements = none := by
  rw [shiftUp]
  cases hmove : move (i - 1) elements with
  | none => rfl
  | some p => exact construct_none (h p.1 p.2 hmove)

lemma shiftUp_short (h : elements.length ≤ i) : shiftUp i elements = none := by
  refine shiftUp_none fun x e hmove => ?_
  obtain ⟨-, rfl⟩ := move_eq hmove
  rw [getElem?_eq_none (by rwa [length_set])]
  exact nofun

/-- The last element moves up. -/
lemma shiftUp_last (l : List T) (x : T) (k : ℕ) :
    shiftUp (l.length + 1) (packed (l ++ [x]) (k + 1)).elements =
      some (l.map .live ++ .moved :: .live x :: replicate k .raw) := by
  have helements : (packed (l ++ [x]) (k + 1)).elements = l.map .live ++ .live x :: .raw ::
      replicate k .raw := by
    simp [packed, replicate_succ]
  rw [shiftUp, helements, Nat.add_sub_cancel, move_live (length_map _)]
  simp only [bind_some]
  rw [append_cons, construct_raw (by simp), ← append_cons]

lemma insertIdx_concat (l : List T) (x elem : T) :
    (l ++ [x]).insertIdx l.length elem = l ++ [elem, x] := by
  induction l with
  | nil => rfl
  | cons y l ih => simpa using ih

/-- `Emplace` in front of an element works only in front of the last one: elsewhere, an element is
moved to a slot from which the next one was only moved away. -/
lemma answers_emplace_inside [Inhabited T] (hb : Bounded sizeT l k) (elem : T)
    (hindex : index < l.length) :
    (∃ v', (packed l k).emplace sizeT index elem = some v' ∧
      Rep sizeT v' ⟨l.insertIdx index elem, newCapacity (l.length + k) (l.length + 1)⟩) ↔
      index + 1 = l.length ∧ Fits sizeT ⟨l, l.length + k⟩ (l.length + 1) := by
  have hcap := hb.capacity_lt
  obtain ⟨l, x, rfl⟩ :=
    (eq_nil_or_concat' l).resolve_left (ne_nil_of_length_pos (by omega))
  have hlen : (l ++ [x]).length = l.length + 1 := by simp
  obtain ⟨n, hn⟩ : ∃ n, l.length + 1 - index = n + 1 := ⟨l.length - index, by omega⟩
  rw [emplace, if_neg (show ¬ index ≥ (packed (l ++ [x]) k).size from not_le.mpr hindex),
    ← fitsAt_length]
  rcases ensureCapacity_next hb (n := 0) (by omega) with
    ⟨hok, k', hk', hv⟩ | ⟨hbad, hshort⟩
  · have hshift := shiftUp_last l x k'
    have hsz : (packed (l ++ [x]) (k' + 1)).size = l.length + 1 := hlen
    rw [show (packed (l ++ [x]) k).size = (l ++ [x]).length + 0 from rfl, hv, zero_add]
    simp only [bind_some, hsz, hn]
    rw [forUp_succ (by exact hshift)]
    by_cases hlast : index = l.length
    · subst hlast
      obtain rfl : n = 0 := by omega
      refine iff_of_true ⟨packed (l ++ [elem, x]) k', ?_, ?_⟩ ⟨hlen.symm, hok⟩
      · simp only [forUp, bind_some]
        rw [destroy_object (length_map _) (show moved ≠ .raw by simp)]
        simp only [bind_some, constructAt]
        rw [construct_raw (length_map _)]
        simp only [map_some, ← hlen, add64_eq (show (l ++ [x]).length + 1 < _ from hok.2.2.1)]
        simp [packed, add_assoc, add_comm]
        omega
      · rw [insertIdx_concat]
        refine rep_packed (Eq.trans ?_ hk') hok.2.2.2
        simp only [length_append, length_cons, length_nil]
        omega
    · refine iff_of_false ?_ fun h => hlast (by omega)
      obtain ⟨n, rfl⟩ : ∃ n', n = n' + 1 := ⟨n - 1, by omega⟩
      rw [forUp, show l.length + 1 - (0 + 1) = l.length by omega, shiftUp_none]
      · rintro ⟨v', hv', -⟩
        cases hv'
      · intro y e hmove
        obtain ⟨-, rfl⟩ := move_eq hmove
        rw [getElem?_set_ne (by omega), getElem?_split _ _ _ (length_map _)]
        simp
  · refine iff_of_false ?_ fun h => hbad h.2
    rintro ⟨v', hv', -⟩
    obtain ⟨v₁, hv₁, hv'⟩ := bind_eq_some_iff.mp hv'
    obtain ⟨hlt, hsz⟩ := hshort v₁ hv₁
    rw [hsz, hlen, hn, forUp, shiftUp_short (by omega)] at hv'
    cases hv'

/-! ### Removing elements -/

/-- The two loops of `Erase` remove the elements that the code counts. -/
lemma erase_packed {a b c : List T} (hword : (a ++ (b ++ c)).length + k < wordSize) (hb : b ≠ [])
    (hcount : (if count > a.length then count - a.length else count) = b.length) :
    (packed (a ++ (b ++ c)) k).erase a.length count = some (packed (a ++ c) (b.length + k)) := by
  obtain ⟨n, hn⟩ : ∃ n, b.length = n + 1 :=
    exists_eq_add_one_of_ne_zero (length_eq_zero_iff.not.mpr hb)
  have hlen : (a ++ (b ++ c)).length = a.length + (n + 1) + c.length := by
    rw [length_append, length_append]
    omega
  have hat : ∀ j, j < (a ++ (b ++ c)).length → (packed (a ++ (b ++ c)) k).atIndex j = j := fun j hj =>
    if_neg (not_lt.mpr hj.le)
  have hdestroy := forUp_destroy (a := a.map .live) (i := a.length) (b.map .live)
    (fun x hx => by obtain ⟨y, -, rfl⟩ := mem_map.mp hx; exact nofun) (length_map _)
  have hshift := forUp_shiftDown (a := a.map .live) (j := a.length) c n (length_map _)
  have helements : (packed (a ++ (b ++ c)) k).elements =
      a.map .live ++ (b.map .live ++ (c.map .live ++ replicate k .raw)) := by
    simp [packed]
  have hturn : ∀ j, a.length + (n + 1) ≤ j → j < a.length + (n + 1) + c.length → ∀ s,
      (packed (a ++ (b ++ c)) k).eraseTurn (n + 1) j s = shiftDown (n + 1) j s := by
    intro j hj hj' s
    rw [eraseTurn, shiftDown, hat j (by omega), sub64_eq (by omega) (by omega)]
  rw [length_map, hn] at hdestroy
  rw [erase, packed_size, if_neg (by split_ifs at hcount <;> omega), hcount, hn]
  simp only [add64_eq (show a.length + (n + 1) < wordSize by omega), Nat.add_sub_cancel_left, hlen]
  rw [forUp_congr (fun j _ hj s => by rw [hat j (by omega)]), helements, hdestroy, bind_some,
    forUp_congr hturn, hshift, map_some, sub64_eq (by omega) (by omega)]
  simp [packed, replicate_add, add_assoc]
  omega

/-- `Erase` fails behind the end of the list. -/
lemma erase_fails (hcap : l.length + k < wordSize) (hcount : count < wordSize)
    (hindex : index < l.length) (hzero : count ≠ 0)
    (hle : l.length < index + if count > index then count - index else count) :
    (packed l k).erase index count = none := by
  obtain ⟨n, hn⟩ : ∃ n, n = if count > index then count - index else count := ⟨_, rfl⟩
  have hat : ∀ j ≤ l.length, (packed l k).atIndex j = j := fun j hj => if_neg (not_lt.mpr hj)
  rw [erase, packed_size, if_neg (by omega), ← hn]
  dsimp only
  by_cases hword : index + n < wordSize
  · -- the slot behind the last element is destroyed
    rw [add64_eq hword, forUp_none (j := l.length)
      (fun s => s[l.length]? = some .raw ∨ s[l.length]? = none), bind_none]
    · intro i s s' hs hdestroy
      obtain ⟨hne, hne', rfl⟩ := destroy_eq hdestroy
      have hi : (packed l k).atIndex i ≠ l.length := by
        intro heq
        rw [heq] at hne hne'
        exact hs.elim hne hne'
      rw [getElem?_set_ne hi]
      exact hs
    · intro s hs
      rw [hat _ le_rfl]
      exact destroy_none hs
    · rw [packed_raw]
      cases k with
      | zero => exact .inr rfl
      | succ k => exact .inl rfl
    · exact hindex.le
    · omega
  · -- the end wraps around, and an element is moved on top of the one at the index
    have hn : n ≤ index := by split_ifs at hn <;> omega
    have hstop : add64 index n = index + n - wordSize := by
      rw [add64, mod_eq_sub_mod (by omega), mod_eq_of_lt (by omega)]
    obtain ⟨m, hm⟩ : ∃ m, l.length - (index + n - wordSize) = m + 1 :=
      ⟨l.length - (index + n - wordSize) - 1, by omega⟩
    have hto : sub64 (index + n - wordSize) n = index := by
      rw [sub64_of_lt (by omega) (by omega)]
      omega
    have hturn : (packed l k).eraseTurn n (index + n - wordSize) (packed l k).elements = none := by
      rw [eraseTurn, hto, hat _ (by omega)]
      cases hmove : move (index + n - wordSize) (packed l k).elements with
      | none => rfl
      | some p =>
        obtain ⟨-, hp⟩ := move_eq hmove
        simp only [bind_some]
        rw [construct_none, bind_none]
        rw [hp, getElem?_set_ne (by omega), packed_live hindex]
        simp
    rw [hstop, Nat.sub_eq_zero_of_le (by omega), forUp, bind_some, hm, forUp, hturn]
    rfl

/-- `Erase` erases what it should exactly if the call is erasable. -/
lemma answers_erase (hl : Bounded sizeT l k)
    (hcount : count < wordSize) :
    (∃ v', (packed l k).erase index count = some v' ∧
      Rep sizeT v' (VectorSpec.erase ⟨l, l.length + k⟩ index count)) ↔
      VectorSpec.Erasable ⟨l, l.length + k⟩ index count := by
  have hcap := hl.capacity_lt
  by_cases hnone : count = 0 ∨ index ≥ l.length
  · -- nothing is erased
    have hmin : min count (l.length - index) = 0 := by omega
    refine iff_of_true ⟨packed l k, if_pos hnone, ?_⟩ (hnone.imp_right .inl)
    rw [VectorSpec.erase, hmin, add_zero, take_append_drop]
    exact rep_packed rfl hl.bytes
  rw [not_or, not_le] at hnone
  obtain ⟨hzero, hindex⟩ := hnone
  obtain ⟨n, hn⟩ : ∃ n, n = if count > index then count - index else count := ⟨_, rfl⟩
  by_cases hle : index + n ≤ l.length
  · have hmin : VectorSpec.Erasable ⟨l, l.length + k⟩ index count ↔
        n = min count (l.length - index) := by
      simp only [VectorSpec.Erasable]
      split_ifs at hn <;> omega
    rw [hmin]
    obtain ⟨a, b, e, rfl, rfl, rfl⟩ : ∃ a b e, l = a ++ (b ++ e) ∧ index = a.length ∧ n = b.length := by
      refine ⟨l.take index, (l.drop index).take n, l.drop (index + n), ?_, ?_, ?_⟩
      · rw [← drop_drop, take_append_drop, take_append_drop]
      · rw [length_take, min_eq_left hindex.le]
      · rw [length_take, length_drop]
        omega
    have hb : b ≠ [] := by
      rintro rfl
      rw [length_nil] at hn
      split_ifs at hn <;> omega
    rw [erase_packed hcap hb hn.symm]
    have hlen : (a ++ e).length + (b.length + k) = (a ++ (b ++ e)).length + k := by
      simp only [length_append]
      omega
    constructor
    · -- another number of elements leaves another size
      rintro ⟨v', hv', hrep⟩
      cases hv'
      have hlen := hrep.size
      simp only [VectorSpec.erase, packed, length_append, length_take, length_drop]
        at hlen hindex ⊢
      omega
    · intro hmin
      refine ⟨_, rfl, ?_⟩
      rw [VectorSpec.erase, ← hmin, take_left, ← drop_drop, drop_left, drop_left]
      exact rep_packed hlen hl.bytes
  · rw [erase_fails hcap hcount hindex hzero (hn ▸ not_le.mp hle)]
    refine iff_of_false (fun ⟨v', hv', _⟩ => absurd hv' nofun) ?_
    simp only [VectorSpec.Erasable]
    split_ifs at hn <;> omega

lemma eraseOne_packed (hb : Bounded sizeT l k) (index : ℕ) :
    ∃ v', (packed l k).eraseOne index = some v' ∧
      Rep sizeT v' (VectorSpec.erase ⟨l, l.length + k⟩ index 1) := by
  have hiff : _ ↔ VectorSpec.Erasable _ index 1 := answers_erase hb (by decide)
  obtain ⟨v', hv', hrep⟩ := hiff.mpr (by rw [VectorSpec.Erasable]; omega)
  refine ⟨v', ?_, hrep⟩
  rw [← hv', eraseOne]
  split_ifs with hindex
  · rw [erase, if_pos (.inr hindex)]
  · rfl

lemma popBack_packed (l : List T) (x : T) (hword : l.length + 1 < wordSize) :
    (packed (l ++ [x]) k).popBack = some (packed l (k + 1), some x) := by
  have hsz : sub64 (packed (l ++ [x]) k).size 1 = l.length := by
    rw [packed, length_append]
    exact (sub64_eq hword (Nat.le_add_left _ _)).trans (Nat.add_sub_cancel _ _)
  have helements : (packed (l ++ [x]) k).elements =
      l.map .live ++ .live x :: replicate k .raw := by
    simp [packed]
  simp only [popBack, hsz, helements]
  rw [move_live (length_map _)]
  simp only [bind_some]
  rw [destroy_object (length_map _) (show moved ≠ .raw by simp)]
  simp [packed, replicate_succ, add_assoc, add_comm 1]

lemma clear_packed (l : List T) (k : ℕ) : (packed l k).clear = some (packed [] (l.length + k)) := by
  have hloop := forUp_destroy (a := []) (i := 0) (l.map .live)
    (fun x hx => by obtain ⟨y, -, rfl⟩ := mem_map.mp hx; exact nofun) rfl
    (replicate k .raw)
  rw [nil_append, length_map, ← replicate_add] at hloop
  rw [clear, packed, hloop]
  simp [packed]

/-! ### Elements at an index -/

variable [Inhabited T]

/-- Default elements up to the index. -/
lemma pad_packed (l : List T) (n k : ℕ) :
    (packed l (n + k)).pad (l.length + n) = some (packed (l ++ replicate n default) k) := by
  have hloop := forUp_construct (a := l.map .live) (i := l.length) (.live (default : T)) n k
    (length_map _)
  rw [pad, packed_size, Nat.add_sub_cancel_left, packed, hloop]
  simp [packed, add_assoc]

lemma pad_length (hv' : v.pad index = some v') : v'.elements.length = v.elements.length := by
  obtain ⟨elements, hloop, rfl⟩ := map_eq_some_iff.mp hv'
  exact forUp_keeps (fun s => s.length = v.elements.length)
    (fun i s s' hs hs' => (construct_length hs').trans hs) rfl hloop

lemma answers_emplaceAt (hb : Bounded sizeT l k) (elem : T)
    (hindex : index < wordSize) :
    (∃ v', (packed l k).emplaceAt sizeT index elem = some v' ∧
      Rep sizeT v' (VectorSpec.emplaceAt ⟨l, l.length + k⟩ index elem)) ↔
      FitsAt sizeT ⟨l, l.length + k⟩ index := by
  have hcap := hb.capacity_lt
  by_cases hlen : index < l.length
  · -- there is an element already
    refine iff_of_false (fun ⟨v', hv', _⟩ => ?_) fun hok => absurd hlen (not_lt.mpr hok.1)
    have hroom : index + 1 ≤ (packed l k).capacity := show index + 1 ≤ l.length + k by omega
    have hpad : (packed l k).pad index = some (packed l k) := by
      rw [pad, packed_size, Nat.sub_eq_zero_of_le hlen.le, max_eq_left hlen.le]
      rfl
    rw [emplaceAt, add64_eq (by omega), ensureCapacity_of_le hroom, bind_some, hpad,
      bind_some, constructAt, construct_none] at hv'
    · cases hv'
    · rw [packed_live hlen]
      exact nofun
  · obtain ⟨n, rfl⟩ := Nat.exists_eq_add_of_le (not_lt.mp hlen)
    rcases ensureCapacity_next hb hindex with ⟨hok, k', hk', hv⟩ | ⟨hbad, hshort⟩
    · have hlen' : (l ++ replicate n (default : T)).length = l.length + n := by simp
      refine iff_of_true ⟨packed (l ++ replicate n default ++ [elem]) k', ?_, ?_⟩ hok
      · rw [emplaceAt, hv, bind_some, pad_packed, bind_some, ← hlen',
          constructAt_packed, map_some, if_pos le_rfl, push_packed (hlen' ▸ hok.2.2.1)]
      · simp only [VectorSpec.emplaceAt, hlen, if_false, Nat.add_sub_cancel_left]
        refine rep_packed ?_ hok.2.2.2
        rw [length_append, length_singleton, ← hk']
        omega
    · refine iff_of_false (fun ⟨v', hv', _⟩ => ?_) hbad
      obtain ⟨v₁, hv₁, hv'⟩ := bind_eq_some_iff.mp hv'
      obtain ⟨v₂, hv₂, hv'⟩ := bind_eq_some_iff.mp hv'
      obtain ⟨v₃, hv₃, -⟩ := map_eq_some_iff.mp hv'
      have hlt := constructAt_lt hv₃
      rw [pad_length hv₂] at hlt
      exact absurd hlt (not_lt.mpr (hshort v₁ hv₁).1)

lemma answers_emplace (hb : Bounded sizeT l k) (elem : T)
    (hindex : index < wordSize) :
    (∃ v', (packed l k).emplace sizeT index elem = some v' ∧
      Rep sizeT v' (VectorSpec.emplace ⟨l, l.length + k⟩ index elem)) ↔
      VectorSpec.FitsInside sizeT ⟨l, l.length + k⟩ index := by
  rw [VectorSpec.emplace, VectorSpec.FitsInside]
  by_cases hlt : index < l.length
  · rw [if_pos hlt, if_pos hlt]
    exact answers_emplace_inside hb elem hlt
  · rw [if_neg hlt, if_neg hlt, emplace,
      if_pos (show index ≥ (packed l k).size from not_lt.mp hlt)]
    exact answers_emplaceAt hb elem hindex

/-! ### Runs -/

/-- An operation that returns a vector, compared with the specification. -/
lemma answers_map (hstep : v.step sizeT o = w.map (·, r)) (hspec : t.step o = some (t', r)) :
    Answers (step sizeT) VectorSpec.step (Rep sizeT) v t o ↔ ∃ v', w = some v' ∧ Rep sizeT v' t' := by
  constructor
  · intro h
    obtain ⟨v', hv', hrep⟩ := h t' r hspec
    obtain ⟨v'', hw, heq⟩ := map_eq_some_iff.mp (hstep.symm.trans hv')
    obtain ⟨rfl, -⟩ := Prod.mk.inj heq
    exact ⟨v'', hw, hrep⟩
  · rintro ⟨v', rfl, hrep⟩ t'' r' hspec'
    cases hspec.symm.trans hspec'
    exact ⟨v', hstep, hrep⟩

/-- An operation that may be called under a condition only. -/
lemma answers_guarded {guard ok : Prop} [Decidable guard] (hstep : v.step sizeT o = w.map (·, r))
    (hspec : t.step o = if guard then some (t', r) else none)
    (hiff : guard → ((∃ v', w = some v' ∧ Rep sizeT v' t') ↔ ok)) :
    Answers (step sizeT) VectorSpec.step (Rep sizeT) v t o ↔ (guard → ok) := by
  by_cases hguard : guard
  · rw [answers_map hstep (hspec.trans (if_pos hguard)), hiff hguard, forall_prop_of_true hguard]
  · refine iff_of_true (fun t'' r' h => ?_) fun hg => absurd hg hguard
    rw [hspec, if_neg hguard] at h
    cases h

/-- **One operation** gives the vector of the specification exactly if it is safe. -/
lemma Rep.answers_iff (hsize : 0 < sizeT) (h : Rep sizeT v t) (o : VectorOp T) :
    Answers (step sizeT) VectorSpec.step (Rep sizeT) v t o ↔ t.Safe sizeT o := by
  obtain ⟨l, k, hbytes, rfl, rfl⟩ := h.eq_packed
  have hb : Bounded sizeT l k := ⟨hsize, hbytes⟩
  cases o with
  | pushBack elem => exact (answers_map rfl rfl).trans (answers_pushBack hb elem)
  | emplaceAt index elem =>
    exact answers_guarded rfl rfl fun hindex => answers_emplaceAt hb elem hindex
  | emplace index elem =>
    exact answers_guarded rfl rfl fun hindex => answers_emplace hb elem hindex
  | insert index elem =>
    exact answers_guarded rfl rfl fun hindex => answers_emplace hb elem hindex
  | eraseOne index =>
    exact iff_of_true ((answers_map rfl rfl).mpr (eraseOne_packed hb index)) trivial
  | erase index count => exact answers_guarded rfl rfl fun hcount => answers_erase hb hcount
  | popBack =>
    refine iff_of_true (fun t' r hspec => ?_) trivial
    obtain ⟨hne, hspec⟩ := ite_none_left_eq_some.mp hspec
    cases hspec
    obtain ⟨l, x, rfl⟩ := (eq_nil_or_concat' l).resolve_left hne
    have hlen : (l ++ [x]).length = l.length + 1 := by simp
    have hcap := hb.capacity_lt
    refine ⟨packed l (k + 1), ?_, ?_⟩
    · rw [getLast?_concat]
      exact popBack_packed l x (by omega)
    · simp only [dropLast_concat]
      exact rep_packed (by omega) hbytes
  | clear =>
    exact iff_of_true ((answers_map rfl rfl).mpr
      ⟨_, clear_packed l k, rep_packed (zero_add _) hbytes⟩) trivial

/-- **The vector follows the mathematical list exactly if every operation is safe.** -/
theorem follows_iff_safe (hsize : 0 < sizeT) {t : VectorSpec T} (h : Rep sizeT v t)
    (ops : List (VectorOp T)) :
    Follows (step sizeT) VectorSpec.step (Rep sizeT) v t ops ↔
      Allowed (specState VectorSpec.step) (VectorSpec.Safe sizeT) t ops :=
  follows_iff_allowed (fun _ _ o h => h.answers_iff hsize o) h ops

omit [Inhabited T] in
lemma rep_empty : Rep sizeT ({} : Vector T) ⟨[], 0⟩ :=
  ⟨rfl, rfl, rfl, le_rfl, by rw [mul_zero]; exact wordSize_pos⟩

/-- Words of 8 bytes: two are added and the first one is erased. -/
theorem follows_iff_safe_words :
    Follows (step 8) VectorSpec.step (Rep 8) ({} : Vector ℕ) ⟨[], 0⟩
      [.pushBack 1, .pushBack 2, .eraseOne 0, .popBack] :=
  (follows_iff_safe (by decide) rep_empty _).mpr (by decide +kernel)

/-- **Two elements in the middle of five**: the count is reduced by the index, and only one of them
is erased. -/
theorem erase_two_erases_one :
    ¬ Follows (step 8) VectorSpec.step (Rep 8) ({} : Vector ℕ) ⟨[], 0⟩
      [.pushBack 1, .pushBack 2, .pushBack 3, .pushBack 4, .pushBack 5, .erase 1 2] ∧
    (run (fun v o => (step 8 v o).map Prod.fst) ({} : Vector ℕ)
      [.pushBack 1, .pushBack 2, .pushBack 3, .pushBack 4, .pushBack 5, .erase 1 2]).map
        (fun v => (v.size, v.elements.take 4)) = some (4, [.live 1, .live 3, .live 4, .live 5]) := by
  rw [follows_iff_allowed (fun _ _ o h => Rep.answers_iff (by decide) h o) rep_empty]
  decide +kernel

end Vector

end Northport.Containers
