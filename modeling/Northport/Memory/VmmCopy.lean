/-
# Copies between address spaces

`CopyIn` copies page by page: to the end of the first page, then whole pages.  What it has written is
what a loop over single bytes writes through the page tables, when the lookups of the pages only add
translations, as those do that page anonymous memory on demand.  `CopyOut` never counts what it has
copied.
-/
import Northport.Memory.AnonSpace

namespace Northport.Memory

open Lib Northport.RBTree PageMap List Option

namespace PageMap

/-- The bytes are written one after the other through the page tables, whatever these permit. -/
def copyMem (map : PageMap) (mem : ByteMem) (vaddr : ℕ) : List (BitVec 8) → ByteMem
  | [] => mem
  | byte :: bytes =>
    copyMem map (match map.hatGetMap vaddr with
      | some phys => Function.update mem phys byte
      | none => mem) (vaddr + 1) bytes

lemma copyMem_append (map : PageMap) (mem : ByteMem) (vaddr : ℕ) (bytes more : List (BitVec 8)) :
    map.copyMem mem vaddr (bytes ++ more) =
      map.copyMem (map.copyMem mem vaddr bytes) (vaddr + bytes.length) more := by
  induction bytes generalizing mem vaddr with
  | nil => rfl
  | cons byte bytes ih =>
    rw [cons_append, copyMem, copyMem, ih, length_cons, add_assoc, add_comm 1]

/-- Inside of a page the bytes are written to consecutive addresses. -/
lemma copyMem_page {map : PageMap} {page : ℕ} {pte : Pte} (hpte : map page = some pte)
    (mem : ByteMem) (off : ℕ) (bytes : List (BitVec 8)) (hle : off + bytes.length ≤ PageSize) :
    map.copyMem mem (page * PageSize + off) bytes = mem.writeList (pte.frame + off) bytes := by
  induction bytes generalizing mem off with
  | nil => rw [copyMem, ByteMem.writeList_nil]
  | cons byte bytes ih =>
    rw [length_cons] at hle
    have hdiv : (page * PageSize + off) / PageSize = page := by
      rw [PageSize] at *
      omega
    have hmod : (page * PageSize + off) % PageSize = off := by
      rw [PageSize] at *
      omega
    have hget : map.hatGetMap (page * PageSize + off) = some (pte.frame + off) := by
      rw [hatGetMap, hdiv, hpte, hmod]
      rfl
    rw [copyMem, hget, ByteMem.writeList_cons, add_assoc, ih _ _ (by omega), add_assoc]

variable {map : PageMap} {mem : ByteMem} {vaddr a : ℕ} {bytes : List (BitVec 8)}

lemma copyMem_of_ne (h : ∀ i < bytes.length, map.hatGetMap (vaddr + i) ≠ some a) :
    map.copyMem mem vaddr bytes a = mem a := by
  induction bytes generalizing mem vaddr with
  | nil => rfl
  | cons byte bytes ih =>
    have hrest : ∀ i < bytes.length, map.hatGetMap (vaddr + 1 + i) ≠ some a := fun i hi => by
      rw [add_right_comm]
      exact h (i + 1) (Nat.succ_lt_succ hi)
    rw [copyMem, ih hrest]
    cases hget : map.hatGetMap vaddr with
    | none => rfl
    | some phys =>
      have hne : a ≠ phys := fun heq => h 0 (Nat.succ_pos _) (heq ▸ hget)
      exact Function.update_of_ne hne _ _

/-- Every translation is kept. -/
def Extends (map map' : PageMap) : Prop := ∀ page pte, map page = some pte → map' page = some pte

/-- The byte is in a frame to which a page is mapped. -/
def Backs (map : PageMap) (a : ℕ) : Prop :=
  ∃ page pte, map page = some pte ∧ pte.frame ≤ a ∧ a < pte.frame + PageSize

/-- The pages of a window have page frames of their own. -/
structure OwnFrames (map : PageMap) (base n : ℕ) : Prop where
  aligned : ∀ i < n, ∀ pte, map ((base + i) / PageSize) = some pte → pte.frame % PageSize = 0
  inj : ∀ i < n, ∀ j < n, ∀ pte pte', map ((base + i) / PageSize) = some pte →
    map ((base + j) / PageSize) = some pte' → pte.frame = pte'.frame →
      (base + i) / PageSize = (base + j) / PageSize

lemma OwnFrames.eq_of_phys {n i j : ℕ} (h : OwnFrames map vaddr n) (hi : i < n) (hj : j < n)
    (hgi : map.hatGetMap (vaddr + i) = some a) (hgj : map.hatGetMap (vaddr + j) = some a) :
    i = j := by
  obtain ⟨pte, hpte, rfl⟩ := map_eq_some_iff.mp hgi
  obtain ⟨pte', hpte', heq⟩ := map_eq_some_iff.mp hgj
  have halign := h.aligned i hi pte hpte
  have halign' := h.aligned j hj pte' hpte'
  have hpage := h.inj i hi j hj pte pte' hpte hpte'
  rw [PageSize] at *
  omega

/-- Each byte is where its page is mapped. -/
lemma copyMem_at (h : OwnFrames map vaddr bytes.length) {i : ℕ} (hi : i < bytes.length)
    (hget : map.hatGetMap (vaddr + i) = some a) : map.copyMem mem vaddr bytes a = bytes[i] := by
  have hlen : (bytes.take i).length = i := length_take_of_le hi.le
  have hsplit : bytes = bytes.take i ++ bytes[i] :: bytes.drop (i + 1) := by
    rw [← drop_eq_getElem_cons hi, take_append_drop]
  conv_lhs => rw [hsplit]
  rw [copyMem_append, hlen, copyMem, hget, copyMem_of_ne]
  · exact Function.update_self _ _ _
  · -- a later byte is written elsewhere
    intro j hj hgj
    rw [length_drop] at hj
    rw [add_assoc, add_assoc] at hgj
    have heq := h.eq_of_phys hi (by omega) hget hgj
    omega

end PageMap

namespace Vmm

variable {P τ : Type} {handlers : FaultHandlers (AnonState τ)}
  {v v' : Vmm P (AnonState τ)}

/-! ### `CopyIn` -/

/-- Translations are only added, and only bytes of `S` are written, to which no page was mapped. -/
structure Adds (S : Set ℕ) (u v : Vmm P (AnonState τ)) : Prop where
  map : Extends u.env.map.map v.env.map.map
  mem : ∀ a, v.env.map.mem a ≠ u.env.map.mem a → a ∈ S ∧ ¬ u.env.map.map.Backs a

/-- What the lookups of foreign pages do to the states that are `Good` when the copy has come to an
address of the window: they only add translations. -/
structure Lookups (handlers : FaultHandlers (AnonState τ)) (window S : Set ℕ)
    (Good : ℕ → Vmm P (AnonState τ) → Prop) : Prop where
  next : ∀ {a b u} phys bytes, Good a u → (u.env.map.map (a / PageSize)).isSome → a ≤ b →
    Good b (u.writePhys phys bytes)
  lookup : ∀ {u v vaddr r}, vaddr ∈ window → Good vaddr u →
    u.foreignPhys handlers vaddr = some (v, r) → Good vaddr v ∧ u.Adds S v

/-- A lookup finds what is mapped, or there was a fault; one without a result was refused. -/
lemma foreignPhys_spec {vaddr : ℕ} {r : Option ℕ}
    (h : v.foreignPhys handlers vaddr = some (v', r)) :
    (v' = v ∧ r.isSome ∨ v.env.map.map.hatGetMap vaddr = none ∧
      v.handleFault handlers vaddr { write := true } = some (v', r.isSome)) ∧
    (r.isSome → v'.env.map.map.hatGetMap vaddr = r) := by
  rw [foreignPhys] at h
  cases hget : v.env.map.map.hatGetMap vaddr with
  | some phys =>
    rw [hget] at h
    cases h
    exact ⟨.inl ⟨rfl, rfl⟩, fun _ => hget⟩
  | none =>
    rw [hget] at h
    obtain ⟨⟨u, good⟩, hfault, h⟩ := bind_eq_some_iff.mp h
    cases good with
    | true =>
      obtain ⟨phys, hphys, h⟩ := map_eq_some_iff.mp h
      cases h
      exact ⟨.inr ⟨rfl, hfault⟩, fun _ => hphys⟩
    | false =>
      cases h
      exact ⟨.inr ⟨rfl, hfault⟩, nofun⟩

/-- How many bytes a turn copies: to the end of the page. -/
lemma copyLength_eq {base count n : ℕ} (h : count = 0 ∨ (base + count) % PageSize = 0) :
    (if count = 0 then min (min PageSize n) (PageSize - base % PageSize) else min PageSize n) =
      min n (PageSize - (base + count) % PageSize) := by
  split_ifs with h0
  · rw [h0, add_zero]
    omega
  · rw [h.resolve_left h0]
    omega

/-- What was written to a page, and what faults write elsewhere, can change places. -/
lemma Adds.writeList {S : Set ℕ} {u : Vmm P (AnonState τ)} (hadds : v.Adds S u) {page off : ℕ}
    {pte : Pte} {bytes : List (BitVec 8)} (hpte : u.env.map.map page = some pte)
    (hle : off + bytes.length ≤ PageSize) {mem : ByteMem}
    (hmem : ∀ a, mem a ≠ u.env.map.mem.writeList (pte.frame + off) bytes a →
      a ∈ S ∧ ¬ u.env.map.map.Backs a) :
    ∃ mem' : ByteMem, (∀ a, mem' a ≠ v.env.map.mem a → a ∈ S ∧ ¬ v.env.map.map.Backs a) ∧
      mem'.writeList (pte.frame + off) bytes = mem := by
  classical
  have hout : ∀ a, ¬ u.env.map.map.Backs a →
      ¬ (pte.frame + off ≤ a ∧ a < pte.frame + off + bytes.length) :=
    fun a ha hin => ha ⟨page, pte, hpte, by omega, by omega⟩
  refine ⟨fun a => if u.env.map.map.Backs a then u.env.map.mem a else mem a, fun a ha => ?_, ?_⟩
  · simp only at ha
    split_ifs at ha with hbacks
    · exact hadds.mem a ha
    · by_cases heq : mem a = u.env.map.mem a
      · exact hadds.mem a (heq ▸ ha)
      · refine ⟨(hmem a fun hw => heq (hw.trans (if_neg (hout a hbacks)))).1, ?_⟩
        rintro ⟨page', pte', hpte', hin⟩
        exact hbacks ⟨page', pte', hadds.map _ _ hpte', hin⟩
  · funext a
    by_cases hbacks : u.env.map.map.Backs a
    · have hkept : mem a = u.env.map.mem.writeList (pte.frame + off) bytes a := by
        by_contra hne
        exact (hmem a hne).2 hbacks
      rw [hkept]
      simp only [ByteMem.writeList, if_pos hbacks]
    · exact (if_neg (hout a hbacks)).trans (if_neg hbacks)

/-- **The loop** of `CopyIn`.  It is at the start of a page, except before its first turn. -/
lemma Lookups.copyLoop {window S : Set ℕ} {Good : ℕ → Vmm P (AnonState τ) → Prop}
    (hL : Lookups handlers window S Good) {base fuel count n : ℕ} {bytes : List (BitVec 8)}
    (h : Good (base + count) v) (hwindow : ∀ x < bytes.length, base + count + x ∈ window)
    (hbase : base + count < wordSize)
    (hend : base + count + bytes.length < wordSize ∨ ∀ a u, Good a u → ∀ page pte,
      u.env.map.map page = some pte → (page + 1) * PageSize < wordSize)
    (hcount : bytes ≠ [] → count = 0 ∨ (base + count) % PageSize = 0)
    (hrun : copyLoop handlers base fuel v count bytes = some (v', n)) :
    ∃ k ≤ bytes.length, n = count + k ∧ Good (base + n) v' ∧
      Extends v.env.map.map v'.env.map.map ∧
      (∃ mem, (∀ a, mem a ≠ v.env.map.mem a → a ∈ S ∧ ¬ v.env.map.map.Backs a) ∧
        v'.env.map.mem = v'.env.map.map.copyMem mem (base + count) (bytes.take k)) ∧
      (∀ x < k, (v'.env.map.map ((base + count + x) / PageSize)).isSome) ∧
      (k < bytes.length → (n = 0 ∨ (base + n) % PageSize = 0) ∧ ∃ u : Vmm P (AnonState τ),
        Good (base + n) u ∧ u.env.map.map.hatGetMap (base + n) = none ∧
        u.handleFault handlers (base + n) { write := true } = some (v', false)) := by
  induction fuel generalizing v count bytes with
  | zero =>
    obtain ⟨rfl, hrun⟩ := ite_none_right_eq_some.mp hrun
    cases hrun
    exact ⟨0, zero_le, rfl, h, fun _ _ h => h, ⟨_, fun _ hne => absurd rfl hne, rfl⟩, nofun, nofun⟩
  | succ fuel ih =>
    rw [copyLoop] at hrun
    by_cases hnil : bytes = []
    · rw [if_pos hnil] at hrun
      cases hrun
      subst hnil
      exact ⟨0, zero_le, rfl, h, fun _ _ h => h, ⟨_, fun _ hne => absurd rfl hne, rfl⟩, nofun,
        nofun⟩
    rw [if_neg hnil] at hrun
    obtain ⟨⟨u, r⟩, hphys, hrest⟩ := bind_eq_some_iff.mp hrun
    rw [add64_eq hbase] at hphys
    have hfirst : base + count ∈ window := hwindow 0 (length_pos_of_ne_nil hnil)
    obtain ⟨hu, hadds⟩ := hL.lookup hfirst h hphys
    obtain ⟨hcases, hget⟩ := foreignPhys_spec hphys
    cases r with
    | none =>
      cases hrest
      obtain ⟨hnone, hfault⟩ := hcases.resolve_left fun hand => nomatch hand.2
      exact ⟨0, zero_le, rfl, hu, hadds.map, ⟨_, hadds.mem, rfl⟩, nofun,
        fun _ => ⟨hcount hnil, v, h, hnone, hfault⟩⟩
    | some phys =>
    obtain ⟨pte, hpte, rfl⟩ := map_eq_some_iff.mp (hget rfl)
    obtain ⟨page, hpage⟩ : ∃ page, page = (base + count) / PageSize := ⟨_, rfl⟩
    obtain ⟨off, hoff⟩ : ∃ off, off = (base + count) % PageSize := ⟨_, rfl⟩
    have hsplit : base + count = page * PageSize + off := by rw [hpage, hoff, Nat.div_add_mod']
    have hlt : off < PageSize := hoff ▸ Nat.mod_lt _ (by decide)
    simp only [copyLength_eq (hcount hnil), ← hoff] at hrest
    rw [← hpage] at hpte
    -- the copy ends with the page or with the bytes
    generalize hc : min bytes.length (PageSize - off) = c at hrest
    have hgood := hL.next (b := base + (count + c)) (pte.frame + off) (bytes.take c) hu
      (by rw [← hpage, hpte]; rfl) (by omega)
    have hbase' : base + (count + c) < wordSize := by
      rcases hend with hend | hend
      · omega
      · have hend := hend _ u hu page pte hpte
        rw [add_mul] at hend
        omega
    have hnext : bytes.drop c ≠ [] → count + c = 0 ∨ (base + (count + c)) % PageSize = 0 := by
      intro hdrop
      have hcut : c = PageSize - off := by
        have hlong : c < bytes.length := by
          by_contra hge
          exact hdrop (drop_eq_nil_of_le (by omega))
        omega
      right
      rw [← add_assoc, hsplit, hcut, PageSize]
      rw [PageSize] at hlt
      omega
    have hwindow' : ∀ x < (bytes.drop c).length, base + (count + c) + x ∈ window := by
      intro x hx
      rw [length_drop] at hx
      have hmem := hwindow (c + x) (by omega)
      rwa [← add_assoc, add_assoc base] at hmem
    obtain ⟨k, hk, rfl, hgood', hmap, ⟨mem, hmem, hcopy⟩, hmapped, hrefused⟩ :=
      ih hgood hwindow' hbase' (hend.imp_left fun _ => by
        rw [length_drop]
        omega) hnext hrest
    rw [length_drop] at hk hrefused
    have htake : (bytes.take c).length = c := length_take_of_le (by omega)
    have hpte' : v'.env.map.map page = some pte := hmap page pte hpte
    obtain ⟨mem', hmem', hwrite⟩ := hadds.writeList hpte (by omega) hmem
    refine ⟨c + k, by omega, by omega, hgood', fun page pte h => hmap _ _ (hadds.map _ _ h),
      ⟨mem', hmem', ?_⟩, fun x hx => ?_, fun hlt => hrefused (by omega)⟩
    · have hpage := copyMem_page hpte' mem' off (bytes.take c) (by omega)
      rw [← hsplit, hwrite] at hpage
      rw [take_add, copyMem_append, htake, hpage, add_assoc, hcopy]
    · by_cases hxc : x < c
      · have hdiv : (base + count + x) / PageSize = page := by
          rw [PageSize] at *
          omega
        rw [hdiv, hpte']
        rfl
      · have hx' := hmapped (x - c) (by omega)
        have heq : base + (count + c) + (x - c) = base + count + x := by omega
        rwa [heq] at hx'

/-- **The faults of a copy** into a window, in the states `Good` in which it comes to an address: a
fault at a page that is not mapped only adds translations, and if it succeeds, one for the page. -/
structure FaultsAdd (handlers : FaultHandlers (AnonState τ)) (base length : ℕ) (S : Set ℕ)
    (Good : ℕ → Vmm P (AnonState τ) → Prop) : Prop where
  next : ∀ {a b u} phys bytes, Good a u → (u.env.map.map (a / PageSize)).isSome → a ≤ b →
    Good b (u.writePhys phys bytes)
  fault : ∀ {a u}, Good a u → base ≤ a → a < base + length → u.env.map.map.hatGetMap a = none →
    ∃ u' good, u.handleFault handlers a { write := true } = some (u', good) ∧ Good a u' ∧
      u.Adds S u' ∧ (good = true → (u'.env.map.map (a / PageSize)).isSome)

section

variable {base length : ℕ} {S : Set ℕ} {Good : ℕ → Vmm P (AnonState τ) → Prop}
  (hfaults : FaultsAdd handlers base length S Good)

include hfaults

lemma FaultsAdd.lookups : Lookups handlers (Set.Ico base (base + length)) S Good where
  next := hfaults.next
  lookup := by
    rintro u v vaddr r ⟨hlo, hhi⟩ hu hphys
    rcases (foreignPhys_spec hphys).1 with ⟨rfl, -⟩ | ⟨hnone, hfault⟩
    · exact ⟨hu, fun _ _ h => h, fun _ hne => absurd rfl hne⟩
    · obtain ⟨u', good, hfault', hu', hadds, -⟩ := hfaults.fault hu hlo hhi hnone
      cases hfault.symm.trans hfault'
      exact ⟨hu', hadds⟩

lemma FaultsAdd.exists_foreignPhys {a : ℕ} (hv : Good a v) (hlo : base ≤ a)
    (hhi : a < base + length) : ∃ r, v.foreignPhys handlers a = some r := by
  rw [Vmm.foreignPhys]
  cases hget : v.env.map.map.hatGetMap a with
  | some phys => exact ⟨_, rfl⟩
  | none =>
    obtain ⟨u, good, hfault, -, -, hgood⟩ := hfaults.fault hv hlo hhi hget
    cases good with
    | false => exact ⟨(u, none), by rw [hfault]; rfl⟩
    | true =>
      obtain ⟨pte, hpte⟩ := isSome_iff_exists.mp (hgood rfl)
      simp only [hfault, bind_some, if_true, hatGetMap, hpte, map_some]
      exact ⟨_, rfl⟩

/-- The loop ends, since every turn copies at least one byte. -/
lemma FaultsAdd.exists_copyLoop {count fuel : ℕ} {bytes : List (BitVec 8)}
    (hv : Good (base + count) v) (hcount : count + bytes.length ≤ length)
    (hend : base + length < wordSize) (hfuel : bytes.length ≤ fuel) :
    ∃ r, copyLoop handlers base fuel v count bytes = some r := by
  induction fuel generalizing v count bytes with
  | zero => exact ⟨_, if_pos (eq_nil_of_length_eq_zero (Nat.le_zero.mp hfuel))⟩
  | succ fuel ih =>
    by_cases hnil : bytes = []
    · exact ⟨_, if_pos hnil⟩
    have hpos := length_pos_of_ne_nil hnil
    rw [copyLoop, if_neg hnil, add64_eq (by omega)]
    obtain ⟨⟨u, r⟩, hphys⟩ := hfaults.exists_foreignPhys hv (by omega) (by omega)
    have hu := (hfaults.lookups.lookup ⟨by omega, by omega⟩ hv hphys).1
    have hget := (foreignPhys_spec hphys).2
    rw [hphys]
    cases r with
    | none => exact ⟨_, rfl⟩
    | some phys =>
      obtain ⟨pte, hpte, -⟩ := map_eq_some_iff.mp (hget rfl)
      have hmod : base % PageSize < PageSize := Nat.mod_lt _ (by decide)
      dsimp only
      generalize hc : (if count = 0 then _ else _ : ℕ) = c
      have hle : 0 < c ∧ c ≤ bytes.length := by
        split_ifs at hc <;> omega
      refine ih (hfaults.next phys _ hu (by rw [hpte]; rfl) (by omega)) ?_ ?_ <;>
        (rw [length_drop]; omega)

end

/-- **`CopyIn` into a window of one range** returns the number of bytes in front of the first page
whose fault is refused, or all of them.  They are read back through the page tables if the pages have
frames of their own, and no other byte of the memory has changed that the faults did not write. -/
theorem copyIn_through_map [DecidableEq P] {p : P} {base : ℕ} {bytes : List (BitVec 8)} {S : Set ℕ}
    {Good : ℕ → Vmm P (AnonState τ) → Prop}
    (hfaults : FaultsAdd handlers base bytes.length S Good) (hv : Good base v)
    (hfind : v.findRange base = some (some p))
    (htop : (v.ranges.tree.item p).top < wordSize)
    (hend : base + bytes.length ≤ (v.ranges.tree.item p).top) :
    ∃ v' n, v.copyIn handlers base bytes = some (v', n) ∧ n ≤ bytes.length ∧
      (OwnFrames v'.env.map.map base n → ∀ i (hi : i < bytes.length), i < n → ∃ phys,
        v'.env.map.map.hatGetMap (base + i) = some phys ∧ v'.env.map.mem phys = bytes[i]) ∧
      (∀ a, (∀ i < n, v'.env.map.map.hatGetMap (base + i) ≠ some a) → a ∉ S →
        v'.env.map.mem a = v.env.map.mem a) ∧
      (n < bytes.length → n = (base + n) / PageSize * PageSize - base ∧ ∃ u : Vmm P (AnonState τ),
        Good (base + n) u ∧ u.env.map.map.hatGetMap (base + n) = none ∧
        u.handleFault handlers (base + n) { write := true } = some (v', false)) := by
  have hexists : v.memoryExists base bytes.length none = some true := by
    simp only [memoryExists, hfind, bind_eq_bind, bind_some]
    rw [if_neg (by rw [add64_eq (by omega)]; omega)]
    rfl
  obtain ⟨⟨v', n⟩, hrun⟩ :=
    hfaults.exists_copyLoop (show Good (base + 0) v from hv) (by omega) (by omega)
      (le_refl bytes.length)
  obtain ⟨k, hk, hn, -, -, ⟨mem, hfault, hmem⟩, hmapped, hrefused⟩ := hfaults.lookups.copyLoop
    (show Good (base + 0) v from hv) (fun x hx => ⟨by omega, by omega⟩) (by omega)
    (.inl (by omega)) (fun _ => .inl rfl) hrun
  rw [zero_add] at hn
  subst hn
  simp only [add_zero] at hmem hmapped
  refine ⟨v', n, ?_, hk, fun hown i hi hin => ?_, fun a ha hS => ?_, fun hlt => ?_⟩
  · simp only [copyIn, hexists, bind_eq_bind, bind_some, if_true]
    exact hrun
  · obtain ⟨pte, hpte⟩ := isSome_iff_exists.mp (hmapped i hin)
    have hget : v'.env.map.map.hatGetMap (base + i) = some (pte.frame + (base + i) % PageSize) := by
      rw [hatGetMap, hpte]
      rfl
    have hlen : (bytes.take n).length = n := length_take_of_le hk
    refine ⟨_, hget, ?_⟩
    rw [hmem, copyMem_at (hlen.symm ▸ hown) (hlen.symm ▸ hin) hget, getElem_take]
  · rw [hmem, copyMem_of_ne fun i hi => ha i (length_take_of_le hk ▸ hi)]
    by_contra hne
    exact hS (hfault a hne).1
  · obtain ⟨haligned, hfault⟩ := hrefused hlt
    refine ⟨?_, hfault⟩
    rcases haligned with rfl | haligned
    · rw [add_zero, Nat.sub_eq_zero_of_le (Nat.div_mul_le_self _ _)]
    · rw [Nat.div_mul_cancel (Nat.dvd_of_mod_eq_zero haligned), Nat.add_sub_cancel_left]

/-! ### Demand paging -/

/-- The anonymous driver with the fault handler and without the zero page. -/
def pagingDriver : AnonVmDriver (List ℕ) := ⟨.counting, true, false, 0⟩

/-- Two pages of a user's VMM that are paged on demand. -/
def pagedRange : Option (Vmm ℕ (AnonState (List ℕ))) :=
  (user .counting .x86 ⟨⟨0, 0, 0, 0, 0, 0, 0, 0, 0⟩, ⟨.empty, fun _ => 0#8, [], true⟩⟩
    (fun _ => ⟨0, 0, 0, 0, 0, 0⟩) fun _ => ⟨0, 0, 0⟩).bind fun v =>
      (v.alloc .counting pagingDriver.drivers 0x2000 0 0x1000001#64 {}).map Prod.fst

/-- Three bytes are copied across the border of the two pages, both of which one fault maps. -/
theorem copyIn_through_map_paged : ∃ v u v', pagedRange = some v ∧ v.env.map.map = .empty ∧
    v.handleFault pagingDriver.faultHandlers 0x1FFF { write := true } = some (u, true) ∧
    v.copyIn pagingDriver.faultHandlers 0x1FFF [1#8, 2#8, 3#8] = some (v', 3) ∧
    OwnFrames v'.env.map.map 0x1FFF 3 ∧
    (∀ i (hi : i < 3), ∃ phys, v'.env.map.map.hatGetMap (0x1FFF + i) = some phys ∧
      v'.env.map.mem phys = [1#8, 2#8, 3#8][i]) ∧
    ∀ a, (∀ i < 3, v'.env.map.map.hatGetMap (0x1FFF + i) ≠ some a) →
      u.env.map.mem a = v.env.map.mem a → v'.env.map.mem a = v.env.map.mem a := by
  have heval : pagedRange.map (fun v => (v.findRange 0x1FFF, (v.ranges.tree.item 1).top,
      (v.copyIn pagingDriver.faultHandlers 0x1FFF [1#8, 2#8, 3#8]).map fun r =>
        (r.2, [1, 2].map fun page => (r.1.env.map.map page).map Pte.frame))) =
      some (some (some 1), 0x3000, some (3, [some 0x1000, some 0x2000])) := by
    decide +kernel
  have hfault : (pagedRange.bind fun v => (v.handleFault pagingDriver.faultHandlers 0x1FFF
      { write := true }).map fun r => (r.2, [1, 2].map fun page => (r.1.env.map.map page).isSome)) =
      some (true, [true, true]) := by
    decide +kernel
  obtain ⟨w, hv, heval⟩ := map_eq_some_iff.mp heval
  rw [hv, bind_some] at hfault
  obtain ⟨hfind, htop, hcopy⟩ : _ ∧ _ ∧ _ := by simpa only [Prod.mk.injEq] using heval
  obtain ⟨⟨u, good⟩, hfault, hgood⟩ := map_eq_some_iff.mp hfault
  obtain ⟨⟨v', n⟩, hrun, hcopy⟩ := map_eq_some_iff.mp hcopy
  obtain ⟨rfl, hmapped⟩ : good = true ∧ _ := Prod.mk.inj hgood
  obtain ⟨rfl, hframes⟩ : n = 3 ∧ _ := Prod.mk.inj hcopy
  -- nothing is mapped yet
  obtain ⟨v₀, hv₀, hv₁⟩ := bind_eq_some_iff.mp hv
  obtain ⟨⟨v, r⟩, halloc, hvw⟩ := map_eq_some_iff.mp hv₁
  obtain rfl : v = w := hvw
  obtain ⟨h₀, -, henv₀⟩ := anon_user rfl hv₀
  obtain ⟨-, hcase⟩ := h₀.alloc rfl (by decide) halloc
  have hmap : v.env.map.map = .empty := by
    rcases hcase with ⟨-, -, henv⟩ | ⟨b, -, -, henv⟩ <;> rw [henv, henv₀]
    rfl
  have hnone : ∀ page, v.env.map.map page = none := congrFun hmap
  have hboth : (u.env.map.map 1).isSome ∧ (u.env.map.map 2).isSome := by simpa using hmapped
  -- the copy starts in `v`, and after the fault both pages are mapped
  have hfaults : FaultsAdd pagingDriver.faultHandlers 0x1FFF 3
      {a | u.env.map.mem a ≠ v.env.map.mem a} fun a w => a = 0x1FFF ∧ w = v ∨
        (w.env.map.map 1).isSome ∧ (w.env.map.map 2).isSome := by
    refine ⟨?_, ?_⟩
    · rintro a b w phys bytes (⟨-, rfl⟩ | hw) hsome -
      · rw [hnone] at hsome
        cases hsome
      · exact .inr hw
    · rintro a w (⟨rfl, rfl⟩ | hw) hlo hhi hget
      · refine ⟨u, true, hfault, .inr hboth, ⟨fun page pte hpte => ?_, fun x hx => ⟨hx, ?_⟩⟩,
          fun _ => hboth.1⟩
        · rw [hnone] at hpte
          cases hpte
        · rintro ⟨page, pte, hpte, -⟩
          rw [hnone] at hpte
          cases hpte
      · have hunmapped : w.env.map.map (a / PageSize) = none := map_eq_none_iff.mp hget
        have hpage : a / PageSize = 1 ∨ a / PageSize = 2 := by
          rw [PageSize]
          omega
        rcases hpage with hpage | hpage <;> rw [hpage] at hunmapped <;> simp [hunmapped] at hw
  have hframe : ∀ i < 3, ∀ pte, v'.env.map.map ((0x1FFF + i) / PageSize) = some pte →
      pte.frame = (0x1FFF + i) / PageSize * PageSize := by
    obtain ⟨h₁, h₂⟩ : (v'.env.map.map 1).map Pte.frame = some 0x1000 ∧
      (v'.env.map.map 2).map Pte.frame = some 0x2000 := by simpa using hframes
    intro i hi pte hpte
    interval_cases i
    · exact some.inj ((congrArg (Option.map Pte.frame) hpte).symm.trans h₁)
    all_goals exact some.inj ((congrArg (Option.map Pte.frame) hpte).symm.trans h₂)
  have hown : OwnFrames v'.env.map.map 0x1FFF 3 := by
    refine ⟨fun i hi pte hpte => ?_, fun i hi j hj pte pte' hpte hpte' heq => ?_⟩
    · rw [hframe i hi pte hpte]
      exact Nat.mul_mod_left ..
    · rw [hframe i hi pte hpte, hframe j hj pte' hpte'] at heq
      exact Nat.eq_of_mul_eq_mul_right (by decide) heq
  obtain ⟨w, k, hrun', -, hread, hother, -⟩ := copyIn_through_map hfaults (.inl ⟨rfl, rfl⟩) hfind
    (by rw [htop]; decide) (show 0x1FFF + [1#8, 2#8, 3#8].length ≤ _ by rw [htop]; decide)
  cases hrun.symm.trans hrun'
  exact ⟨v, u, v', hv, hmap, hfault, hrun, hown, fun i hi => hread hown i hi hi,
    fun a ha hsame => hother a ha fun hne => hne hsame⟩

/-! ### `CopyOut` -/

/-- `CopyOut` ends, with the bytes in front of the first page that is not mapped, and writes nothing
else. -/
def CopiesOut (map : PageMap) (mem : ByteMem) (foreignBase length : ℕ) (local' : ByteMem)
    (localBase : ℕ) : Prop :=
  ∃ fuel loc n, copyOut map mem foreignBase length fuel local' localBase = some (loc, n) ∧
    n ≤ length ∧ (n < length → map.hatGetMap (add64 foreignBase n) = none) ∧
    (∀ i < n, ∃ phys, map.hatGetMap (add64 foreignBase i) = some phys ∧
      loc (add64 localBase i) = mem phys) ∧
    ∀ a, (∀ i < n, a ≠ add64 localBase i) → loc a = local' a

/-- The loop does not end at a page that is mapped. -/
lemma copyOutLoop_mapped {map : PageMap} {foreignBase length phys : ℕ} (mem : ByteMem)
    (hlength : length ≠ 0) (hget : map.hatGetMap (add64 foreignBase 0) = some phys) (fuel : ℕ)
    (local' : ByteMem) (localPtr : ℕ) :
    copyOutLoop map mem foreignBase length fuel local' localPtr 0 = none := by
  induction fuel generalizing local' localPtr with
  | zero => rfl
  | succ fuel ih =>
    rw [copyOutLoop, if_pos (Nat.pos_of_ne_zero hlength), hget]
    exact ih _ _

/-- **`CopyOut` is right exactly if there is nothing to copy.** -/
theorem copiesOut_iff (map : PageMap) (mem : ByteMem) (foreignBase length : ℕ) (local' : ByteMem)
    (localBase : ℕ) : CopiesOut map mem foreignBase length local' localBase ↔
      length = 0 ∨ map.hatGetMap (add64 foreignBase 0) = none := by
  constructor
  · rintro ⟨fuel, loc, n, hrun, -⟩
    by_contra hnot
    obtain ⟨hlength, hmapped⟩ := not_or.mp hnot
    obtain ⟨phys, hget⟩ := ne_none_iff_exists'.mp hmapped
    cases hrun.symm.trans (copyOutLoop_mapped mem hlength hget _ _ _)
  · intro h
    refine ⟨1, local', 0, ?_, zero_le, fun hlt => h.resolve_left hlt.ne', nofun, fun _ _ => rfl⟩
    rcases h with rfl | hnone
    · rfl
    · rw [copyOut, copyOutLoop, hnone]
      exact ite_self _

/-- One byte of a page that is mapped. -/
theorem copyOut_endless : ¬ CopiesOut (fun _ => some ⟨0x1000, {}⟩) (fun _ => 1#8) 0x10 1
    (fun _ => 0#8) 0x2000 := by
  rintro ⟨fuel, loc, n, hrun, -⟩
  cases hrun.symm.trans (copyOutLoop_mapped _ (by decide) rfl _ _ _)

end Vmm

end Northport.Memory
