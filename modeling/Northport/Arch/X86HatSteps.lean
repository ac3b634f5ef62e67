/-
# What the HAT operations do to the page tables

The invariant of an address space whose pages are all mapped with the smallest size, and one
lemma for each operation: what it returns and what it does to the tree.
-/
import Northport.Arch.X86HatTables

namespace Northport.X86

open Lib Memory Function List Nat Radix Machine

variable {mmu : Mmu} {s : Machine} {r : Radix ℕ ℕ} {vaddr : ℕ} {p f i page : ℕ} {mem pages : ℕ → ℕ}

/-- **The invariant**: the tables hold the tree, they lie in the recorded pages, and the mapped
frames are no tables. -/
structure Inv (mmu : Mmu) (s : Machine) (r : Radix ℕ ℕ) : Prop where
  tree : Tree mmu s.mem s.map.root r
  page : ∀ i x p, r i x = some (.table p) → p ∈ s.map.tables ∧ p % 2 ^ 12 = 0
  frame : ∀ i x f, r i x = some (.leaf f) → i = 0 ∧ Covered mmu f ∧ f ∉ s.map.tables

/-- The entries of page aligned tables do not overlap. -/
lemma entryAddress_inj {q k l : ℕ} (hp : p % 2 ^ 12 = 0) (hq : q % 2 ^ 12 = 0) (hk : k < 512)
    (hl : l < 512) (h : entryAddress p k = entryAddress q l) : p = q ∧ k = l := by
  simp only [entryAddress] at h
  omega

/-- A word inside a page is in no table of another page. -/
lemma entryAddress_outside {q a l : ℕ} (hp : p % 2 ^ 12 = 0) (hq : q % 2 ^ 12 = 0) (hl : l < 512)
    (hqp : q ≠ p) (ha : p ≤ a ∧ a < p + 0x1000) : entryAddress q l ≠ a := by
  simp only [entryAddress]
  omega

section

variable (h : Inv mmu s r)

include h

/-- Only the memory and the map matter. -/
lemma Inv.congr {s' : Machine} (hmem : s'.mem = s.mem)
    (hroot : s'.map.root = s.map.root) (htables : s'.map.tables = s.map.tables) : Inv mmu s' r := by
  refine ⟨?_, htables ▸ h.page, htables ▸ h.frame⟩
  rw [hmem, hroot]
  exact h.tree

lemma Inv.finish (flush bump : Bool) (v : ℕ) :
    Inv mmu ((s.flush flush v).bumpGeneration bump) r := by
  cases flush <;> cases bump <;> exact h.congr rfl rfl rfl

/-- The word of a mapped frame is no table entry. -/
lemma Inv.store {x a v : ℕ} (hf : r 0 x = some (.leaf f))
    (ha : f ≤ a ∧ a < f + 0x1000) : Inv mmu { s with mem := update s.mem a v } r := by
  obtain ⟨-, hcov, hout⟩ := h.frame 0 x f hf
  refine ⟨h.tree.congr fun i y p k hp hk => ?_, h.page, h.frame⟩
  obtain ⟨hmem, haligned⟩ := h.page i y p hp
  refine update_of_ne (entryAddress_outside hcov.aligned haligned hk ?_ ha) _ _
  rintro rfl
  exact hout hmem

/-! ### The end of a walk -/

/-- Above the pages there are only tables, so a walk that does not find a page shows that there
is none. -/
lemma Inv.leaf_of_walkEnd {path : WalkResult} (hw : WalkEnd mmu r vaddr path i p) :
    (path.complete = true ∧ i = 0 ∧ ∃ f, r 0 (pageKey mmu vaddr) = some (.leaf f) ∧
      s.mem path.pte &&& mmu.addrMask = f) ∨
      (path.complete = false ∧ r 0 (pageKey mmu vaddr) = none) := by
  rcases hw.node with ⟨hc, f, hf⟩ | ⟨hc, hnone⟩
  · obtain rfl : i = 0 := (h.frame i _ f hf).1
    have hentry := h.tree.entry vaddr hw.lt hw.table
    rw [hf] at hentry
    rw [pow_zero, Nat.div_one] at hf
    refine .inl ⟨hc, rfl, f, hf, ?_⟩
    rw [hw.pte]
    exact hentry.1.2
  · refine .inr ⟨hc, ?_⟩
    rcases Nat.eq_zero_or_pos i with rfl | hi
    · rwa [pow_zero, Nat.div_one] at hnone
    · have hbelow := h.tree.none_below hw.lt.le (x := pageKey mmu vaddr)
        (by rw [hnone]; simp) hi
      rwa [pow_zero, Nat.div_one] at hbelow

/-- **`HatGetMap`** returns the frame of the page with the offset in the page. -/
lemma Inv.hatGetMap_eq (vaddr : ℕ) : s.hatGetMap mmu vaddr =
    match r 0 (pageKey mmu vaddr) with
    | some (.leaf f) => some (f + vaddr % 2 ^ 12, 0) | _ => none := by
  obtain ⟨i, p, hw⟩ := walkTables_spec h.tree vaddr
  rw [hatGetMap]
  rcases h.leaf_of_walkEnd hw with ⟨hc, rfl, f, hf, hmem⟩ | ⟨hc, hnone⟩
  · have hoff : vaddr &&& (getPageSize 1 - 1) = vaddr % 2 ^ 12 :=
      and_two_pow_sub_one_eq_mod vaddr 12
    have hadd : f ||| vaddr % 2 ^ 12 = f + vaddr % 2 ^ 12 := by
      obtain ⟨k, rfl⟩ := dvd_of_mod_eq_zero (h.frame 0 _ f hf).2.1.aligned
      exact (two_pow_add_eq_or_of_lt (mod_lt _ (by decide)) k).symm
    simp only [hc, hf, hw.level, hmem, hoff, hadd, if_true]
  · simp [hc, hnone]

/-! ### Writing entries -/

/-- The final entry of a page is written. -/
lemma Inv.setLeaf {e : ℕ} {n : Option (RadixNode ℕ ℕ)}
    (hp : r 1 (pageKey mmu vaddr / 512) = some (.table p)) (he : Entry mmu 0 e n)
    (hn : ∀ f, n = some (.leaf f) → Covered mmu f ∧ f ∉ s.map.tables) :
    Inv mmu { s with mem := update s.mem (entryAddress p (pageKey mmu vaddr % 512)) e }
      (r.set 0 (pageKey mmu vaddr) n) := by
  have hk : pageKey mmu vaddr % 512 < 512 := mod_lt _ (by decide)
  have hkey : pageKey mmu vaddr / 512 * 512 + pageKey mmu vaddr % 512 = pageKey mmu vaddr :=
    div_add_mod' _ _
  have hold : ∀ q, r 0 (pageKey mmu vaddr) ≠ some (.table q) := by
    intro q hq
    have hentry := h.tree.entries 0 _ p _ (pagingLevels_pos mmu) hp hk
    rw [hkey, hq] at hentry
    exact absurd hentry.1 (lt_irrefl 0)
  have hnt : ∀ q, n ≠ some (.table q) := by
    rintro q rfl
    exact absurd he.1 (lt_irrefl 0)
  refine ⟨?_, ?_, ?_⟩
  · have hset : Tree mmu (update s.mem (entryAddress p (pageKey mmu vaddr % 512)) e)
        s.map.root (r.set 0 (pageKey mmu vaddr / 512 * 512 + pageKey mmu vaddr % 512) n) := by
      refine h.tree.set (pagingLevels_pos mmu) hp hk (by rwa [hkey]) ?_ ?_
        (fun q hq => absurd hq (hnt q))
      · rwa [update_self]
      · intro j y q l hq hl hne
        refine update_of_ne (fun heq => hne ?_) _ _
        exact entryAddress_inj (h.page j y q hq).2 (h.page 1 _ p hp).2 hl hk heq
    rwa [hkey] at hset
  · intro i x q hq
    rcases set_cases hq with ⟨-, -, hq⟩ | hq
    · exact absurd hq (hnt q)
    · exact h.page i x q hq
  · intro i x f hf
    rcases set_cases hf with ⟨hi, -, hf⟩ | hf
    · exact ⟨hi, hn f hf⟩
    · exact h.frame i x f hf

end

/-- A page that the PMM may give for a table: it is neither a table nor a mapped frame. -/
structure Fresh (mmu : Mmu) (s : Machine) (r : Radix ℕ ℕ) (page : ℕ) : Prop where
  covered : Covered mmu page
  not_table : page ∉ s.map.tables
  not_frame : ∀ x, r 0 x ≠ some (.leaf page)

lemma zeroPage_inside {k : ℕ} (hk : k < 512) : zeroPage mem page (entryAddress page k) = 0 := by
  rw [zeroPage, if_pos]
  simp only [entryAddress]
  omega

lemma zeroPage_outside {q k : ℕ} (hp : page % 2 ^ 12 = 0) (hq : q % 2 ^ 12 = 0) (hk : k < 512)
    (hne : q ≠ page) : zeroPage mem page (entryAddress q k) = mem (entryAddress q k) := by
  rw [zeroPage, if_neg]
  exact fun hin => entryAddress_outside hp hq hk hne hin rfl

/-- **One turn of the loop**: a missing table is put into the tree. -/
lemma Inv.addTable (h : Inv mmu s r) (hi : i + 1 < mmu.pagingLevels)
    (hp : r (i + 2) (pageKey mmu vaddr / 512 ^ (i + 2)) = some (.table p))
    (hnone : r (i + 1) (pageKey mmu vaddr / 512 ^ (i + 1)) = none) (hpage : Fresh mmu s r page) :
    Inv mmu
      (s.addTable mmu (entryAddress p (pageKey mmu vaddr / 512 ^ (i + 1) % 512)) page)
      (r.set (i + 1) (pageKey mmu vaddr / 512 ^ (i + 1)) (some (.table page))) := by
  have hk : pageKey mmu vaddr / 512 ^ (i + 1) % 512 < 512 := mod_lt _ (by decide)
  have hkey := (div_pow_eq 512 (pageKey mmu vaddr) (i + 1)).symm
  have hpa : p % 2 ^ 12 = 0 := (h.page _ _ p hp).2
  have hne : ∀ j y q, r j y = some (.table q) → q ≠ page := by
    rintro j y q hq rfl
    exact hpage.not_table (h.page j y q hq).1
  obtain ⟨hholds, hsize⟩ := tableEntry_spec hpage.covered
  refine ⟨?_, ?_, ?_⟩
  · have hset : Tree mmu (s.addTable mmu
        (entryAddress p (pageKey mmu vaddr / 512 ^ (i + 1) % 512)) page).mem s.map.root
        (r.set (i + 1) (pageKey mmu vaddr / 512 ^ (i + 1 + 1) * 512 +
          pageKey mmu vaddr / 512 ^ (i + 1) % 512) (some (.table page))) := by
      refine h.tree.set hi hp hk (by rw [hkey, hnone]; simp) ?_ ?_ ?_
      · simp only [Machine.addTable, update_self]
        exact ⟨by omega, hholds, hsize⟩
      · intro j y q l hq hl hpl
        have hqa := (h.page j y q hq).2
        simp only [Machine.addTable]
        rw [update_of_ne fun heq => hpl (entryAddress_inj hqa hpa hl hk heq),
          zeroPage_outside hpage.covered.aligned hqa hl (hne j y q hq)]
      · rintro q hq
        cases hq
        refine ⟨fun j y hjy => hne j y page hjy rfl, fun j l hl => ?_⟩
        have hpp : page ≠ p := (hne _ _ p hp).symm
        simp only [Machine.addTable, Entry]
        rw [update_of_ne fun heq =>
          hpp (entryAddress_inj hpage.covered.aligned hpa hl hk heq).1, zeroPage_inside hl,
          zero_and]
    rwa [hkey] at hset
  · intro j y q hq
    rcases set_cases hq with ⟨-, -, ⟨⟩⟩ | hq
    · exact ⟨mem_cons_self, hpage.covered.aligned⟩
    · exact ⟨mem_cons_of_mem _ (h.page j y q hq).1, (h.page j y q hq).2⟩
  · intro j y f hf
    rcases set_cases hf with ⟨-, -, ⟨⟩⟩ | hf
    obtain ⟨rfl, hcov, hout⟩ := h.frame j y f hf
    refine ⟨rfl, hcov, fun hmem => ?_⟩
    rcases mem_cons.mp hmem with rfl | hmem
    · exact hpage.not_frame y hf
    · exact hout hmem

/-- The pages that the PMM gives for the tables of the levels up to `i`. -/
structure FreshPages (mmu : Mmu) (s : Machine) (r : Radix ℕ ℕ) (pages : ℕ → ℕ) (i : ℕ) :
    Prop where
  fresh : ∀ l, 0 < l → l ≤ i → Fresh mmu s r (pages l)
  distinct : ∀ l l', 0 < l → l < l' → l' ≤ i → pages l ≠ pages l'

/-- After one of the pages became a table the others are still fresh. -/
lemma FreshPages.addTable {pte x : ℕ} (h : FreshPages mmu s r pages (i + 1)) :
    FreshPages mmu (s.addTable mmu pte (pages (i + 1)))
      (r.set (i + 1) x (some (.table (pages (i + 1))))) pages i := by
  refine ⟨fun l hl hli => ?_, fun l l' hl hll' hl' => h.distinct l l' hl hll' (by omega)⟩
  obtain ⟨hcov, htable, hframe⟩ := h.fresh l hl (by omega)
  refine ⟨hcov, ?_, fun y => ?_⟩
  · rw [Machine.addTable, mem_cons, not_or]
    exact ⟨h.distinct l (i + 1) hl (by omega) le_rfl, htable⟩
  · rw [set_of_ne _ _ fun h0 => absurd h0.1 (succ_ne_zero i).symm]
    exact hframe y

/-- **The loop of `HatDoMap`** reaches the last level, with all tables on the way and no page
changed. -/
lemma Inv.addTables_spec (h : Inv mmu s r) (hi : i < mmu.pagingLevels)
    (hp : r (i + 1) (pageKey mmu vaddr / 512 ^ (i + 1)) = some (.table p))
    (hnone : r i (pageKey mmu vaddr / 512 ^ i) = none) (hpages : FreshPages mmu s r pages i) :
    ∃ s' r' p', addTables mmu vaddr pages 1 (i + 1) s
        (entryAddress p (pageKey mmu vaddr / 512 ^ i % 512)) =
        some (s', entryAddress p' (pageKey mmu vaddr % 512)) ∧
      Inv mmu s' r' ∧ r' 1 (pageKey mmu vaddr / 512) = some (.table p') ∧
      (∀ x, r' 0 x = r 0 x) ∧ ∀ q ∈ s'.map.tables, q ∈ s.map.tables ∨
        ∃ l, 0 < l ∧ l ≤ i ∧ q = pages l := by
  induction i generalizing s r p with
  | zero =>
    refine ⟨s, r, p, ?_, h, hp, fun _ => rfl, fun q hq => .inl hq⟩
    rw [addTables, if_pos rfl, pow_zero, Nat.div_one]
  | succ i ih =>
    have hlt : i < mmu.pagingLevels := by omega
    have hpage := hpages.fresh (i + 1) (succ_pos i) le_rfl
    have hadd := h.addTable hi hp hnone hpage
    have hbelow : r i (pageKey mmu vaddr / 512 ^ i) = none :=
      h.tree.none_below hi.le (by rw [hnone]; simp) (lt_succ_self i)
    obtain ⟨s', r', p', hrun, hinv, hp', hleaf, htables⟩ := ih hadd hlt
      (set_self ..) (by rwa [set_of_ne _ _ fun h => absurd h.1 (lt_succ_self i).ne])
      hpages.addTable
    refine ⟨s', r', p', ?_, hinv, hp', fun x => ?_, fun q hq => ?_⟩
    · rw [addTables, if_neg (by omega), getAddressIndices_eq vaddr hlt]
      exact hrun
    · rw [hleaf x, set_of_ne _ _ fun h => absurd h.1 (succ_ne_zero i).symm]
    · rcases htables q hq with hq | ⟨l, hl, hli, rfl⟩
      · rcases mem_cons.mp hq with rfl | hq
        · exact .inr ⟨i + 1, succ_pos i, le_rfl, rfl⟩
        · exact .inl hq
      · exact .inr ⟨l, hl, by omega, rfl⟩

/-! ### The operations -/

lemma mode_zero_lt (mmu : Mmu) : ¬ 0 ≥ mmu.modeCount := by
  rw [Mmu.modeCount]
  split_ifs <;> decide

variable (h : Inv mmu s r)

include h

/-- **`HatDoMap` of a mapped page** returns false and changes nothing. -/
lemma Inv.hatDoMap_mapped (hf : r 0 (pageKey mmu vaddr) = some (.leaf f))
    (kernel : Bool) (paddr : ℕ) (flags : HatFlags) (flush : Bool) (pages : ℕ → ℕ) :
    s.hatDoMap mmu kernel vaddr paddr 0 flags flush pages = some (false, s) := by
  obtain ⟨i, p, hw⟩ := walkTables_spec h.tree vaddr
  obtain ⟨hc, -⟩ := (h.leaf_of_walkEnd hw).resolve_right (by simp [hf])
  rw [hatDoMap, if_neg (mode_zero_lt mmu)]
  simp only [hc, if_true]

/-- **`HatDoMap` of a page that is not mapped** maps it, and no other page changes. -/
lemma Inv.hatDoMap_unmapped (hnone : r 0 (pageKey mmu vaddr) = none)
    (kernel : Bool) {paddr : ℕ} (flags : HatFlags) (flush : Bool) (hcov : Covered mmu paddr)
    (hout : paddr ∉ s.map.tables)
    (hpages : FreshPages mmu s r pages ((walkTables mmu s.mem s.map.root vaddr).level - 1))
    (hne : ∀ l, 0 < l → l < (walkTables mmu s.mem s.map.root vaddr).level → paddr ≠ pages l) :
    ∃ s' r', s.hatDoMap mmu kernel vaddr paddr 0 flags flush pages = some (true, s') ∧
      Inv mmu s' r' ∧ ∀ x, r' 0 x = if x = pageKey mmu vaddr then some (.leaf paddr) else r 0 x := by
  obtain ⟨i, p, hw⟩ := walkTables_spec h.tree vaddr
  obtain ⟨hc, -⟩ := (h.leaf_of_walkEnd hw).resolve_left (by simp [hnone])
  obtain ⟨-, hslot⟩ := hw.node.resolve_left (by simp [hc])
  rw [hw.level] at hpages
  obtain ⟨s₁, r₁, p₁, hrun, h₁, hp₁, hleaf, htables⟩ := h.addTables_spec hw.lt hw.table hslot hpages
  have hout₁ : paddr ∉ s₁.map.tables := by
    intro hmem
    rcases htables paddr hmem with hmem | ⟨l, hl, hli, hpl⟩
    · exact hout hmem
    · exact hne l hl (by rw [hw.level]; omega) hpl
  have h₂ := h₁.setLeaf hp₁ (e := leafEntry mmu paddr 0 flags) (n := some (.leaf paddr))
    ⟨leafEntry_spec 0 flags hcov, .inl rfl⟩ (by rintro f ⟨rfl⟩; exact ⟨hcov, hout₁⟩)
  refine ⟨_, _, ?_, h₂.finish flush kernel vaddr, fun x => ?_⟩
  · rw [hatDoMap, if_neg (mode_zero_lt mmu)]
    simp only [hc, hw.level, hw.pte, hrun, zero_add, Option.map_some, Bool.false_eq_true, if_false]
  · rw [Radix.set]
    simp only [true_and]
    split_ifs
    · rfl
    · exact hleaf x

/-- **`HatDoUnmap` of a mapped page** returns its frame and removes it, and no other page
changes. -/
lemma Inv.hatDoUnmap_mapped (hf : r 0 (pageKey mmu vaddr) = some (.leaf f)) (kernel flush : Bool) :
    ∃ s', s.hatDoUnmap mmu kernel vaddr flush = (some (f, 0), s') ∧
      Inv mmu s' (r.set 0 (pageKey mmu vaddr) none) := by
  obtain ⟨i, p, hw⟩ := walkTables_spec h.tree vaddr
  obtain ⟨hc, rfl, f', hf', hmem⟩ := (h.leaf_of_walkEnd hw).resolve_right (by simp [hf])
  cases hf.symm.trans hf'
  have hpte := hw.pte
  rw [pow_zero, Nat.div_one] at hpte
  have hset := h.setLeaf hw.table (e := 0) (n := none) (zero_and _) (by simp)
  rw [← hpte] at hset
  refine ⟨_, ?_, hset.finish flush (kernel && (0 + 1) == mmu.pagingLevels) vaddr⟩
  rw [hatDoUnmap]
  simp only [hc, hmem, hw.level, if_true]

/-- **`HatDoUnmap` of a page that is not mapped** changes nothing. -/
lemma Inv.hatDoUnmap_unmapped (hnone : r 0 (pageKey mmu vaddr) = none)
    (kernel flush : Bool) : s.hatDoUnmap mmu kernel vaddr flush = (none, s) := by
  obtain ⟨i, p, hw⟩ := walkTables_spec h.tree vaddr
  obtain ⟨hc, -⟩ := (h.leaf_of_walkEnd hw).resolve_left (by simp [hnone])
  simp only [hatDoUnmap, hc, Bool.false_eq_true, if_false]

end Northport.X86
