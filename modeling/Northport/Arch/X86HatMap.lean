/-
# The page tables refine a flat map

For its users an address space is a partial map from virtual pages to frames.  Every history
of the HAT operations, and of programs that write through the mappings, returns what the
flat map returns, and afterwards the tables translate every address as the flat map does.
-/
import Northport.Lib.Run
import Northport.Arch.X86HatSteps

namespace Northport.X86

open Lib Memory Option List

/-- What is done to an address space. -/
inductive HatOp where
  /-- `HatDoMap` with the smallest page size; `pages` has the page that `PMM::Alloc` returns for
  the table of a level. -/
  | doMap (vaddr paddr : ℕ) (flags : HatFlags) (flush : Bool) (pages : ℕ → ℕ)
  | doUnmap (vaddr : ℕ) (flush : Bool)
  | getMap (vaddr : ℕ)
  /-- A program writes a word through its mapping. -/
  | store (vaddr value : ℕ)

inductive Reply where
  | mapped (ok : Bool)
  | unmapped (found : Option (ℕ × ℕ))
  | address (found : Option (ℕ × ℕ))
  | stored (ok : Bool)
deriving DecidableEq, Repr

/-! ### The flat map -/

/-- **What an address space is for**: the frame of every mapped virtual page. -/
def FlatMap := ℕ → Option ℕ

namespace FlatMap

def getMap (m : FlatMap) (vaddr : ℕ) : Option (ℕ × ℕ) :=
  (m (vaddr / 2 ^ 12)).map fun f => (f + vaddr % 2 ^ 12, 0)

/-- The binding of one page is replaced. -/
def set (m : FlatMap) (page : ℕ) (f : Option ℕ) : FlatMap := fun x => if x = page then f else m x

def step (m : FlatMap) : HatOp → Reply × FlatMap
  | .doMap vaddr paddr _ _ _ =>
    match m (vaddr / 2 ^ 12) with
    | some _ => (.mapped false, m)
    | none => (.mapped true, m.set (vaddr / 2 ^ 12) (some paddr))
  | .doUnmap vaddr _ =>
    match m (vaddr / 2 ^ 12) with
    | some f => (.unmapped (some (f, 0)), m.set (vaddr / 2 ^ 12) none)
    | none => (.unmapped none, m)
  | .getMap vaddr => (.address (m.getMap vaddr), m)
  | .store vaddr _ => (.stored (m (vaddr / 2 ^ 12)).isSome, m)

/-- The map after a history, with the replies. -/
def history (m : FlatMap) : List HatOp → FlatMap × List Reply
  | [] => (m, [])
  | op :: ops =>
    let (reply, m) := m.step op
    let (m, replies) := m.history ops
    (m, reply :: replies)

/-- No page is mapped. -/
def empty : FlatMap := fun _ => none

end FlatMap

/-! ### The machine -/

variable (mmu : Mmu) (kernel : Bool)

def Machine.step (s : Machine) : HatOp → Option (Reply × Machine)
  | .doMap vaddr paddr flags flush pages =>
    (s.hatDoMap mmu kernel vaddr paddr 0 flags flush pages).map fun (ok, s) => (.mapped ok, s)
  | .doUnmap vaddr flush =>
    let (found, s) := s.hatDoUnmap mmu kernel vaddr flush
    some (.unmapped found, s)
  | .getMap vaddr => some (.address (s.hatGetMap mmu vaddr), s)
  | .store vaddr value =>
    match s.hatGetMap mmu vaddr with
    | some (a, _) =>
      some (.stored true, { s with mem := Function.update s.mem a (value % wordSize) })
    | none => some (.stored false, s)

/-- One operation, with the replies so far. -/
def hatStep (s : Machine × List Reply) (op : HatOp) : Option (Machine × List Reply) :=
  (s.1.step mmu kernel op).map fun (reply, s') => (s', s.2 ++ [reply])

/-- The address is the sign extension of its translated bits. -/
def Canonical (vaddr : ℕ) : Prop :=
  vaddr < 2 ^ (9 * mmu.pagingLevels + 11) ∨
    (2 ^ 64 - 2 ^ (9 * mmu.pagingLevels + 11) ≤ vaddr ∧ vaddr < 2 ^ 64)

instance (vaddr : ℕ) : Decidable (Canonical mmu vaddr) := inferInstanceAs (Decidable (_ ∨ _))

/-- A page of the address space is mapped to this frame. -/
def IsFrame (s : Machine) (f : ℕ) : Prop :=
  ∃ vaddr mode, Canonical mmu vaddr ∧ s.hatGetMap mmu vaddr = some (f, mode)

/-- **What the callers and the PMM have to respect.**  Addresses are canonical, the mapped frames
fit into an entry and are no tables, and the PMM gives pages that are in use neither as tables
nor as frames. -/
def Ok (s : Machine × List Reply) : HatOp → Prop
  | .doMap vaddr paddr _ _ pages =>
    Canonical mmu vaddr ∧ Covered mmu paddr ∧ paddr ∉ s.1.map.tables ∧
      (∀ l, 0 < l → l < (walkTables mmu s.1.mem s.1.map.root vaddr).level →
        Covered mmu (pages l) ∧ pages l ∉ s.1.map.tables ∧ ¬ IsFrame mmu s.1 (pages l) ∧
          paddr ≠ pages l) ∧
      ∀ l l', 0 < l → l < l' → l' < (walkTables mmu s.1.mem s.1.map.root vaddr).level →
        pages l ≠ pages l'
  | .doUnmap vaddr _ => Canonical mmu vaddr
  | .getMap vaddr => Canonical mmu vaddr
  | .store vaddr _ => Canonical mmu vaddr ∧ vaddr % 8 = 0

/-- An address space with this root table. -/
def startMachine (mem : ℕ → ℕ) (root : ℕ) : Machine where
  mem := mem
  map := { root := root, generation := 0, tables := [root] }
  invlpg := []

/-! ### The simulation -/

variable {mmu kernel} {s : Machine} {m : FlatMap} {r : Radix ℕ ℕ} {vaddr : ℕ}

/-- Canonical addresses of different pages take different ways through the tables. -/
lemma pageKey_inj {v w : ℕ} (hv : Canonical mmu v) (hw : Canonical mmu w) :
    pageKey mmu v = pageKey mmu w ↔ v / 2 ^ 12 = w / 2 ^ 12 := by
  cases hla : mmu.la57 <;>
    simp only [Canonical, pageKey, Mmu.pagingLevels, hla] at hv hw ⊢ <;> norm_num at hv hw ⊢ <;>
    omega

/-- The tree holds the flat map. -/
structure Sim (mmu : Mmu) (s : Machine) (m : FlatMap) (r : Radix ℕ ℕ) : Prop where
  inv : Inv mmu s r
  agree : ∀ v, Canonical mmu v → r 0 (pageKey mmu v) = (m (v / 2 ^ 12)).map .leaf
  canonical : ∀ x f, r 0 x = some (.leaf f) → ∃ v, Canonical mmu v ∧ pageKey mmu v = x

lemma sim_start {mem : ℕ → ℕ} {root : ℕ} (hroot : root % 2 ^ 12 = 0)
    (hzero : ∀ k < 512, mem (entryAddress root k) = 0) :
    Sim mmu (startMachine mem root) FlatMap.empty (Radix.empty mmu.pagingLevels root) := by
  have hleaf : ∀ i x f, Radix.empty (F := ℕ) mmu.pagingLevels root i x ≠ some (.leaf f) := by
    intro i x f
    rw [Radix.empty]
    split_ifs <;> simp
  refine ⟨⟨?_, ?_, fun i x f hf => absurd hf (hleaf i x f)⟩, fun v _ => ?_,
    fun x f hf => absurd hf (hleaf 0 x f)⟩
  · refine Radix.Stored.empty fun i k hk => ?_
    rw [Entry]
    simp only [startMachine, hzero k hk, Nat.zero_and]
  · intro i x p hp
    simp only [Radix.empty, ite_none_right_eq_some, Option.some.injEq,
      RadixNode.table.injEq] at hp
    rw [← hp.2]
    exact ⟨mem_singleton_self root, hroot⟩
  · rw [Radix.empty, if_neg fun h => absurd h.1 (pagingLevels_pos mmu).ne]
    rfl

section

variable (h : Sim mmu s m r)

include h

/-- The binding of one page is replaced, in the tree and in the flat map. -/
lemma Sim.set {s' : Machine} {r' : Radix ℕ ℕ} (hv : Canonical mmu vaddr)
    (hinv : Inv mmu s' r') (c : Option ℕ)
    (hr' : ∀ x, r' 0 x = if x = pageKey mmu vaddr then c.map .leaf else r 0 x) :
    Sim mmu s' (m.set (vaddr / 2 ^ 12) c) r' := by
  refine ⟨hinv, fun w hw => ?_, fun x f hf => ?_⟩
  · rw [hr', FlatMap.set]
    simp only [pageKey_inj hw hv]
    split_ifs
    · rfl
    · exact h.agree w hw
  · rw [hr'] at hf
    split_ifs at hf with hx
    · exact ⟨vaddr, hv, hx.symm⟩
    · exact h.canonical x f hf

lemma Sim.hatGetMap_eq (hv : Canonical mmu vaddr) : s.hatGetMap mmu vaddr = m.getMap vaddr := by
  rw [h.inv.hatGetMap_eq, h.agree vaddr hv, FlatMap.getMap]
  cases m (vaddr / 2 ^ 12) <;> rfl

/-- What the PMM gives is fresh for the tree. -/
lemma Sim.freshPages {pages : ℕ → ℕ} {paddr i : ℕ}
    (hpages : ∀ l, 0 < l → l < i + 1 → Covered mmu (pages l) ∧ pages l ∉ s.map.tables ∧
      ¬ IsFrame mmu s (pages l) ∧ paddr ≠ pages l)
    (hdistinct : ∀ l l', 0 < l → l < l' → l' < i + 1 → pages l ≠ pages l') :
    FreshPages mmu s r pages i := by
  refine ⟨fun l hl hli => ?_, fun l l' hl hll' hl' => hdistinct l l' hl hll' (by omega)⟩
  obtain ⟨hcov, htable, hframe, -⟩ := hpages l hl (by omega)
  refine ⟨hcov, htable, fun x hx => hframe ?_⟩
  -- the start of the page that is mapped to it is translated to it
  obtain ⟨v, hv, rfl⟩ := h.canonical x _ hx
  have hstart : Canonical mmu (v - v % 2 ^ 12) ∧ (v - v % 2 ^ 12) / 2 ^ 12 = v / 2 ^ 12 ∧
      (v - v % 2 ^ 12) % 2 ^ 12 = 0 := by
    cases hla : mmu.la57 <;>
      simp only [Canonical, Mmu.pagingLevels, hla] at hv ⊢ <;> norm_num at hv ⊢ <;> omega
  obtain ⟨hcan, hdiv, hmod⟩ := hstart
  refine ⟨_, 0, hcan, ?_⟩
  rw [h.inv.hatGetMap_eq, (pageKey_inj hcan hv).mpr hdiv, hx, hmod]
  rfl

/-- **Every operation of the machine is the operation of the flat map.** -/
lemma Sim.step (replies : List Reply) (op : HatOp) (hop : Ok mmu (s, replies) op) :
    ∃ s' r', hatStep mmu kernel (s, replies) op = some (s', replies ++ [(m.step op).1]) ∧
      Sim mmu s' (m.step op).2 r' := by
  cases op with
  | doMap vaddr paddr flags flush pages =>
    obtain ⟨hv, hcov, hout, hpages, hdistinct⟩ := hop
    have hr := h.agree vaddr hv
    cases hm : m (vaddr / 2 ^ 12) with
    | some f =>
      rw [hm] at hr
      refine ⟨s, r, ?_, ?_⟩
      · simp only [hatStep, Machine.step, h.inv.hatDoMap_mapped hr, FlatMap.step, hm,
          map_some]
      · simpa only [FlatMap.step, hm] using h
    | none =>
      rw [hm] at hr
      obtain ⟨i, p, hw⟩ := walkTables_spec h.inv.tree vaddr
      simp only [hw.level] at hpages hdistinct
      obtain ⟨s', r', hrun, hinv, hr'⟩ := h.inv.hatDoMap_unmapped hr kernel flags flush hcov hout
        (by rw [hw.level]; exact h.freshPages hpages hdistinct)
        (by rw [hw.level]; exact fun l hl hli => (hpages l hl hli).2.2.2)
      refine ⟨s', r', ?_, ?_⟩
      · simp only [hatStep, Machine.step, hrun, FlatMap.step, hm, map_some]
      · simp only [FlatMap.step, hm]
        exact h.set hv hinv (some paddr) hr'
  | doUnmap vaddr flush =>
    have hr := h.agree vaddr hop
    cases hm : m (vaddr / 2 ^ 12) with
    | some f =>
      rw [hm] at hr
      obtain ⟨s', hrun, hinv⟩ := h.inv.hatDoUnmap_mapped hr kernel flush
      refine ⟨s', r.set 0 (pageKey mmu vaddr) none, ?_, ?_⟩
      · simp only [hatStep, Machine.step, hrun, FlatMap.step, hm, map_some]
      · simp only [FlatMap.step, hm]
        exact h.set hop hinv none fun x => by simp [Radix.set]
    | none =>
      rw [hm] at hr
      refine ⟨s, r, ?_, ?_⟩
      · simp only [hatStep, Machine.step, h.inv.hatDoUnmap_unmapped hr, FlatMap.step, hm,
          map_some]
      · simpa only [FlatMap.step, hm] using h
  | getMap vaddr =>
    refine ⟨s, r, ?_, h⟩
    simp only [hatStep, Machine.step, h.hatGetMap_eq hop, FlatMap.step, map_some]
  | store vaddr value =>
    have hget := h.hatGetMap_eq hop.1
    rw [FlatMap.getMap] at hget
    cases hm : m (vaddr / 2 ^ 12) with
    | some f =>
      refine ⟨{ s with mem := Function.update s.mem (f + vaddr % 2 ^ 12) (value % wordSize) }, r,
        ?_, ?_, h.agree, h.canonical⟩
      · simp only [hatStep, Machine.step, hget, FlatMap.step, hm, map_some,
          isSome_some]
      · have hlt : vaddr % 2 ^ 12 < 0x1000 := Nat.mod_lt _ (by decide)
        have hr := h.agree vaddr hop.1
        rw [hm] at hr
        exact h.inv.store hr ⟨Nat.le_add_right _ _, Nat.add_lt_add_left hlt f⟩
    | none =>
      rw [hm, map_none] at hget
      refine ⟨s, r, ?_, h⟩
      simp only [hatStep, Machine.step, hget, FlatMap.step, hm, map_some,
        isSome_none]

/-- **Every history of the machine is the history of the flat map.** -/
lemma Sim.history (replies : List Reply) (ops : List HatOp)
    (hops : Allowed (hatStep mmu kernel) (Ok mmu) (s, replies) ops) :
    ∃ s' r', run (hatStep mmu kernel) (s, replies) ops =
      some (s', replies ++ (m.history ops).2) ∧ Sim mmu s' (m.history ops).1 r' := by
  induction ops generalizing s m r replies with
  | nil => exact ⟨s, r, by rw [run_nil, FlatMap.history, append_nil], h⟩
  | cons op ops ih =>
    obtain ⟨hop, hops⟩ := hops
    obtain ⟨s₁, r₁, hstep, h₁⟩ := h.step replies op hop
    obtain ⟨s', r', hrun, h'⟩ := ih h₁ _ (hops _ hstep)
    refine ⟨s', r', ?_, h'⟩
    rw [run_cons hstep, hrun, append_assoc]
    rfl

end

/-- **The page tables behave like a flat map.**  From a zeroed root table, every history of
`HatDoMap`, `HatDoUnmap` and `HatGetMap` returns what the flat map returns; afterwards every
address is translated as by the flat map, and mapping a page that is mapped changes nothing. -/
theorem hat_refines_flatMap (mmu : Mmu) (kernel : Bool) (mem : ℕ → ℕ) (root : ℕ)
    (hroot : root % 2 ^ 12 = 0) (hzero : ∀ k < 512, mem (entryAddress root k) = 0)
    (ops : List HatOp)
    (hops : Allowed (hatStep mmu kernel) (Ok mmu) (startMachine mem root, []) ops) :
    ∃ s m replies, FlatMap.history .empty ops = (m, replies) ∧
      run (hatStep mmu kernel) (startMachine mem root, []) ops = some (s, replies) ∧
      (∀ vaddr, Canonical mmu vaddr → s.hatGetMap mmu vaddr = m.getMap vaddr) ∧
      ∀ vaddr paddr flags flush pages, Canonical mmu vaddr → m (vaddr / 2 ^ 12) ≠ none →
        s.hatDoMap mmu kernel vaddr paddr 0 flags flush pages = some (false, s) := by
  obtain ⟨s, r, hrun, h⟩ := (sim_start hroot hzero).history [] ops hops
  refine ⟨s, _, _, rfl, hrun, fun vaddr hv => h.hatGetMap_eq hv, ?_⟩
  intro vaddr paddr flags flush pages hv hm
  obtain ⟨f, hf⟩ := ne_none_iff_exists'.mp hm
  have hr := h.agree vaddr hv
  rw [hf] at hr
  exact h.inv.hatDoMap_mapped hr kernel paddr flags flush pages

/-- A CPU with four levels and all features. -/
def fourLevels : Mmu := ⟨false, true, true, true⟩

/-- The highest page of the lower half is mapped, looked up, unmapped and looked up again; all
tables below the root are missing at first. -/
def highestPage : List HatOp :=
  [.doMap 0x7FFFFFFFF000 0x9000 { write := true } false fun l => 0x1000 * (l + 1),
    .getMap 0x7FFFFFFFF123, .doUnmap 0x7FFFFFFFF000 true, .getMap 0x7FFFFFFFF123]

theorem hat_refines_flatMap_highestPage :
    ∃ s, run (hatStep fourLevels false) (startMachine (fun _ => 0) 0x1000, []) highestPage =
      some (s, [.mapped true, .address (some (0x9123, 0)), .unmapped (some (0x9000, 0)),
        .address none]) := by
  have hpage : Canonical fourLevels 0x7FFFFFFFF000 := by decide
  have hinside : Canonical fourLevels 0x7FFFFFFFF123 := by decide
  have hstart : Sim fourLevels (startMachine (fun _ => 0) 0x1000) .empty _ :=
    sim_start rfl fun _ _ => rfl
  have hlevel : (walkTables fourLevels (startMachine (fun _ => 0) 0x1000).mem 0x1000
    0x7FFFFFFFF000).level = 4 := by decide
  have hops : Allowed (hatStep fourLevels false) (Ok fourLevels)
      (startMachine (fun _ => 0) 0x1000, []) highestPage := by
    refine ⟨⟨hpage, by decide, by decide, fun l hl hl4 => ?_, fun l l' _ hll' _ => ?_⟩,
      fun _ _ => ⟨hinside, fun _ _ => ⟨hpage, fun _ _ => ⟨hinside, fun _ _ => trivial⟩⟩⟩⟩
    · have hframe : ¬ IsFrame fourLevels (startMachine (fun _ => 0) 0x1000) (0x1000 * (l + 1)) := by
        rintro ⟨vaddr, mode, hv, hget⟩
        rw [hstart.hatGetMap_eq hv] at hget
        cases hget
      replace hl4 : l < 4 := hlevel ▸ hl4
      interval_cases l
      · exact ⟨by decide, by decide, hframe, by decide⟩
      · exact ⟨by decide, by decide, hframe, by decide⟩
      · exact ⟨by decide, by decide, hframe, by decide⟩
    · change 0x1000 * (l + 1) ≠ 0x1000 * (l' + 1)
      omega
  obtain ⟨s, m, replies, hflat, hrun, -⟩ := hat_refines_flatMap fourLevels false (fun _ => 0) 0x1000
    rfl (fun _ _ => rfl) highestPage hops
  have hreplies : replies = [.mapped true, .address (some (0x9123, 0)),
      .unmapped (some (0x9000, 0)), .address none] :=
    (congrArg Prod.snd hflat).symm
  exact ⟨s, hreplies ▸ hrun⟩

end Northport.X86
