/-
# The memory map of the boot loader

`GetUsableMemmap` and `GetReclaimableMemmap` hand out the matching entries of the boot loader's
memory map page by page.  The callers count the entries that they have got and pass this count as
the offset of the next page; the backends compare the offset with the index in the whole map.
The two agree only as long as every entry of the map so far matches.
-/
import Northport.Memory.Pmm

namespace Northport.Loader

open Lib Memory List Option

inductive LimineMemmapType where
  | usable
  | reserved
  | acpiReclaimable
  | acpiNvs
  | badMemory
  | bootloaderReclaimable
  | kernelAndModules
  | framebuffer
deriving DecidableEq, Repr

inductive CrowMemmapType where
  | badMemory
  | usable
  | reserved
  | kernel
  | kernelSymbols
  | module
  | ramdisk
  | framebuffer
  | bootloaderReclaimable
  | bootloaderReserved
  | acpiReclaimable
  | acpiNvs
  | efi
deriving DecidableEq, Repr

/-- An entry of the boot loader's map. -/
structure BootEntry (τ : Type) where
  base : ℕ
  length : ℕ
  type : τ
deriving DecidableEq, Repr

section Backends

variable {τ : Type} [DecidableEq τ]

/-- The loop of `GetMemmapEntries` from the entry with index `i` on, with `entryHead` of the
`size` entries of the store filled: what it stores. -/
def getMemmapLoop (size offset : ℕ) (type : τ) : ℕ → ℕ → List (BootEntry τ) → List MemmapEntry
  | _, _, [] => []
  | i, entryHead, entry :: entries =>
    if entry.type ≠ type then getMemmapLoop size offset type (i + 1) entryHead entries
    else if i < offset then getMemmapLoop size offset type (i + 1) entryHead entries
    else if entryHead = size then []
    else ⟨entry.base, entry.length⟩ ::
      getMemmapLoop size offset type (i + 1) (entryHead + 1) entries

/-- `GetMemmapEntries` of both backends; there is no entry if the boot loader gave no map.  The
number that it returns is the length of the result. -/
def getMemmapEntries (response : Option (List (BootEntry τ))) (size offset : ℕ) (type : τ) :
    List MemmapEntry :=
  match response with
  | none => []
  | some entries => getMemmapLoop size offset type 0 0 entries

end Backends

namespace Limine

def getUsableMemmap (response : Option (List (BootEntry LimineMemmapType))) (size offset : ℕ) :
    List MemmapEntry :=
  getMemmapEntries response size offset .usable

def getReclaimableMemmap (response : Option (List (BootEntry LimineMemmapType)))
    (size offset : ℕ) : List MemmapEntry :=
  getMemmapEntries response size offset .bootloaderReclaimable

end Limine

namespace Crow

/-- The offset is not used. -/
def getUsableMemmap (response : Option (List (BootEntry CrowMemmapType))) (size _offset : ℕ) :
    List MemmapEntry :=
  getMemmapEntries response size 0 .usable

def getReclaimableMemmap (response : Option (List (BootEntry CrowMemmapType)))
    (size offset : ℕ) : List MemmapEntry :=
  getMemmapEntries response size offset .bootloaderReclaimable

end Crow

/-- The loop of the callers, with a store of `n` entries and `entriesAccum` entries so far: all
the entries that it gets, if it ends within `fuel` further calls. -/
def collect (get : ℕ → ℕ → List MemmapEntry) (n : ℕ) : ℕ → ℕ → Option (List MemmapEntry)
  | fuel, entriesAccum =>
    let page := get n entriesAccum
    if page.length < n then some page
    else
      match fuel with
      | 0 => none
      | fuel + 1 => (collect get n fuel (entriesAccum + page.length)).map (page ++ ·)

variable {τ : Type} [DecidableEq τ]

/-- The entries that the callers are to get. -/
def matching (type : τ) (entries : List (BootEntry τ)) : List MemmapEntry :=
  (entries.filter fun e => e.type = type).map fun e => ⟨e.base, e.length⟩

/-- The loop ends and yields each matching entry once, in the order of the map. -/
def YieldsAll (get : ℕ → ℕ → List MemmapEntry) (n : ℕ) (type : τ)
    (response : Option (List (BootEntry τ))) : Prop :=
  ∃ fuel, collect get n fuel 0 = some (matching type (response.getD []))

/-- As many entries at the start of the map as there are in full pages all match. -/
def FullPagesMatch (n : ℕ) (type : τ) (response : Option (List (BootEntry τ))) : Prop :=
  ∀ e ∈ (response.getD []).take (n * ((matching type (response.getD [])).length / n)), e.type = type

instance (n : ℕ) (type : τ) (response : Option (List (BootEntry τ))) :
    Decidable (FullPagesMatch n type response) := by
  unfold FullPagesMatch
  infer_instance

/-! ### One page -/

variable {type : τ} {entries : List (BootEntry τ)} {n : ℕ} {fuel offset : ℕ}
  {get : ℕ → ℕ → List MemmapEntry}

lemma matching_append (l l' : List (BootEntry τ)) :
    matching type (l ++ l') = matching type l ++ matching type l' := by
  simp [matching]

lemma matching_cons (e : BootEntry τ) (l : List (BootEntry τ)) : matching type (e :: l) =
    if e.type = type then ⟨e.base, e.length⟩ :: matching type l else matching type l := by
  simp only [matching, filter_cons, decide_eq_true_eq]
  split_ifs <;> rfl

lemma getMemmapLoop_eq (size offset i entryHead : ℕ) (entries : List (BootEntry τ))
    (h : entryHead ≤ size) : getMemmapLoop size offset type i entryHead entries =
      (matching type (entries.drop (offset - i))).take (size - entryHead) := by
  induction entries generalizing i entryHead with
  | nil => simp [getMemmapLoop, matching]
  | cons e l ih =>
    rw [getMemmapLoop]
    by_cases hskip : i < offset
    · -- the entry is left out, whatever its type is
      obtain ⟨k, hk⟩ : ∃ k, offset - i = k + 1 := ⟨offset - (i + 1), by omega⟩
      have hnext : offset - (i + 1) = k := by omega
      simp only [if_pos hskip, ite_self, ih (i + 1) entryHead h, hk, hnext, drop_succ_cons]
    · have hdrop : offset - i = 0 := by omega
      have hnext : offset - (i + 1) = 0 := by omega
      rw [hdrop, drop_zero, matching_cons]
      by_cases htype : e.type = type
      · rw [if_neg (not_not_intro htype), if_neg hskip, if_pos htype]
        by_cases hfull : entryHead = size
        · rw [if_pos hfull, hfull, Nat.sub_self, take_zero]
        · obtain ⟨k, hk⟩ : ∃ k, size - entryHead = k + 1 := ⟨size - (entryHead + 1), by omega⟩
          have hrest : size - (entryHead + 1) = k := by omega
          rw [if_neg hfull, ih (i + 1) (entryHead + 1) (by omega), hnext, drop_zero, hk, hrest,
            take_succ_cons]
      · rw [if_pos htype, if_neg htype, ih (i + 1) entryHead h, hnext, drop_zero]

/-- A page has the matching entries from the index `offset` on. -/
lemma getMemmapEntries_eq (response : Option (List (BootEntry τ))) (size offset : ℕ) (type : τ) :
    getMemmapEntries response size offset type =
      (matching type ((response.getD []).drop offset)).take size := by
  cases response with
  | none => simp [getMemmapEntries, matching]
  | some entries => exact getMemmapLoop_eq size offset 0 0 entries zero_le

/-! ### All pages -/

/-- The pages from the index `offset` on, as the loop of the callers puts them together. -/
def pages (n : ℕ) (type : τ) (entries : List (BootEntry τ)) (fuel offset : ℕ) :
    Option (List MemmapEntry) :=
  collect (fun size offset => (matching type (entries.drop offset)).take size) n fuel offset

lemma pages_last (h : (matching type (entries.drop offset)).length < n) :
    pages n type entries fuel offset = some (matching type (entries.drop offset)) := by
  rw [pages, collect.eq_def]
  simp only [take_of_length_le h.le, if_pos h]

lemma pages_zero (h : n ≤ (matching type (entries.drop offset)).length) :
    pages n type entries 0 offset = none := by
  rw [pages, collect.eq_def]
  simp only [length_take, Nat.min_eq_left h, lt_irrefl, if_false]

lemma pages_full (h : n ≤ (matching type (entries.drop offset)).length) :
    pages n type entries (fuel + 1) offset = (pages n type entries fuel (offset + n)).map
      ((matching type (entries.drop offset)).take n ++ ·) := by
  rw [pages, collect.eq_def]
  simp only [length_take, Nat.min_eq_left h, lt_irrefl, if_false]
  rfl

/-- The matching entries before and behind an index. -/
lemma matching_split (type : τ) (entries : List (BootEntry τ)) (n offset : ℕ) :
    matching type (entries.drop offset) =
      matching type ((entries.drop offset).take n) ++ matching type (entries.drop (offset + n)) := by
  rw [← matching_append, ← drop_drop, take_append_drop]

lemma matching_length_le (type : τ) (l : List (BootEntry τ)) :
    (matching type l).length ≤ l.length := by
  rw [matching, length_map]
  exact length_filter_le _ _

/-- All entries match if there are as many matching entries as entries. -/
lemma all_match_iff (l : List (BootEntry τ)) :
    (matching type l).length = l.length ↔ ∀ e ∈ l, e.type = type := by
  rw [matching, length_map]
  simp

/-- The loop yields at least as many entries as there are: a page that begins too early brings
entries twice. -/
lemma le_length_of_pages {r : List MemmapEntry} (h : pages n type entries fuel offset = some r) :
    (matching type (entries.drop offset)).length ≤ r.length := by
  induction fuel generalizing offset r with
  | zero =>
    by_cases hlast : (matching type (entries.drop offset)).length < n
    · rw [pages_last hlast] at h
      exact (congrArg length (some.inj h)).le
    · rw [pages_zero (by omega)] at h
      cases h
  | succ fuel ih =>
    by_cases hlast : (matching type (entries.drop offset)).length < n
    · rw [pages_last hlast] at h
      exact (congrArg length (some.inj h)).le
    · rw [pages_full (by omega)] at h
      obtain ⟨r', hr', rfl⟩ := map_eq_some_iff.mp h
      have hrest := ih hr'
      have hsplit := congrArg length (matching_split type entries n offset)
      have hfirst := matching_length_le type ((entries.drop offset).take n)
      rw [length_append] at hsplit ⊢
      rw [length_take] at hfirst ⊢
      omega

/-- The first `n` entries behind an index all match: then they are the first page. -/
lemma take_matching (h : (matching type ((entries.drop offset).take n)).length = n) :
    (matching type (entries.drop offset)).take n =
      matching type ((entries.drop offset).take n) := by
  rw [matching_split type entries n offset, take_append_of_le_length h.ge,
    take_of_length_le h.le]

/-- **The pages are right exactly if the entries of all full pages match.** -/
lemma pages_eq_iff (hn : 0 < n) (type : τ) (entries : List (BootEntry τ)) (offset : ℕ) :
    (∃ fuel, pages n type entries fuel offset = some (matching type (entries.drop offset))) ↔
      ∀ e ∈ (entries.drop offset).take (n * ((matching type (entries.drop offset)).length / n)),
        e.type = type := by
  induction hk : entries.length - offset using Nat.strong_induction_on generalizing offset with
  | _ k ih =>
    by_cases hlast : (matching type (entries.drop offset)).length < n
    · refine iff_of_true ⟨0, pages_last hlast⟩ ?_
      rw [Nat.div_eq_of_lt hlast, mul_zero]
      exact nofun
    · rw [Nat.not_lt] at hlast
      have hlength := matching_length_le type (entries.drop offset)
      rw [length_drop] at hlength
      have hih := ih (entries.length - (offset + n)) (by omega) (offset + n) rfl
      have hsplit := matching_split type entries n offset
      have hlengths := congrArg length hsplit
      rw [length_append] at hlengths
      have hfirst := matching_length_le type ((entries.drop offset).take n)
      have htake : ((entries.drop offset).take n).length = n := by
        rw [length_take, length_drop]
        omega
      -- a full page and the pages behind it
      have hcond : (∀ e ∈ (entries.drop offset).take
            (n * ((matching type (entries.drop offset)).length / n)), e.type = type) ↔
          (matching type ((entries.drop offset).take n)).length = n ∧
            ∀ e ∈ (entries.drop (offset + n)).take
              (n * ((matching type (entries.drop (offset + n))).length / n)), e.type = type := by
        rw [Nat.div_eq_sub_div hn hlast, Nat.mul_succ, add_comm, take_add,
          forall_mem_append, ← all_match_iff, htake, drop_drop]
        refine and_congr_right fun hall => ?_
        rw [show (matching type (entries.drop offset)).length - n =
          (matching type (entries.drop (offset + n))).length by omega]
      rw [hcond, ← hih]
      constructor
      · rintro ⟨fuel, hfuel⟩
        cases fuel with
        | zero =>
          rw [pages_zero hlast] at hfuel
          cases hfuel
        | succ fuel =>
          rw [pages_full hlast] at hfuel
          obtain ⟨r, hr, heq⟩ := map_eq_some_iff.mp hfuel
          have hr' := le_length_of_pages hr
          have hlen := congrArg length heq
          rw [length_append, length_take] at hlen
          have hall : (matching type ((entries.drop offset).take n)).length = n := by omega
          refine ⟨hall, fuel, ?_⟩
          rw [take_matching hall, hsplit] at heq
          rw [hr, append_cancel_left heq]
      · rintro ⟨hall, fuel, hfuel⟩
        refine ⟨fuel + 1, ?_⟩
        rw [pages_full hlast, hfuel, map_some, take_matching hall, ← hsplit]

/-! ### The backends -/

/-- A backend that counts its offset in entries of the whole map. -/
lemma yieldsAll_iff (hn : 0 < n) (type : τ) (response : Option (List (BootEntry τ)))
    (hget : ∀ size offset, get size offset = getMemmapEntries response size offset type) :
    YieldsAll get n type response ↔ FullPagesMatch n type response := by
  have hpages : get = fun size offset =>
      (matching type ((response.getD []).drop offset)).take size := by
    funext size offset
    rw [hget, getMemmapEntries_eq]
  have h := pages_eq_iff hn type (response.getD []) 0
  rw [drop_zero] at h
  rw [FullPagesMatch, ← h, hpages]
  rfl

/-- The loop does not end while all pages are full. -/
lemma collect_eq_none (h : ∀ offset, n ≤ (get n offset).length) (fuel offset : ℕ) :
    collect get n fuel offset = none := by
  have hfull : ∀ offset, ¬ (get n offset).length < n := fun offset => Nat.not_lt.mpr (h offset)
  induction fuel generalizing offset with
  | zero =>
    exact if_neg (hfull offset)
  | succ fuel ih =>
    rw [collect.eq_def]
    simp only [ih, map_none]
    exact if_neg (hfull offset)

/-- A backend that ignores the offset: the first page is returned again and again. -/
lemma yieldsAll_iff_of_const (type : τ) (response : Option (List (BootEntry τ)))
    (hget : ∀ size offset, get size offset = getMemmapEntries response size 0 type) :
    YieldsAll get n type response ↔ (matching type (response.getD [])).length < n := by
  have hpage : ∀ offset, get n offset = (matching type (response.getD [])).take n := by
    intro offset
    rw [hget, getMemmapEntries_eq, drop_zero]
  constructor
  · rintro ⟨fuel, hfuel⟩
    by_contra hfull
    rw [collect_eq_none fun offset => ?_] at hfuel
    · cases hfuel
    · rw [hpage, length_take]
      omega
  · intro hlast
    refine ⟨0, ?_⟩
    rw [collect.eq_def]
    simp only [hpage, take_of_length_le hlast.le, if_pos hlast]

/-- **The documented loop over the memory map.**  It yields each matching entry once exactly if the
entries at the start of the map that make up the full pages all match; with Crow's
`GetUsableMemmap` exactly if there is less than one page. -/
theorem memmap_yieldsAll_iff (hn : 1 ≤ n) (limine : Option (List (BootEntry LimineMemmapType)))
    (crow : Option (List (BootEntry CrowMemmapType))) :
    (YieldsAll (Limine.getUsableMemmap limine) n .usable limine ↔
      FullPagesMatch n .usable limine) ∧
    (YieldsAll (Limine.getReclaimableMemmap limine) n .bootloaderReclaimable limine ↔
      FullPagesMatch n .bootloaderReclaimable limine) ∧
    (YieldsAll (Crow.getUsableMemmap crow) n .usable crow ↔
      (matching .usable (crow.getD [])).length < n) ∧
    (YieldsAll (Crow.getReclaimableMemmap crow) n .bootloaderReclaimable crow ↔
      FullPagesMatch n .bootloaderReclaimable crow) :=
  ⟨yieldsAll_iff hn _ _ fun _ _ => rfl, yieldsAll_iff hn _ _ fun _ _ => rfl,
    yieldsAll_iff_of_const _ _ fun _ _ => rfl, yieldsAll_iff hn _ _ fun _ _ => rfl⟩

/-- A map of three usable entries and one that is not, behind them. -/
def goodMap : List (BootEntry LimineMemmapType) :=
  [⟨0x1000, 0x1000, .usable⟩, ⟨0x3000, 0x1000, .usable⟩, ⟨0x5000, 0x1000, .usable⟩,
    ⟨0x7000, 0x1000, .reserved⟩]

theorem memmap_yieldsAll_iff_goodMap : YieldsAll (Limine.getUsableMemmap (some goodMap)) 2 .usable
    (some goodMap) :=
  (memmap_yieldsAll_iff (by decide) (some goodMap) none).1.mpr (by decide)

/-- The same map with the reserved entry in front: the loop with a store of two entries gets the
second usable entry twice.  With Crow the loop over two usable entries does not end. -/
theorem memmap_yields_twice :
    collect (Limine.getUsableMemmap (some (goodMap.reverse))) 2 2 0 =
      some [⟨0x5000, 0x1000⟩, ⟨0x3000, 0x1000⟩, ⟨0x3000, 0x1000⟩, ⟨0x1000, 0x1000⟩] ∧
    ∀ fuel, collect (Crow.getUsableMemmap (some [⟨0x1000, 0x1000, .usable⟩,
      ⟨0x3000, 0x1000, .usable⟩])) 2 fuel 0 = none :=
  ⟨by decide, fun fuel => collect_eq_none (fun _ => le_rfl) fuel 0⟩

end Northport.Loader
