/-
# The spans that `IngestMemory` gets

`Init` and `ReclaimBootMemory` pass the boot loader's memory map to `IngestMemory` page by page, also
a last page that is empty.  The bounds of the sort are unsigned: of an empty span, `Size() - 1` wraps
around, and the sort leaves the span.  Every other call comes to an end within it.
-/
import Northport.Lib.Slots
import Northport.Loader.Memmap
import Northport.Memory.PmmIngest

namespace Northport.Memory

open Lib Loader List Option

/-- Why `IngestMemory` does not return: it leaves the span, an assertion fires, or it has not come to
its end in the turns that it was given. -/
inductive IngestFault where
  | outside
  | asserted
  | running
deriving DecidableEq, Repr

/-- The body of the loops of the sort; `none` outside of the span. -/
def compareSwap (j : ℕ) (entries : List MemmapEntry) : Option (List MemmapEntry) :=
  match entries[j]?, entries[add64 j 1]? with
  | some a, some b =>
    some (if a.length < b.length then (entries.set j b).set (add64 j 1) a else entries)
  | _, _ => none

/-- `SortMemoryMapBySize` with its unsigned bounds. -/
def sortSpan (entries : List MemmapEntry) : Option (List MemmapEntry) :=
  forUp (fun i => forUp compareSwap 0 (sub64 (sub64 entries.length i) 1)) 0
    (sub64 entries.length 1) entries

variable (hhdmBase : ℕ)

/-- The loop over the quota, which also looks at `entries[0]`. -/
def zoneSpanLoop (contiguousQuota : ℕ) : ℕ → ℕ → ZoneLoop → Except IngestFault ZoneLoop
  | fuel, i, s =>
    if i < contiguousQuota then
      match fuel with
      | 0 => .error .running
      | fuel + 1 =>
        if s.entries = [] then .error .outside
        else
          match addZone hhdmBase (contiguousQuota - i) s with
          | none => .error .asserted
          | some (count, s) => zoneSpanLoop contiguousQuota fuel (i + count) s
    else .ok s

/-- `IngestMemory`, apart by how it ends.  Behind the page info there are only loops over the span and
over the list of the zones. -/
def Pmm.ingestSpan (fuel : ℕ) (s : Pmm) (entries : List MemmapEntry) (contiguousQuota : ℕ) :
    Except IngestFault Pmm :=
  (sortSpan entries).elim (.error .outside) fun sorted =>
    (zoneSpanLoop hhdmBase contiguousQuota fuel 0
      { mem := s.mem, entries := sorted, zones := 0, contigZones := 0, metadata := [] }).bind fun z =>
        let infoStoreSize := sizeofPmInfoSegment * (z.entries.length + z.contigZones + 1) +
          sizeofPageInfo * (pagesOf entries + 1)
        (claimFromSmallest (roundUp infoStoreSize PageSize / PageSize) z.entries).elim
          (.error .asserted) fun _ =>
            (s.ingestMemory hhdmBase fuel entries contiguousQuota).elim (.error .running) .ok

/-- **The call ends and stays in the span.** -/
def IngestSafe (s : Pmm) (entries : List MemmapEntry) (contiguousQuota : ℕ) : Prop :=
  ∃ turns, s.ingestSpan hhdmBase turns entries contiguousQuota ≠ .error .outside ∧
    s.ingestSpan hhdmBase turns entries contiguousQuota ≠ .error .running

/-- The spans that the first `calls` calls of a caller get, with `entriesAccum` entries so far. -/
def ingestCalls (get : ℕ → ℕ → List MemmapEntry) (n : ℕ) : ℕ → ℕ → List (List MemmapEntry)
  | 0, _ => []
  | calls + 1, entriesAccum =>
    let entries := get n entriesAccum
    entries :: if entries.length < n then [] else
      ingestCalls get n calls (entriesAccum + entries.length)

def MemmapProcessSize : ℕ := 32

/-! ### The sort -/

/-- The inner loop stays in the span as long as it has an entry behind it. -/
lemma forUp_compareSwap {k : ℕ} (pre : List MemmapEntry) {l : List MemmapEntry} (hk : k < l.length)
    (hword : (pre ++ l).length < wordSize) :
    forUp compareSwap pre.length k (pre ++ l) = some (pre ++ bubble k l) := by
  induction k generalizing pre l with
  | zero =>
    rw [forUp, bubble]
    simp
  | succ k ih =>
    obtain ⟨a, l, rfl⟩ := exists_cons_of_length_pos (Nat.zero_lt_of_lt hk)
    obtain ⟨b, l, rfl⟩ := exists_cons_of_length_pos (Nat.zero_lt_of_lt (Nat.lt_of_succ_lt_succ hk))
    simp only [length_append, length_cons] at hk hword
    have hnext : add64 pre.length 1 = pre.length + 1 := add64_eq (by omega)
    have hturn : compareSwap pre.length (pre ++ a :: b :: l) =
        some (if a.length < b.length then pre ++ b :: a :: l else pre ++ a :: b :: l) := by
      simp [compareSwap, hnext]
    have hgo : ∀ x y, forUp compareSwap (pre.length + 1) k (pre ++ x :: y :: l) =
        some (pre ++ x :: bubble k (y :: l)) := fun x y => by
      have h := ih (pre ++ [x]) (l := y :: l) (by simp; omega) (by simp; omega)
      simpa using h
    rw [forUp, hturn, bubble]
    split_ifs
    · exact hgo b a
    · exact hgo a b

/-- **The sort of a span that is not empty** stays in it. -/
lemma sortSpan_eq {entries : List MemmapEntry} (hne : entries ≠ [])
    (hword : entries.length < wordSize) : sortSpan entries = some (sortMemoryMapBySize entries) := by
  have hpos := length_pos_iff.mpr hne
  obtain ⟨n, hn⟩ : ∃ n, n = entries.length := ⟨_, rfl⟩
  rw [← hn] at hpos hword
  -- the loop over `i`, with `m` turns to go
  have hloop : ∀ m i (l : List MemmapEntry), l.length = n → i + m < n →
      forUp (fun i => forUp compareSwap 0 (sub64 (sub64 n i) 1)) i m l =
        some ((range' i m).foldl (fun l i => bubble (n - i - 1) l) l) := by
    intro m
    induction m with
    | zero => exact fun _ _ _ _ => rfl
    | succ m ih =>
      intro i l hl hi
      rw [forUp, sub64_eq hword (by omega), sub64_eq (by omega) (by omega),
        show forUp compareSwap 0 (n - i - 1) l = _ from
          forUp_compareSwap [] (by omega) (by simpa [hl] using hword), bind_some]
      exact ih (i + 1) _ ((bubble_perm _ _).length_eq.trans hl) (by omega)
  rw [sortSpan, sortMemoryMapBySize, ← hn, sub64_eq hword hpos, range_eq_range',
    hloop (n - 1) 0 entries hn.symm (by omega)]

/-! ### The loop over the quota -/

variable {hhdmBase}

/-- Every zone takes a page for its header. -/
lemma addZone_pages {wanted count : ℕ} {s s' : ZoneLoop}
    (h : addZone hhdmBase wanted s = some (count, s')) :
    pagesOf s'.entries < pagesOf s.entries ∧ s'.entries ≠ [] := by
  obtain ⟨e, l, metadataAddr, first, l', hentries, hcount, hclaim, rfl⟩ := addZone_cases h
  have hpages := (claim_pages hclaim).1
  have hsort := sortMemoryMapBySize_perm (first :: l')
  have hmeta : 0 < metadataPages count := by
    have hle := (le_roundUp (n := bitmapBytes count + 2 * sizeofPmContigZone)
      (show 0 < PageSize by decide)).1
    have hmod := roundUp_mod (bitmapBytes count + 2 * sizeofPmContigZone) PageSize
    rw [metadataPages]
    simp only [sizeofPmContigZone, PageSize] at *
    omega
  have hdiv : (e.length - count * PageSize) / PageSize ≤ e.length / PageSize :=
    Nat.div_le_div_right (Nat.sub_le _ _)
  refine ⟨?_, fun hnil => ?_⟩
  · rw [pagesOf_perm hsort, hentries]
    simp only [pagesOf, map_cons, sum_cons] at hpages ⊢
    omega
  · rw [show sortMemoryMapBySize (first :: l') = [] from hnil] at hsort
    cases hsort.symm.eq_nil

lemma zoneSpanLoop_ends (hhdmBase contiguousQuota : ℕ) {fuel i : ℕ} {s : ZoneLoop}
    (hne : s.entries ≠ []) (hfuel : pagesOf s.entries < fuel) :
    zoneSpanLoop hhdmBase contiguousQuota fuel i s = .error .asserted ∨
      ∃ z, zoneSpanLoop hhdmBase contiguousQuota fuel i s = .ok z ∧
        zoneLoop hhdmBase contiguousQuota fuel i s = some z := by
  induction fuel generalizing i s with
  | zero => cases hfuel
  | succ fuel ih =>
    rw [zoneSpanLoop.eq_def, zoneLoop.eq_def]
    by_cases hi : i < contiguousQuota
    · simp only [if_pos hi, if_neg hne]
      cases hzone : addZone hhdmBase (contiguousQuota - i) s with
      | none => exact Or.inl rfl
      | some r =>
        obtain ⟨hpages, hne'⟩ := addZone_pages hzone
        exact ih hne' (by omega)
    · simp only [if_neg hi]
      exact Or.inr ⟨s, rfl, rfl⟩

/-! ### The calls -/

/-- **A call is safe exactly if its span is not empty.** -/
lemma ingestSafe_iff {entries : List MemmapEntry} (hr : Usable hhdmBase entries)
    (hword : entries.length < wordSize) (s : Pmm) (contiguousQuota : ℕ) :
    IngestSafe hhdmBase s entries contiguousQuota ↔ entries ≠ [] := by
  constructor
  · rintro ⟨turns, houtside, -⟩ hnil
    rw [hnil] at houtside
    exact houtside rfl
  · intro hne
    have hsort := sortMemoryMapBySize_perm entries
    obtain ⟨turns, hturns⟩ := exists_gt (pagesOf entries)
    refine ⟨turns, ?_⟩
    rw [Pmm.ingestSpan, sortSpan_eq hne hword, elim_some]
    rcases zoneSpanLoop_ends hhdmBase contiguousQuota (i := 0)
      (s := { mem := s.mem, entries := sortMemoryMapBySize entries, zones := 0, contigZones := 0,
              metadata := [] }) (fun hnil => hne (hsort.symm.trans (hnil ▸ .refl _)).eq_nil)
      ((pagesOf_perm hsort).trans_lt hturns) with hassert | ⟨z, hspan, hzones⟩
    · rw [hassert]
      exact ⟨nofun, nofun⟩
    · rw [hspan]
      cases hclaim : claimFromSmallest (roundUp (sizeofPmInfoSegment * (z.entries.length +
        z.contigZones + 1) + sizeofPageInfo * (pagesOf entries + 1)) PageSize / PageSize) z.entries with
      | none =>
        simp only [Except.bind, hclaim]
        exact ⟨nofun, nofun⟩
      | some claimed =>
        obtain ⟨s', v, hs', -⟩ := Pmm.ingest_returns hr hne hzones hclaim
        simp only [Except.bind, hclaim, elim_some, hs']
        exact ⟨nofun, nofun⟩

/-- A page is a part of the map. -/
lemma getMemmapEntries_sublist {τ : Type} [DecidableEq τ] (response : Option (List (BootEntry τ)))
    (size offset : ℕ) (type : τ) :
    (getMemmapEntries response size offset type).Sublist (matching type (response.getD [])) ∧
      (getMemmapEntries response size offset type).length ≤ size := by
  rw [getMemmapEntries_eq]
  refine ⟨(take_sublist _ _).trans ?_, length_take_le _ _⟩
  exact ((drop_sublist _ _).filter _).map _

/-- The memory map of one of the boot loaders. -/
inductive BootMap where
  | limine (response : Option (List (BootEntry LimineMemmapType)))
  | crow (response : Option (List (BootEntry CrowMemmapType)))

/-- What `ReclaimBootMemory`, or else `Init`, calls to get a page of the map. -/
def BootMap.get (reclaim : Bool) : BootMap → ℕ → ℕ → List MemmapEntry
  | .limine response =>
    if reclaim then Limine.getReclaimableMemmap response else Limine.getUsableMemmap response
  | .crow response =>
    if reclaim then Crow.getReclaimableMemmap response else Crow.getUsableMemmap response

/-- The entries of the map that are meant. -/
def BootMap.entries (reclaim : Bool) : BootMap → List MemmapEntry
  | .limine response => matching (if reclaim then .bootloaderReclaimable else .usable) (response.getD [])
  | .crow response => matching (if reclaim then .bootloaderReclaimable else .usable) (response.getD [])

lemma BootMap.get_sublist (map : BootMap) (reclaim : Bool) (size offset : ℕ) :
    (map.get reclaim size offset).Sublist (map.entries reclaim) ∧
      (map.get reclaim size offset).length ≤ size := by
  cases map <;> cases reclaim <;> exact getMemmapEntries_sublist ..

lemma mem_ingestCalls {get : ℕ → ℕ → List MemmapEntry} {n calls entriesAccum : ℕ}
    {entries : List MemmapEntry} (h : entries ∈ ingestCalls get n calls entriesAccum) :
    ∃ offset, entries = get n offset := by
  induction calls generalizing entriesAccum with
  | zero => cases h
  | succ calls ih =>
    rcases mem_cons.mp h with rfl | h
    · exact ⟨entriesAccum, rfl⟩
    · split_ifs at h
      · cases h
      · exact ih h

/-- **Every call of `Init` and of `ReclaimBootMemory`**, with any quota and in any state of the PMM:
it ends and stays in its span exactly if the span is not empty. -/
theorem ingest_calls_safe_iff (map : BootMap) (reclaim : Bool)
    (hr : Usable hhdmBase (map.entries reclaim)) (calls : ℕ) :
    (∀ entries ∈ ingestCalls (map.get reclaim) MemmapProcessSize calls 0, ∀ s contiguousQuota,
      IngestSafe hhdmBase s entries contiguousQuota) ↔
    [] ∉ ingestCalls (map.get reclaim) MemmapProcessSize calls 0 := by
  have hiff : ∀ entries ∈ ingestCalls (map.get reclaim) MemmapProcessSize calls 0,
      ∀ s contiguousQuota, IngestSafe hhdmBase s entries contiguousQuota ↔ entries ≠ [] := by
    intro entries hmem
    obtain ⟨offset, rfl⟩ := mem_ingestCalls hmem
    obtain ⟨hsub, hlen⟩ := map.get_sublist reclaim MemmapProcessSize offset
    exact ingestSafe_iff (hr.sublist hsub) (hlen.trans_lt (by decide))
  constructor
  · exact fun h hmem => (hiff [] hmem { mem := fun _ => 0 } 0).mp (h [] hmem _ 0) rfl
  · exact fun h entries hmem s quota => (hiff entries hmem s quota).mpr fun hnil => h (hnil ▸ hmem)

/-- The usable entries of a map of four. -/
theorem ingest_calls_safe_iff_goodMap :
    Usable 0xffff800000000000 ((BootMap.limine (some goodMap)).entries false) ∧
      ∀ s, IngestSafe 0xffff800000000000 s
        [⟨0x1000, 0x1000⟩, ⟨0x3000, 0x1000⟩, ⟨0x5000, 0x1000⟩] 1 := by
  have hr : Usable 0xffff800000000000 ((BootMap.limine (some goodMap)).entries false) := by
    constructor <;> simp [BootMap.entries, goodMap, matching, PageSize, Span.Disjoint, Span.Contains]
    refine ⟨⟨?_, ?_⟩, ?_⟩ <;> omega
  exact ⟨hr, fun s =>
    (ingest_calls_safe_iff _ false hr 1).mpr (by decide +kernel) _ (by decide +kernel) s 1⟩

/-- **The same map has nothing to reclaim**: the only call of `ReclaimBootMemory` leaves its span, and
so does the second call of `Init` for a map of 32 usable entries. -/
theorem empty_span_unsafe :
    ingestCalls ((BootMap.limine (some goodMap)).get true) MemmapProcessSize 2 0 = [[]] ∧
    (ingestCalls ((BootMap.limine (some ((range 32).map fun i =>
      ⟨0x2000 * (i + 1), 0x1000, .usable⟩))).get false) MemmapProcessSize 3 0).map length =
        [32, 0] ∧ ∀ s contiguousQuota, ¬ IngestSafe 0xffff800000000000 s [] contiguousQuota := by
  refine ⟨by decide +kernel, by decide +kernel, fun s quota h => ?_⟩
  exact (ingestSafe_iff ⟨.nil, nofun, nofun, nofun⟩ (by decide) s quota).mp h rfl

end Northport.Memory
