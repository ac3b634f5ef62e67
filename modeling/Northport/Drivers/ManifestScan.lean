/-
# Searches in spans (`Span.h`, `ElfLoader.cpp`)

`FindGuid`, `Find` and `Contains` compare a pattern with the elements at each index below a bound.
`ScanForDrivers` and `LoadElf` look for the manifests of a module with `FindGuid`.
-/
import Northport.Lib.Word

namespace Northport.Drivers

open Lib List Option

variable {α : Type*} {data pattern : List α} {i n : ℕ}

/-- The comparison of one turn; the first element is compared twice. -/
lemma hit_iff {x : α} (hp : pattern ≠ []) (hx : data[i]? = some x) :
    (pattern.head? = some x ∧ (data.drop i).take pattern.length = pattern) ↔
      pattern <+: data.drop i := by
  rw [prefix_iff_eq_take, eq_comm (a := take _ _), and_iff_right_iff_imp]
  intro h
  rw [h, head?_take, if_neg (length_eq_zero_iff.not.mpr hp), head?_drop, hx]

lemma prefix_drop_le (hp : pattern ≠ []) (h : pattern <+: data.drop i) :
    i + pattern.length ≤ data.length := by
  have hle := h.length_le
  have hpos := length_pos_iff.mpr hp
  rw [length_drop] at hle
  omega

variable [DecidableEq α]

/-- The next `n` turns of a search, from index `i`; `none` if it reads behind the end. -/
def searchLoop (data pattern : List α) : ℕ → ℕ → Option (Option ℕ)
  | 0, _ => some none
  | n + 1, i => data[i]?.bind fun x =>
    if pattern.head? = some x ∧ (data.drop i).take pattern.length = pattern then some (some i)
    else searchLoop data pattern n (i + 1)

def findGuid (data guid : List α) : Option (Option ℕ) :=
  if data = [] then some none else searchLoop data guid (sub64 data.length guid.length) 0

/-- `Span::Find`. -/
def find (data other : List α) : Option (Option ℕ) :=
  if data.length < other.length ∨ other = [] then some none
  else searchLoop data other (data.length - other.length) 0

/-- `Span::Contains`, which also looks at the last positions. -/
def contains (data other : List α) : Option Bool :=
  if data.length < other.length ∨ other = [] then some false
  else (searchLoop data other data.length 0).map isSome

/-- What the searches are for. -/
def firstOccurrence (data pattern : List α) : Option ℕ :=
  (range data.length).find? fun i => pattern <+: data.drop i

structure Finds (data pattern : List α) : Prop where
  findGuid : findGuid data pattern = some (firstOccurrence data pattern)
  find : find data pattern = some (firstOccurrence data pattern)
  contains : contains data pattern = (Drivers.find data pattern).map isSome

lemma searchLoop_eq (hp : pattern ≠ []) (h : i + n ≤ data.length) : searchLoop data pattern n i =
    some ((range' i n).find? fun j => pattern <+: data.drop j) := by
  induction n generalizing i with
  | zero => rfl
  | succ n ih =>
    have hx := getElem?_eq_getElem (show i < data.length by omega)
    rw [searchLoop, hx, bind_some, range'_succ, ih (by omega)]
    simp only [hit_iff hp hx]
    by_cases hhit : pattern <+: data.drop i
    · simp [hhit]
    · simp [hhit]

/-- In data that is too short the search goes on behind the end. -/
lemma searchLoop_behind (hp : pattern ≠ []) (hshort : data.length < pattern.length)
    (hi : i ≤ data.length) (hn : data.length < i + n) : searchLoop data pattern n i = none := by
  induction n generalizing i with
  | zero => omega
  | succ n ih =>
    rcases hi.eq_or_lt with rfl | hlt
    · rw [searchLoop, getElem?_eq_none le_rfl, bind_none]
    · have hx := getElem?_eq_getElem hlt
      rw [searchLoop, hx, bind_some, if_neg, ih (by omega) (by omega)]
      intro hhit
      have hle := prefix_drop_le hp ((hit_iff hp hx).mp hhit)
      omega

lemma searchLoop_sound {j : ℕ} (h : searchLoop data pattern n i = some (some j)) :
    pattern <+: data.drop j := by
  induction n generalizing i with
  | zero => cases h
  | succ n ih =>
    obtain ⟨x, -, h⟩ := bind_eq_some_iff.mp h
    split_ifs at h with hhit
    · cases h
      exact prefix_iff_eq_take.mpr hhit.2.symm
    · exact ih h

lemma firstOccurrence_sound (h : firstOccurrence data pattern = some i) :
    pattern <+: data.drop i :=
  of_decide_eq_true (find?_some h :)

/-- The positions below the bound are all positions but the last one. -/
lemma find?_range_eq_firstOccurrence (hp : pattern ≠ []) :
    ((range (data.length - pattern.length)).find? fun i => pattern <+: data.drop i) =
      firstOccurrence data pattern ↔
    firstOccurrence data pattern ≠ some (data.length - pattern.length) := by
  constructor
  · intro h hlast
    have hmem := mem_of_find?_eq_some (h.trans hlast)
    exact absurd (mem_range.mp hmem) (lt_irrefl _)
  · intro hne
    cases hfirst : firstOccurrence data pattern with
    | none =>
      rw [find?_range_eq_none]
      intro i hi
      exact find?_range_eq_none.mp hfirst i (by omega)
    | some i =>
      obtain ⟨hhit, -, hbefore⟩ := find?_range_eq_some.mp hfirst
      have hle := prefix_drop_le hp (firstOccurrence_sound hfirst)
      have hi : i ≠ data.length - pattern.length := fun h => hne (h ▸ hfirst)
      exact find?_range_eq_some.mpr ⟨hhit, mem_range.mpr (by omega), hbefore⟩

lemma findGuid_short (hp : pattern ≠ []) (hpattern : pattern.length < wordSize) (hne : data ≠ [])
    (hshort : data.length < pattern.length) : findGuid data pattern = none := by
  rw [findGuid, if_neg hne, sub64_of_lt hpattern hshort,
    searchLoop_behind hp hshort (Nat.zero_le _) (by omega)]

lemma findGuid_eq_iff (hp : pattern ≠ []) (hdata : data.length < wordSize)
    (hpattern : pattern.length < wordSize) :
    findGuid data pattern = some (firstOccurrence data pattern) ↔
      (data = [] ∨ pattern.length ≤ data.length) ∧
        firstOccurrence data pattern ≠ some (data.length - pattern.length) := by
  rcases eq_or_ne data [] with rfl | hne
  · exact iff_of_true rfl ⟨.inl rfl, nofun⟩
  · rcases le_or_gt pattern.length data.length with hle | hshort
    · rw [findGuid, if_neg hne, sub64_eq hdata hle, searchLoop_eq hp (by omega), ← range_eq_range',
        some_inj, find?_range_eq_firstOccurrence hp, and_iff_right (.inr hle)]
    · rw [findGuid_short hp hpattern hne hshort]
      exact iff_of_false nofun (by simp [hne, hshort])

/-- **When the searches are right**: the first occurrence must not be at the very end, and data that
is not empty must not be shorter than the pattern. -/
theorem finds_iff (hp : pattern ≠ []) (hdata : data.length < wordSize)
    (hpattern : pattern.length < wordSize) : Finds data pattern ↔
      (data = [] ∨ pattern.length ≤ data.length) ∧
        firstOccurrence data pattern ≠ some (data.length - pattern.length) := by
  constructor
  · intro h
    exact (findGuid_eq_iff hp hdata hpattern).mp h.findGuid
  · intro h
    have hguid := (findGuid_eq_iff hp hdata hpattern).mpr h
    by_cases hguard : data.length < pattern.length ∨ pattern = []
    · -- nothing to find
      obtain rfl : data = [] := h.1.resolve_right (by simpa [hp] using hguard)
      refine ⟨hguid, if_pos hguard, ?_⟩
      rw [find, contains, if_pos hguard, if_pos hguard]
      rfl
    · have hfind : find data pattern = some (firstOccurrence data pattern) := by
        rw [find, if_neg hguard, searchLoop_eq hp (by omega), ← range_eq_range',
          (find?_range_eq_firstOccurrence hp).mpr h.2]
      refine ⟨hguid, hfind, ?_⟩
      rw [contains, if_neg hguard, searchLoop_eq hp (by omega), ← range_eq_range', hfind]
      rfl

theorem finds_middle : Finds [7, 5, 6] [5] :=
  (finds_iff (by decide) (by decide) (by decide)).mpr (by decide)

/-- The pattern is the end of the data: `Contains` sees it, `Find` does not. -/
theorem find_misses_end : ¬ Finds [7, 5] [5] := fun h => absurd h.contains (by decide)

/-! ### Manifests -/

/-- `NP_MODULE_MANIFEST_GUID`. -/
def manifestHdrGuid : List UInt8 := [0x23, 0x1e, 0x1f, 0xeb, 0xcf, 0xf6, 0x4f, 0xfc, 0x97, 0x76, 0x26,
  0x07, 0x42, 0x77, 0x18, 0x96]

/-- `sizeof(npk_driver_manifest)`. -/
def manifestSize : ℕ := 72

/-- The metadata of a module, with what the manifest at an offset says. -/
structure Metadata (Name : Type*) where
  bytes : List UInt8
  friendlyName : ℕ → Name
  /-- The check of the API version. -/
  usable : ℕ → Bool
  lt : bytes.length < wordSize
  /-- Manifests are not cut off. -/
  whole : ∀ i, manifestHdrGuid <+: bytes.drop i → i + manifestSize ≤ bytes.length

namespace Metadata

variable {Name : Type*} (m : Metadata Name)

/-- The offset of the next manifest of `scan`, which starts at `start`. -/
def next (start : ℕ) : Option (Option ℕ) :=
  (findGuid (m.bytes.drop start) manifestHdrGuid).map (·.map (start + ·))

/-- The loop of `ScanForDrivers`: the manifests it registers, if it ends within `fuel` turns. -/
def scanForDrivers : ℕ → ℕ → Option (List ℕ)
  | 0, _ => none
  | fuel + 1, start => (m.next start).bind fun
    | none => some []
    | some i => (scanForDrivers fuel (i + manifestSize)).map
      fun drivers => bif m.usable i then i :: drivers else drivers

variable {m} {i : ℕ}

/-- The next manifest of a scan that starts at one is that one again. -/
lemma next_self (hi : manifestHdrGuid <+: m.bytes.drop i) : m.next i = some (some i) := by
  have hwhole : i + 72 ≤ m.bytes.length := m.whole i hi
  have hlen : (m.bytes.drop i).length = m.bytes.length - i := length_drop
  have hfirst : firstOccurrence (m.bytes.drop i) manifestHdrGuid = some 0 :=
    find?_range_eq_some.mpr ⟨decide_eq_true hi, mem_range.mpr (by omega), nofun⟩
  have hlt := m.lt
  rw [next, (findGuid_eq_iff (by decide) (by omega) (by decide)).mpr]
  · rw [hfirst]
    rfl
  · rw [hfirst, hlen, show manifestHdrGuid.length = 16 from rfl, ne_eq, some_inj]
    omega

lemma next_zero (h : m.bytes = [] ∨ manifestHdrGuid.length ≤ m.bytes.length) :
    m.next 0 = some (firstOccurrence m.bytes manifestHdrGuid) := by
  rw [next, drop_zero, (findGuid_eq_iff (by decide) m.lt (by decide)).mpr ⟨h, fun hend => ?_⟩]
  · simp
  · have hwhole := m.whole _ (firstOccurrence_sound hend)
    simp only [manifestSize, show manifestHdrGuid.length = 16 from rfl] at hwhole
    omega

lemma next_sound {start : ℕ} (h : m.next start = some (some i)) :
    manifestHdrGuid <+: m.bytes.drop i := by
  obtain ⟨r, hguid, hr⟩ := map_eq_some_iff.mp h
  obtain ⟨offset, rfl, rfl⟩ := map_eq_some_iff.mp hr
  rw [← drop_drop]
  rw [findGuid] at hguid
  split_ifs at hguid
  · cases hguid
  · exact searchLoop_sound hguid

lemma scanForDrivers_sound {fuel start : ℕ} {drivers : List ℕ}
    (h : m.scanForDrivers fuel start = some drivers) :
    ∀ i ∈ drivers, manifestHdrGuid <+: m.bytes.drop i := by
  induction fuel generalizing start drivers with
  | zero => cases h
  | succ fuel ih =>
    obtain ⟨_ | i, hnext, h⟩ := bind_eq_some_iff.mp h
    · cases h
      nofun
    · obtain ⟨rest, hrest, rfl⟩ := map_eq_some_iff.mp h
      cases m.usable i
      · exact ih hrest
      · exact forall_mem_cons.mpr ⟨next_sound hnext, ih hrest⟩

variable [DecidableEq Name] (m) (name : Name)

/-- The search of `LoadElf`, which goes on at the manifest it has just looked at. -/
def loadElf : ℕ → ℕ → Option (Option ℕ)
  | 0, _ => none
  | fuel + 1, start => (m.next start).bind fun
    | none => some none
    | some i => if m.friendlyName i = name then some (some i) else loadElf fuel i

structure Loads : Prop where
  found : ∃ fuel r, m.loadElf name fuel 0 = some r ∧
    (∀ i ∈ r, manifestHdrGuid <+: m.bytes.drop i ∧ m.friendlyName i = name) ∧
      (r = none → ∀ i, manifestHdrGuid <+: m.bytes.drop i → m.friendlyName i ≠ name)
  registered {fuel : ℕ} {drivers : List ℕ} : m.scanForDrivers fuel 0 = some drivers →
    ∀ i ∈ drivers, m.friendlyName i = name →
      ∃ fuel j, m.loadElf name fuel 0 = some (some j) ∧ m.friendlyName j = name

variable {m name}

lemma loadElf_stuck (hi : manifestHdrGuid <+: m.bytes.drop i) (hne : m.friendlyName i ≠ name)
    (fuel : ℕ) : m.loadElf name fuel i = none := by
  induction fuel with
  | zero => rfl
  | succ fuel ih =>
    rw [loadElf, next_self hi]
    exact (if_neg hne).trans ih

/-- **When `LoadElf` finds the manifest**: it must be the first one of the module. -/
theorem loads_iff : m.Loads name ↔
    (m.bytes = [] ∨ manifestHdrGuid.length ≤ m.bytes.length) ∧
      ∀ i ∈ firstOccurrence m.bytes manifestHdrGuid, m.friendlyName i = name := by
  constructor
  · rintro ⟨⟨fuel, r, hload, -⟩, -⟩
    cases fuel with
    | zero => cases hload
    | succ fuel =>
      obtain ⟨o, hnext, hload⟩ := bind_eq_some_iff.mp hload
      have hlong : m.bytes = [] ∨ manifestHdrGuid.length ≤ m.bytes.length := by
        by_contra! hshort
        rw [next, drop_zero, findGuid_short (by decide) (by decide) hshort.1 hshort.2] at hnext
        cases hnext
      refine ⟨hlong, fun i hi => ?_⟩
      rw [next_zero hlong, hi] at hnext
      cases hnext
      by_contra hne
      have hstuck := loadElf_stuck (firstOccurrence_sound hi) hne fuel
      exact absurd (((if_neg hne).trans hstuck).symm.trans hload) nofun
  · rintro ⟨hlong, hname⟩
    have hfound : m.loadElf name 1 0 = some (firstOccurrence m.bytes manifestHdrGuid) := by
      rw [loadElf, next_zero hlong]
      cases hfirst : firstOccurrence m.bytes manifestHdrGuid with
      | none => rfl
      | some i => exact if_pos (hname i hfirst)
    have hnone (h : firstOccurrence m.bytes manifestHdrGuid = none) (i : ℕ)
        (hi : manifestHdrGuid <+: m.bytes.drop i) : False := by
      have hwhole : i + 72 ≤ m.bytes.length := m.whole i hi
      exact absurd (decide_eq_true hi) (by simpa using find?_range_eq_none.mp h i (by omega))
    refine ⟨⟨1, _, hfound, fun i hi => ⟨firstOccurrence_sound hi, hname i hi⟩,
      fun h i hi => (hnone h i hi).elim⟩, fun hscan i hi _ => ?_⟩
    obtain ⟨j, hj⟩ := ne_none_iff_exists'.mp fun h => hnone h i (scanForDrivers_sound hscan i hi)
    exact ⟨1, j, hfound.trans (congrArg some hj), hname j hj⟩

def twoManifests : List UInt8 := (replicate 2 (manifestHdrGuid ++ replicate 56 0)).flatten

lemma twoManifests_whole (i : ℕ) (hi : manifestHdrGuid <+: twoManifests.drop i) :
    i + manifestSize ≤ twoManifests.length := by
  have hall : ∀ i < 129, manifestHdrGuid <+: twoManifests.drop i → i + 72 ≤ 144 := by decide +kernel
  have hle : i + 16 ≤ 144 := prefix_drop_le (by decide) hi
  exact hall i (by omega) hi

/-- A module with two drivers, which are named by their offsets. -/
def twoDrivers : Metadata ℕ where
  bytes := twoManifests
  friendlyName := id
  usable _ := true
  lt := by decide +kernel
  whole := twoManifests_whole

/-- The second driver is registered, but the search for it does not end. -/
theorem second_driver_lost : ¬ twoDrivers.Loads 72 := by
  rintro ⟨⟨fuel, r, hload, -⟩, -⟩
  rw [loadElf_stuck (i := 0) (by decide) (by decide)] at hload
  cases hload

end Metadata

end Northport.Drivers
