/-
# URLs (`formats/Url.cpp`)

A span points into memory that may be read beyond its end: `Parse` looks at the character
after the last one, and a search with the limit 0 has no end.  The memory is the list of
bytes from the beginning of the input on, and a span is the pair of the positions where it
starts and stops.  Reading beyond the memory fails.
-/
import Mathlib.Data.List.DropRight
import Northport.Lib.Word

namespace Northport.Syslib

open Lib List Option

structure StringSpan where
  start : ℕ
  stop : ℕ
deriving DecidableEq, Repr

/-- The size, which wraps around when the span stops before it starts. -/
def StringSpan.size (s : StringSpan) : ℕ :=
  if s.start ≤ s.stop then s.stop - s.start else s.stop + wordSize - s.start

/-- `StringSpan {}`. -/
def StringSpan.empty : StringSpan := ⟨0, 0⟩

/-- The characters of a span. -/
def StringSpan.chars (mem : List UInt8) (s : StringSpan) : List UInt8 :=
  (mem.drop s.start).take (s.stop - s.start)

/-- The loop of `memfirst`, at position `i`. -/
def memfirstLoop (target : UInt8) (upperLimit : ℕ) : List UInt8 → ℕ → Option ℕ
  | [], i => if upperLimit ≠ 0 ∧ upperLimit ≤ i then some upperLimit else none
  | b :: rest, i =>
      if upperLimit ≠ 0 ∧ upperLimit ≤ i then some upperLimit
      else if b = target then some i
      else memfirstLoop target upperLimit rest (i + 1)

def memfirst (buff : List UInt8) (target : UInt8) (upperLimit : ℕ) : Option ℕ :=
  memfirstLoop target upperLimit buff 0

structure Url where
  scheme : StringSpan
  user : StringSpan
  host : StringSpan
  port : StringSpan
  path : StringSpan
  query : StringSpan
  fragment : StringSpan
deriving DecidableEq, Repr

namespace Url

section

variable (mem : List UInt8)

/-- The function `LengthUntil` of `Parse`; `size` is that of the input. -/
def lengthUntil (size start : ℕ) (target : UInt8) : Option ℕ :=
  (memfirst (mem.drop start) target (StringSpan.size ⟨start, size⟩)).map fun foundAt =>
    if foundAt = StringSpan.size ⟨start, size⟩ then 0 else foundAt

/-- How far `start` moves for a component: the character after it is skipped, too. -/
def skip (length : ℕ) : ℕ := if length = 0 then 0 else length + 1

/-- `buffer[start] == '/' && buffer[start + 1] == '/'`. -/
def hasAuthority (start : ℕ) : Option Bool :=
  mem[start]?.bind fun b => if b ≠ 47 then some false else mem[start + 1]?.map fun b => b = 47

/-- The user, the host and the port, and the position after them. -/
def parseAuthority (size start : ℕ) :
    Option (StringSpan × StringSpan × StringSpan × ℕ) :=
  (lengthUntil mem size start 64).bind fun user =>
    let start' := start + skip user
    (lengthUntil mem size start' 58).bind fun host =>
      if host = 0 then
        (lengthUntil mem size start' 47).map fun host =>
          (⟨start, start + user⟩, ⟨start', start' + host⟩, .empty, start' + skip host)
      else
        let start'' := start' + skip host
        (lengthUntil mem size start'' 47).map fun port =>
          (⟨start, start + user⟩, ⟨start', start' + host⟩, ⟨start'', start'' + port⟩,
            start'' + skip port)

/-- The path and the query.  `next` is a reference to the path or to the query, and what is
assigned last through it is the rest of the input. -/
def parsePath (size start : ℕ) : Option (StringSpan × StringSpan) :=
  (lengthUntil mem size start 63).bind fun path =>
    (lengthUntil mem size start 35).map fun next =>
      if path = 0 then (⟨start + skip next, size⟩, .empty)
      else (⟨start, start + path⟩, ⟨start + skip next, size⟩)

def parse (inputSize : ℕ) : Option Url :=
  let size := ((mem.take inputSize).rdropWhile (· = 0)).length
  -- an input of NULs only is read before its beginning
  if size = 0 then none
  else
    (lengthUntil mem size 0 58).bind fun scheme =>
      (hasAuthority mem (skip scheme)).bind fun authority =>
        (if authority then parseAuthority mem size (skip scheme + 2)
          else some (.empty, .empty, .empty, skip scheme)).bind fun r =>
          (parsePath mem size r.2.2.2).map fun p =>
            ⟨⟨0, scheme⟩, r.1, r.2.1, r.2.2.1, p.1, p.2, .empty⟩

/-- The loop of `GetNextSeg`. -/
def scanLoop (limit : ℕ) : List UInt8 → ℕ → Option ℕ
  | [], count => if count < limit then none else some count
  | b :: rest, count =>
      if count < limit ∧ b ≠ 47 ∧ b ≠ 0 then scanLoop limit rest (count + 1) else some count

def getNextSeg (path prev : StringSpan) : Option StringSpan :=
  let first := if prev.size = 0 then path.start else prev.stop + 1
  if path.stop ≤ first then some .empty
  else
    mem[first]?.bind fun b =>
      let first := if b = 47 then first + 1 else first
      (scanLoop path.size (mem.drop first) 0).map fun count => ⟨first, first + count⟩

end

/-! ### Plain paths -/

/-- A path with the names of its segments. -/
def joined (names : List (List UInt8)) : List UInt8 := (names.map fun name => 47 :: name).flatten

/-- A name that stands for itself in a URL. -/
def Plain (name : List UInt8) : Prop :=
  name ≠ [] ∧ ∀ b ∈ name, b ≠ 47 ∧ b ≠ 58 ∧ b ≠ 63 ∧ b ≠ 35 ∧ b ≠ 64 ∧ b ≠ 0

instance (name : List UInt8) : Decidable (Plain name) := inferInstanceAs (Decidable (_ ∧ _))

variable {mem : List UInt8} {names : List (List UInt8)} {target : UInt8} {rest : List UInt8}

@[simp] lemma joined_cons (name : List UInt8) (names : List (List UInt8)) :
    joined (name :: names) = 47 :: (name ++ joined names) := by
  simp [joined]

@[simp] lemma joined_append (names names' : List (List UInt8)) :
    joined (names ++ names') = joined names ++ joined names' := by
  simp [joined]

lemma joined_ne_nil (h : names ≠ []) : joined names ≠ [] := by
  obtain ⟨name, names', rfl⟩ := exists_cons_of_ne_nil h
  simp

/-- The only special character of a plain path is the slash. -/
lemma not_mem_joined (hnames : ∀ name ∈ names, Plain name)
    (htarget : target = 58 ∨ target = 63 ∨ target = 35 ∨ target = 0) : target ∉ joined names := by
  intro hmem
  obtain ⟨l, hl, hb⟩ := mem_flatten.mp hmem
  obtain ⟨name, hname, rfl⟩ := mem_map.mp hl
  rcases mem_cons.mp hb with rfl | hb
  · revert htarget
    decide
  · obtain ⟨-, h₁, h₂, h₃, -, h₄⟩ := (hnames name hname).2 target hb
    rcases htarget with h | h | h | h
    · exact h₁ h
    · exact h₂ h
    · exact h₃ h
    · exact h₄ h

variable (rest) in
/-- A search that finds nothing ends at its limit. -/
lemma memfirstLoop_of_not_mem {l : List UInt8} (hmem : target ∉ l) {i : ℕ} (hpos : 0 < i + l.length) :
    memfirstLoop target (i + l.length) (l ++ rest) i = some (i + l.length) := by
  induction l generalizing i with
  | nil =>
    rw [length_nil] at hpos ⊢
    cases rest <;> simp [memfirstLoop] <;> omega
  | cons b l ih =>
    rw [mem_cons, not_or] at hmem
    have hih := ih hmem.2 (i := i + 1) (by omega)
    rw [length_cons, show i + (l.length + 1) = i + 1 + l.length by omega, cons_append,
      memfirstLoop, if_neg (by omega), if_neg (Ne.symm hmem.1), hih]

lemma lengthUntil_of_not_mem (hne : names ≠ []) (hmem : target ∉ joined names) :
    lengthUntil (joined names ++ rest) (joined names).length 0 target = some 0 := by
  have hpos : 0 < (joined names).length := length_pos_iff.mpr (joined_ne_nil hne)
  have hloop := memfirstLoop_of_not_mem rest hmem (i := 0) (by omega)
  rw [zero_add] at hloop
  rw [lengthUntil, drop_zero, memfirst, StringSpan.size, if_pos zero_le, Nat.sub_zero,
    hloop]
  simp

/-- **A plain path is its own path component.** -/
lemma parse_joined (hne : names ≠ []) (hnames : ∀ name ∈ names, Plain name) (rest : List UInt8) :
    ∃ url, parse (joined names ++ 0 :: rest) (joined names).length = some url ∧
      url.path = ⟨0, (joined names).length⟩ := by
  have hjoined := joined_ne_nil hne
  have htrim : ((joined names ++ 0 :: rest).take (joined names).length).rdropWhile (· = 0) =
      joined names := by
    rw [take_left, rdropWhile_eq_self_iff]
    intro hl hzero
    have hmem := getLast_mem hl
    rw [of_decide_eq_true hzero] at hmem
    exact not_mem_joined hnames (by decide) hmem
  have huntil : ∀ target : UInt8, target = 58 ∨ target = 63 ∨ target = 35 ∨ target = 0 →
      lengthUntil (joined names ++ 0 :: rest) (joined names).length 0 target = some 0 :=
    fun target htarget => lengthUntil_of_not_mem hne (not_mem_joined hnames htarget)
  have hauthority : hasAuthority (joined names ++ 0 :: rest) 0 = some false := by
    obtain ⟨name, names', rfl⟩ := exists_cons_of_ne_nil hne
    obtain ⟨hname, hplain⟩ := hnames name mem_cons_self
    obtain ⟨b, name', rfl⟩ := exists_cons_of_ne_nil hname
    have hb := (hplain b mem_cons_self).1
    simp [hasAuthority, hb]
  refine ⟨⟨⟨0, 0⟩, .empty, .empty, .empty, ⟨0, (joined names).length⟩, .empty, .empty⟩, ?_, rfl⟩
  rw [parse]
  rw [htrim, if_neg (fun h => hjoined (length_eq_zero_iff.mp h)), huntil 58 (by decide),
    bind_some, skip, if_pos rfl, hauthority, bind_some, if_neg (by decide),
    bind_some, parsePath]
  rw [huntil 63 (by decide), huntil 35 (by decide)]
  rfl

/-! ### The segments of a plain path -/

lemma scanLoop_plain {name : List UInt8} (hname : ∀ b ∈ name, b ≠ 47 ∧ b ≠ 0) {b : UInt8}
    (hb : b = 47 ∨ b = 0) (rest : List UInt8) {limit count : ℕ} (hlimit : count + name.length ≤ limit) :
    scanLoop limit (name ++ b :: rest) count = some (count + name.length) := by
  induction name generalizing count with
  | nil =>
    rw [nil_append, scanLoop, if_neg]
    · rfl
    · rintro ⟨-, h₁, h₂⟩
      exact hb.elim h₁ h₂
  | cons a name ih =>
    have ha := hname a mem_cons_self
    rw [length_cons] at hlimit ⊢
    rw [cons_append, scanLoop, if_pos ⟨by omega, ha⟩,
      ih (fun b hb => hname b (mem_cons_of_mem _ hb)) (by omega)]
    congr 1
    omega

/-- What follows a name in memory: the slash of the next one, or the NUL. -/
lemma joined_append_nul (names : List (List UInt8)) (rest : List UInt8) :
    ∃ b rest', joined names ++ 0 :: rest = b :: rest' ∧ (b = 47 ∨ b = 0) := by
  cases names with
  | nil => exact ⟨0, rest, rfl, .inr rfl⟩
  | cons name names => exact ⟨47, _, by rw [joined_cons, cons_append], .inl rfl⟩

variable {name : List UInt8} {prev : StringSpan}

/-- **The next segment** of a plain path, after the segments `pre`. -/
lemma getNextSeg_joined (pre post : List (List UInt8)) (hname : Plain name) (rest : List UInt8)
    (hprev : (prev = .empty ∧ pre = []) ∨ prev.size ≠ 0 ∧ prev.stop = (joined pre).length) :
    getNextSeg (joined (pre ++ name :: post) ++ 0 :: rest)
      ⟨0, (joined (pre ++ name :: post)).length⟩ prev =
        some ⟨(joined pre).length + 1, (joined pre).length + 1 + name.length⟩ := by
  have hlen : (joined (pre ++ name :: post)).length =
      (joined pre).length + (1 + name.length + (joined post).length) := by
    simp
    omega
  have hmem : joined (pre ++ name :: post) ++ 0 :: rest =
      joined pre ++ 47 :: (name ++ (joined post ++ 0 :: rest)) := by
    simp
  have hpos : 0 < name.length := length_pos_iff.mpr hname.1
  have hdrop : (joined (pre ++ name :: post) ++ 0 :: rest).drop ((joined pre).length + 1) =
      name ++ (joined post ++ 0 :: rest) := by
    rw [hmem, drop_append, drop_of_length_le (by omega), Nat.add_sub_cancel_left]
    rfl
  have hscan : scanLoop (joined (pre ++ name :: post)).length
      (name ++ (joined post ++ 0 :: rest)) 0 = some name.length := by
    obtain ⟨b, rest', heq, hb⟩ := joined_append_nul post rest
    have hplain : ∀ b ∈ name, b ≠ 47 ∧ b ≠ 0 := fun b hb =>
      ⟨(hname.2 b hb).1, (hname.2 b hb).2.2.2.2.2⟩
    rw [heq, scanLoop_plain hplain hb rest' (by omega), zero_add]
  have hsize : StringSpan.size ⟨0, (joined (pre ++ name :: post)).length⟩ =
      (joined (pre ++ name :: post)).length := by
    rw [StringSpan.size, if_pos zero_le, Nat.sub_zero]
  rw [getNextSeg]
  dsimp only
  rcases hprev with ⟨rfl, rfl⟩ | ⟨hsize', hstop⟩
  · -- the slash at the beginning is skipped
    rw [if_pos (show StringSpan.empty.size = 0 from rfl)]
    rw [nil_append] at hmem hscan hdrop hsize ⊢
    have hfirst : (joined (name :: post) ++ 0 :: rest)[0]? = some 47 := by
      rfl
    rw [hfirst, bind_some, if_pos rfl]
    rw [show (joined []).length + 1 = 0 + 1 from rfl] at hdrop
    rw [hdrop, hsize, hscan]
    simp [joined]
  · rw [if_neg hsize', hstop, if_neg (by omega)]
    obtain ⟨b, name', rfl⟩ := exists_cons_of_ne_nil hname.1
    have hfirst : (joined (pre ++ (b :: name') :: post) ++ 0 :: rest)[(joined pre).length + 1]? =
        some b := by
      rw [← head?_drop, hdrop]
      rfl
    rw [hfirst, bind_some, if_neg (hname.2 b mem_cons_self).1, hdrop, hsize, hscan]
    rfl

/-- After the last segment there is none. -/
lemma getNextSeg_end (hsize : prev.size ≠ 0) (hstop : prev.stop = (joined names).length)
    (mem : List UInt8) : getNextSeg mem ⟨0, (joined names).length⟩ prev = some .empty := by
  rw [getNextSeg, if_neg hsize, if_pos (by rw [hstop]; exact Nat.le_succ _)]

/-- The characters of a segment. -/
lemma chars_joined (pre post : List (List UInt8)) (rest : List UInt8) :
    StringSpan.chars (joined (pre ++ name :: post) ++ 0 :: rest)
      ⟨(joined pre).length + 1, (joined pre).length + 1 + name.length⟩ = name := by
  have hmem : joined (pre ++ name :: post) ++ 0 :: rest =
      (joined pre ++ [47]) ++ (name ++ (joined post ++ 0 :: rest)) := by
    simp
  rw [StringSpan.chars, hmem]
  rw [show (joined pre).length + 1 = (joined pre ++ [47]).length by simp, drop_left,
    Nat.add_sub_cancel_left, take_left]

end Url

end Northport.Syslib
