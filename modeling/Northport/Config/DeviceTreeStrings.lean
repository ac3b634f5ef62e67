/-
# The strings of a property (`DtProp::ReadString`)

`ReadString` finds a string by counting the terminators before it.  It takes the length of the
property, which is in bytes, for a number of cells, and reads on for three times this length behind
the end of the property.  It is right exactly if there are only zeros.
-/
import Northport.Config.DeviceTreeParse

namespace Northport.Config

open List

/-- A property, with the bytes that follow it in memory. -/
structure DtProp where
  data : List Byte
  after : ℕ → Byte

namespace DtProp

/-- The loop of `ReadString` over the bytes from `i` on. -/
def readLoop (index : ℕ) : ℕ → List Byte → List Byte
  | _, [] => []
  | stringIndex, c :: rest =>
    if c = 0 then readLoop index (stringIndex + 1) rest
    else if stringIndex < index then readLoop index stringIndex rest
    else (c :: rest).take (memfirst (c :: rest) (rest.length + 1))

def readString (p : DtProp) (index : ℕ) : List Byte :=
  let charLength := p.data.length * 4
  readLoop index 0 ((p.data ++ (range charLength).map p.after).take charLength)

/-- The loop of `FindCompatible` over the strings of a property. -/
def compatLoop (p : DtProp) (str : List Byte) : ℕ → ℕ → Option Bool
  | 0, _ => none
  | fuel + 1, ci =>
    let compatStr := p.readString ci
    if compatStr = [] then some false
    else if compatStr = str then some true
    else compatLoop p str fuel (ci + 1)

end DtProp

/-- A string that can be one of several in a property. -/
structure DtString where
  chars : List Byte
  nonempty : chars ≠ []
  noNul : 0 ∉ chars

/-- Strings one after the other, each with its terminator. -/
def encodeStrings (ss : List DtString) : List Byte := ss.flatMap fun s => s.chars ++ [0]

namespace DtProp

variable {index k : ℕ} {s rest : List Byte}

lemma readLoop_skip (h0 : 0 ∉ s) (h : k < index) (rest : List Byte) :
    readLoop index k (s ++ 0 :: rest) = readLoop index (k + 1) rest := by
  induction s with
  | nil => rw [nil_append, readLoop, if_pos rfl]
  | cons c s ih =>
    rw [mem_cons, not_or] at h0
    rw [cons_append, readLoop, if_neg (Ne.symm h0.1), if_pos h, ih h0.2]

lemma readLoop_found (s : DtString) (rest : List Byte) (k : ℕ) :
    readLoop k k (s.chars ++ 0 :: rest) = s.chars := by
  obtain ⟨s, hne, h0⟩ := s
  obtain ⟨c, s, rfl⟩ := exists_cons_of_ne_nil hne
  have hfirst := memfirst_name h0 rest (s ++ 0 :: rest).length.succ_pos
  rw [min_eq_left (by simp)] at hfirst
  have hc : c ≠ 0 := fun hc => h0 (hc ▸ mem_cons_self)
  rw [cons_append, readLoop, if_neg hc, if_neg (lt_irrefl k), ← cons_append, hfirst, take_left]

/-- The string with the index is found, or the loop leaves the property. -/
lemma readLoop_strings (ss : List DtString) (rest : List Byte) (hk : k ≤ index) :
    readLoop index k (encodeStrings ss ++ rest) =
      ((ss.map DtString.chars)[index - k]?).getD (readLoop index (k + ss.length) rest) := by
  induction ss generalizing k with
  | nil => rfl
  | cons s ss ih =>
    rw [encodeStrings, flatMap_cons, append_assoc, append_assoc, singleton_append, map_cons]
    rcases hk.eq_or_lt with rfl | hlt
    · rw [readLoop_found, Nat.sub_self]
      rfl
    · have hsub : index - k = index - (k + 1) + 1 := by omega
      rw [readLoop_skip s.noNul hlt, ← encodeStrings, ih hlt, hsub, getElem?_cons_succ, length_cons,
        Nat.succ_add]
      rfl

lemma readLoop_zeros (h : ∀ x ∈ rest, x = 0) (index k : ℕ) : readLoop index k rest = [] := by
  induction rest generalizing k with
  | nil => rfl
  | cons c rest ih =>
    rw [forall_mem_cons] at h
    rw [readLoop, if_pos h.1, ih h.2]

/-- Behind the strings every character is taken for one more string. -/
lemma zeros_of_readLoop (hk : index ≤ k) (h : readLoop index k rest = []) : ∀ x ∈ rest, x = 0 := by
  induction rest generalizing k with
  | nil => simp
  | cons c rest ih =>
    rw [readLoop] at h
    by_cases hc : c = 0
    · rw [if_pos hc] at h
      exact forall_mem_cons.mpr ⟨hc, ih (Nat.le_succ_of_le hk) h⟩
    · rw [if_neg hc, if_neg (not_lt.mpr hk)] at h
      have hfirst : memfirst (c :: rest) (rest.length + 1) ≠ 0 := by
        rw [memfirst, if_neg (Nat.succ_ne_zero _), take_succ_cons, findIdx_cons,
          decide_eq_false hc]
        exact Nat.succ_ne_zero _
      simp [hfirst] at h

lemma readString_strings (ss : List DtString) (after : ℕ → Byte) (index : ℕ) :
    readString ⟨encodeStrings ss, after⟩ index = ((ss.map DtString.chars)[index]?).getD
      (readLoop index ss.length ((range (3 * (encodeStrings ss).length)).map after)) := by
  have htake : ∀ n, n * 4 - n = 3 * n := fun n => by omega
  rw [readString, take_append, take_of_length_le (by omega), htake, ← map_take, take_range,
    min_eq_left (by omega), readLoop_strings ss _ index.zero_le, Nat.sub_zero, zero_add]

/-- The loop of `FindCompatible`, when the strings are read as they are. -/
lemma compatLoop_eq {p : DtProp} (str : List Byte) (pre ss : List DtString)
    (h : ∀ index, p.readString index = ((pre ++ ss).map DtString.chars)[index]?.getD []) :
    p.compatLoop str (ss.length + 1) pre.length = some (decide (str ∈ ss.map DtString.chars)) := by
  induction ss generalizing pre with
  | nil => simp [compatLoop, h]
  | cons s ss ih =>
    have hrest := ih (pre ++ [s]) (by simpa using h)
    rw [length_append, length_singleton] at hrest
    have hread : p.readString pre.length = s.chars := by simp [h]
    rw [length_cons, compatLoop, hread, if_neg s.nonempty, hrest]
    by_cases hs : s.chars = str
    · simp [hs]
    · simp [hs, Ne.symm hs]

end DtProp

open DtProp

/-- **`ReadString` reads the strings of a property**, and the loop of `FindCompatible` ends after the
last of them, exactly if the property is followed by zeros for three times its length. -/
theorem readString_iff (ss : List DtString) (after : ℕ → Byte) :
    ((∀ index, readString ⟨encodeStrings ss, after⟩ index =
        (ss.map DtString.chars)[index]?.getD []) ∧
      ∀ str, compatLoop ⟨encodeStrings ss, after⟩ str (ss.length + 1) 0 =
        some (decide (str ∈ ss.map DtString.chars))) ↔
    ∀ k < 3 * (encodeStrings ss).length, after k = 0 := by
  have hzeros : (∀ x ∈ (range (3 * (encodeStrings ss).length)).map after, x = 0) ↔
      ∀ k < 3 * (encodeStrings ss).length, after k = 0 := by
    simp
  rw [← hzeros]
  constructor
  · rintro ⟨h, -⟩
    have hlast := h ss.length
    rw [readString_strings, getElem?_eq_none (by simp)] at hlast
    exact zeros_of_readLoop le_rfl hlast
  · intro h
    have hread : ∀ index, readString ⟨encodeStrings ss, after⟩ index =
        (ss.map DtString.chars)[index]?.getD [] := by
      intro index
      rw [readString_strings, readLoop_zeros h]
    exact ⟨hread, fun str => compatLoop_eq str [] ss hread⟩

/-- The property `"a"`, which is filled up to a cell and followed by the end of its node: a second
string is read from the token. -/
theorem readString_endNode :
    readString ⟨[0x61, 0], fun k => if k = 5 then 2 else 0⟩ 0 = [0x61] ∧
    readString ⟨[0x61, 0], fun k => if k = 5 then 2 else 0⟩ 1 = [2] := by
  decide

end Northport.Config
