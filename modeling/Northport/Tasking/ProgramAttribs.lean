/-
# Attributes of processes and threads (`Threads.cpp`)

The attributes of a program are described by a table of headers that stands at the front of one
buffer; the buffer is an attribute itself.  `SetAttrib` compares the size that the buffer
should have with the size it has: if they differ it moves the table to a new buffer, and it
has no code for moving the data of attributes.  Whether an attribute exists is decided by its
length.
-/
import Northport.Lib.Run
import Northport.Lib.Word

namespace Northport.Tasking

open Lib List Function

inductive ProgramAttribType where
  | attribBuffer
  | name
  | driverShadow
deriving DecidableEq, Repr

instance : Fintype ProgramAttribType :=
  ⟨{.attribBuffer, .name, .driverShadow}, fun t => by cases t <;> decide⟩

/-- `sl::Span<uint8_t>` -/
structure ByteSpan where
  data : ℕ
  size : ℕ
deriving DecidableEq, Repr

namespace ByteSpan

/-- `Span()` -/
def none : ByteSpan := ⟨0, 0⟩

/-- `Empty()` -/
def isEmpty (s : ByteSpan) : Bool := s.size = 0

end ByteSpan

structure ProgramAttribHeader where
  type : ProgramAttribType
  length : ℕ
  data : ℕ
deriving DecidableEq, Repr

/-- `sizeof(ProgramAttribHeader)` -/
def headerBytes : ℕ := 16

/-- The number of values of an `unsigned`, the type of the field `length`. -/
def unsignedSize : ℕ := 2 ^ 32

abbrev HeaderTable := List ProgramAttribHeader

namespace HeaderTable

def header? (headers : HeaderTable) (type : ProgramAttribType) : Option ProgramAttribHeader :=
  headers.find? fun h => h.type = type

/-- `GetAttribInternal` -/
def getAttrib (headers : HeaderTable) (type : ProgramAttribType) : ByteSpan :=
  match headers.header? type with
  | some h => ⟨h.data, h.length⟩
  | none => ByteSpan.none

/-- The last loop of `SetAttribInternal`, which stops at the first header of the type. -/
def setHeader (type : ProgramAttribType) (data : ByteSpan) : HeaderTable → HeaderTable
  | [] => []
  | h :: headers =>
    if h.type ≠ type then h :: setHeader type data headers
    else { h with data := data.data, length := data.size % unsignedSize } :: headers

/-- The size that the buffer should have. -/
def newSize (headers : HeaderTable) (type : ProgramAttribType) (data : ByteSpan) : ℕ :=
  let existingBuffer := headers.getAttrib .attribBuffer
  let existingAttrib := headers.getAttrib type
  let size :=
    if existingAttrib.isEmpty then add64 existingBuffer.size (data.size + headerBytes)
    else add64 (sub64 existingBuffer.size existingAttrib.size) data.size
  if existingBuffer.isEmpty then add64 size headerBytes else size

/-- The table in the new buffer.  The `data` of a new header is what the buffer has there. -/
def moved (headers : HeaderTable) (type : ProgramAttribType) (data : ByteSpan)
    (newBuffer leftover : ℕ) : HeaderTable :=
  let length := headers.newSize type data % unsignedSize
  (headers.map fun h =>
    if h.type = .attribBuffer then { h with data := newBuffer, length := length } else h) ++
  (if (headers.getAttrib type).isEmpty then [⟨type, data.size % unsignedSize, leftover⟩] else []) ++
  (if (headers.getAttrib .attribBuffer).isEmpty then [⟨.attribBuffer, length, newBuffer⟩] else [])

/-- Some attribute has data that would have to be moved. -/
def HasData (headers : HeaderTable) : Prop :=
  ∃ h ∈ headers, ¬ (h.length = 0 ∨ h.type = .attribBuffer)

instance (headers : HeaderTable) : Decidable headers.HasData :=
  inferInstanceAs (Decidable (∃ h ∈ headers, _))

/-- `SetAttribInternal`, where `malloc` returns `newBuffer` with `leftover` in it; `none` when an
assertion fires. -/
def setAttrib (headers : HeaderTable) (type : ProgramAttribType) (data : ByteSpan)
    (newBuffer leftover : ℕ) : Option HeaderTable :=
  if headers.newSize type data ≠ (headers.getAttrib .attribBuffer).size then
    -- `ASSERT_(newBuffer != nullptr)` and the `ASSERT_UNREACHABLE()` in place of moving data
    if newBuffer = 0 ∨ headers.HasData then none
    else some (setHeader type data (headers.moved type data newBuffer leftover))
  else some (setHeader type data headers)

/-! ### The table as a map from types to headers -/

variable {headers : HeaderTable} {type t : ProgramAttribType} {data : ByteSpan}
  {h : ProgramAttribHeader} {leftover newBuffer : ℕ}

lemma header?_type (hh : headers.header? type = some h) : h.type = type := by
  simpa using find?_some hh

lemma header?_mem (hh : headers.header? type = some h) : h ∈ headers :=
  mem_of_find?_eq_some hh

lemma header?_eq_none : headers.header? type = none ↔ ∀ h ∈ headers, h.type ≠ type := by
  simp [header?]

lemma getAttrib_of_some (hh : headers.header? type = some h) :
    headers.getAttrib type = ⟨h.data, h.length⟩ := by
  rw [getAttrib, hh]

lemma getAttrib_of_none (hh : headers.header? type = none) :
    headers.getAttrib type = ByteSpan.none := by
  rw [getAttrib, hh]

lemma header?_append (front back : HeaderTable) :
    header? (front ++ back) type = (front.header? type).or (back.header? type) :=
  find?_append

@[simp] lemma types_setHeader : (setHeader type data headers).map (·.type) =
    headers.map (·.type) := by
  induction headers with
  | nil => rfl
  | cons h headers ih =>
    rw [setHeader]
    split_ifs with e
    · rw [map_cons, map_cons, ih]
    · rfl

lemma header?_setHeader_self : header? (setHeader type data headers) type =
    (headers.header? type).map fun h =>
      { h with data := data.data, length := data.size % unsignedSize } := by
  induction headers with
  | nil => rfl
  | cons h headers ih =>
    by_cases e : h.type = type
    · simp [setHeader, header?, e]
    · rw [header?] at ih ⊢
      simpa [setHeader, header?, e] using ih

lemma header?_setHeader_of_ne (ht : t ≠ type) :
    header? (setHeader type data headers) t = headers.header? t := by
  induction headers with
  | nil => rfl
  | cons h headers ih =>
    by_cases e : h.type = type
    · simp [setHeader, header?, e, Ne.symm ht]
    · rw [header?, header?] at ih
      simp only [setHeader, header?, e, ne_eq, not_false_eq_true, if_true, find?_cons, ih]

lemma getAttrib_setHeader_self (hh : headers.header? type = some h) :
    getAttrib (setHeader type data headers) type = ⟨data.data, data.size % unsignedSize⟩ := by
  rw [getAttrib, header?_setHeader_self, hh]
  rfl

lemma getAttrib_setHeader_of_ne (ht : t ≠ type) :
    getAttrib (setHeader type data headers) t = headers.getAttrib t := by
  rw [getAttrib, header?_setHeader_of_ne ht, getAttrib]

lemma types_moved :
    (headers.moved type data newBuffer leftover).map (·.type) = headers.map (·.type) ++
      (if (headers.getAttrib type).isEmpty then [type] else []) ++
      (if (headers.getAttrib .attribBuffer).isEmpty then [.attribBuffer] else []) := by
  have hmap : ∀ length : ℕ, (headers.map fun h => if h.type = .attribBuffer then
      { h with data := newBuffer, length := length } else h).map (·.type) =
      headers.map (·.type) := by
    intro length
    rw [map_map]
    refine map_congr_left fun h _ => ?_
    by_cases e : h.type = .attribBuffer <;> simp [e]
  rw [moved, map_append, map_append, hmap]
  split_ifs <;> rfl

/-- Moving the table changes no other attribute. -/
lemma getAttrib_moved (ht : t ≠ .attribBuffer) (htype : t ≠ type) :
    (headers.moved type data newBuffer leftover).getAttrib t = headers.getAttrib t := by
  have hmap : ∀ length : ℕ, header? (headers.map fun h => if h.type = .attribBuffer then
      { h with data := newBuffer, length := length } else h) t = headers.header? t := by
    intro length
    induction headers with
    | nil => rfl
    | cons h headers ih =>
      rw [header?] at ih
      by_cases e : h.type = .attribBuffer
      · simpa [header?, e, Ne.symm ht] using ih
      · simp only [header?, map_cons, e, if_false, find?_cons, ih]
  have hnew : ∀ (b b' : Prop) [Decidable b] [Decidable b'] (l l' d d' : ℕ),
      header? ((if b then [⟨type, l, d⟩] else []) ++
        (if b' then [⟨.attribBuffer, l', d'⟩] else [])) t = none := by
    intro b b' _ _ l l' d d'
    split_ifs <;> simp [header?, Ne.symm ht, Ne.symm htype]
  rw [getAttrib, moved, append_assoc, header?_append, hmap, hnew, Option.or_none, getAttrib]

lemma exists_header?_moved (data : ByteSpan) (newBuffer leftover : ℕ)
    (hempty : (headers.getAttrib type).isEmpty) :
    ∃ h, (headers.moved type data newBuffer leftover).header? type = some h := by
  rw [← Option.ne_none_iff_exists', ne_eq, header?_eq_none]
  intro hall
  have hmem : type ∈ (headers.moved type data newBuffer leftover).map (·.type) := by
    rw [types_moved, if_pos hempty]
    simp
  obtain ⟨h, hh, htype⟩ := mem_map.mp hmem
  exact hall h hh htype

/-- The lengths of the table fit into their fields. -/
def Bounded (headers : HeaderTable) : Prop := ∀ h ∈ headers, h.length < unsignedSize

lemma Bounded.getAttrib_lt (hb : headers.Bounded) : (headers.getAttrib t).size < unsignedSize := by
  cases hh : headers.header? t with
  | none =>
    rw [getAttrib_of_none hh]
    exact Nat.two_pow_pos 32
  | some h =>
    rw [getAttrib_of_some hh]
    exact hb h (header?_mem hh)

lemma length_mod_lt (n : ℕ) : n % unsignedSize < unsignedSize := Nat.mod_lt _ (Nat.two_pow_pos 32)

lemma Bounded.setHeader (hb : headers.Bounded) : (setHeader type data headers).Bounded := by
  induction headers with
  | nil => exact hb
  | cons h headers ih =>
    obtain ⟨hh, hb⟩ := forall_mem_cons.mp hb
    rw [HeaderTable.setHeader]
    split_ifs with e
    · exact forall_mem_cons.mpr ⟨hh, ih hb⟩
    · exact forall_mem_cons.mpr ⟨length_mod_lt _, hb⟩

lemma Bounded.moved (hb : headers.Bounded) :
    (headers.moved type data newBuffer leftover).Bounded := by
  intro x hx
  rw [HeaderTable.moved, mem_append, mem_append, mem_map] at hx
  rcases hx with (⟨h, hh, rfl⟩ | hx) | hx
  · split_ifs with e
    · exact length_mod_lt _
    · exact hb h hh
  · split_ifs at hx with e
    · rw [mem_singleton.mp hx]
      exact length_mod_lt _
    · cases hx
  · split_ifs at hx with e
    · rw [mem_singleton.mp hx]
      exact length_mod_lt _
    · cases hx

end HeaderTable

open HeaderTable

/-! ### Programs and their attributes -/

/-- The attributes of a process or a thread, with what was last set for each type. -/
structure Attribs where
  headers : HeaderTable
  lastSet : ProgramAttribType → ByteSpan

/-- A call of `SetAttrib`, with what `malloc` answers in it. -/
structure SetCall where
  type : ProgramAttribType
  data : ByteSpan
  newBuffer : ℕ
  leftover : ℕ
  proper : type ≠ .attribBuffer

namespace Attribs

/-- The attributes of a new process or thread. -/
def init : Attribs := ⟨[], fun _ => ByteSpan.none⟩

def setAttrib (a : Attribs) (c : SetCall) : Option Attribs :=
  (a.headers.setAttrib c.type c.data c.newBuffer c.leftover).map fun headers =>
    ⟨headers, update a.lastSet c.type c.data⟩

/-- `GetAttrib` returns what was last set, and no type has two headers. -/
structure Faithful (a : Attribs) : Prop where
  get : ∀ t, t ≠ .attribBuffer → a.headers.getAttrib t = a.lastSet t
  unique : (a.headers.map (·.type)).Nodup

instance (a : Attribs) : Decidable a.Faithful :=
  decidable_of_iff ((∀ t, t ≠ .attribBuffer → a.headers.getAttrib t = a.lastSet t) ∧
    (a.headers.map (·.type)).Nodup) ⟨fun h => ⟨h.1, h.2⟩, fun h => ⟨h.get, h.unique⟩⟩

/-- No assertion fires in the call, and what is set can be read afterwards. -/
def KeepsAttribs (a : Attribs) (c : SetCall) : Prop :=
  ∃ a', a.setAttrib c = some a' ∧ a'.Faithful

instance (a : Attribs) (c : SetCall) : Decidable (a.KeepsAttribs c) :=
  match h : a.setAttrib c with
  | none => .isFalse fun ⟨_, hs, _⟩ => by simp [h] at hs
  | some a' => decidable_of_iff a'.Faithful (by simp [KeepsAttribs, h])

/-- When `SetAttrib` works: the type is new and no attribute has data so far, or the attribute
has data and the buffer needs no other size. -/
def SetOk (a : Attribs) (c : SetCall) : Prop :=
  match a.headers.header? c.type with
  | none =>
    c.data.size < unsignedSize ∧ c.newBuffer ≠ 0 ∧ ¬ a.headers.HasData ∧
      (a.headers = [] ∨ (a.headers.getAttrib .attribBuffer).size ≠ 0)
  | some h =>
    h.length ≠ 0 ∧ (c.data.size = h.length ∧ (a.headers.getAttrib .attribBuffer).size ≠ 0 ∨
      c.data.size + headerBytes = h.length ∧ (a.headers.getAttrib .attribBuffer).size = 0)

/-- What every call of `SetAttrib` that works leaves behind. -/
structure Wf (a : Attribs) : Prop extends Faithful a where
  bounded : a.headers.Bounded
  buffer : a.headers ≠ [] → .attribBuffer ∈ a.headers.map (·.type)

lemma wf_init : init.Wf where
  get _ _ := rfl
  unique := nodup_nil
  bounded := nofun
  buffer h := absurd rfl h

/-! ### One call -/

variable {a a' : Attribs} {c : SetCall}

lemma setAttrib_eq (hs : a.setAttrib c = some a') :
    ∃ headers, (headers = a.headers ∧
        a.headers.newSize c.type c.data = (a.headers.getAttrib .attribBuffer).size ∨
      headers = a.headers.moved c.type c.data c.newBuffer c.leftover ∧
        a.headers.newSize c.type c.data ≠ (a.headers.getAttrib .attribBuffer).size ∧
        c.newBuffer ≠ 0 ∧ ¬ a.headers.HasData) ∧
      a' = ⟨setHeader c.type c.data headers,
        update a.lastSet c.type c.data⟩ := by
  obtain ⟨headers', hset, rfl⟩ := Option.map_eq_some_iff.mp hs
  rw [HeaderTable.setAttrib] at hset
  by_cases hsize : a.headers.newSize c.type c.data = (a.headers.getAttrib .attribBuffer).size
  · rw [if_neg (not_not.mpr hsize)] at hset
    exact ⟨a.headers, Or.inl ⟨rfl, hsize⟩, by rw [Option.some.inj hset]⟩
  · rw [if_pos hsize] at hset
    by_cases hfail : c.newBuffer = 0 ∨ a.headers.HasData
    · rw [if_pos hfail] at hset
      cases hset
    · rw [if_neg hfail] at hset
      rw [not_or] at hfail
      exact ⟨_, Or.inr ⟨rfl, hsize, hfail.1, hfail.2⟩, by rw [Option.some.inj hset]⟩

/-- A successful call leaves lengths that fit and a header for the buffer. -/
lemma Wf.of_setAttrib (ha : a.Wf) (hs : a.setAttrib c = some a') (hf : a'.Faithful) : a'.Wf := by
  obtain ⟨headers, ⟨rfl, -⟩ | ⟨rfl, -⟩, rfl⟩ := setAttrib_eq hs
  · refine ⟨hf, ha.bounded.setHeader, fun hne => ?_⟩
    rw [types_setHeader]
    refine ha.buffer fun h => hne ?_
    rw [h]
    rfl
  · refine ⟨hf, ha.bounded.moved.setHeader, fun _ => ?_⟩
    rw [types_setHeader, types_moved]
    by_cases hnil : a.headers = []
    · rw [hnil]
      simp [getAttrib, header?, ByteSpan.isEmpty, ByteSpan.none]
    · rw [append_assoc]
      exact mem_append_left _ (ha.buffer hnil)

/-- What is set can be read back only if its size fits into the header. -/
lemma Faithful.size_lt (ha : a.Wf) (hs : a.setAttrib c = some a') (hf : a'.Faithful) :
    c.data.size < unsignedSize := by
  have hget := hf.get c.type c.proper
  have hlt := (ha.of_setAttrib hs hf).bounded.getAttrib_lt (t := c.type)
  obtain ⟨headers, -, rfl⟩ := setAttrib_eq hs
  rw [hget] at hlt
  simpa using hlt

section Sizes

variable {headers : HeaderTable} {type : ProgramAttribType} {data : ByteSpan}

lemma newSize_of_isEmpty (hb : headers.Bounded) (hd : data.size < unsignedSize)
    (hempty : (headers.getAttrib type).isEmpty) :
    (headers.getAttrib .attribBuffer).size < headers.newSize type data := by
  have hlt := hb.getAttrib_lt (t := .attribBuffer)
  obtain ⟨z, hz⟩ : ∃ z, z = (headers.getAttrib .attribBuffer).size := ⟨_, rfl⟩
  rw [newSize]
  simp only [hempty, if_true, ← hz, headerBytes]
  rw [unsignedSize] at hlt hd
  rw [add64, add64, wordSize]
  split_ifs <;> omega

lemma newSize_eq_iff (hb : headers.Bounded) (hd : data.size < unsignedSize)
    {h : ProgramAttribHeader} (hh : headers.header? type = some h) (hpos : h.length ≠ 0) :
    headers.newSize type data = (headers.getAttrib .attribBuffer).size ↔
      (data.size = h.length ∧ (headers.getAttrib .attribBuffer).size ≠ 0 ∨
        data.size + headerBytes = h.length ∧ (headers.getAttrib .attribBuffer).size = 0) := by
  have hlt := hb.getAttrib_lt (t := .attribBuffer)
  have hlen : h.length < unsignedSize := hb h (header?_mem hh)
  obtain ⟨z, hz⟩ : ∃ z, z = (headers.getAttrib .attribBuffer).size := ⟨_, rfl⟩
  have hempty : (headers.getAttrib .attribBuffer).isEmpty = decide (z = 0) := by
    rw [ByteSpan.isEmpty, hz]
  have hattrib : (headers.getAttrib type).isEmpty = false := by
    rw [getAttrib_of_some hh]
    simpa [ByteSpan.isEmpty] using hpos
  rw [newSize]
  simp only [hattrib, hempty, Bool.false_eq_true, if_false, decide_eq_true_eq]
  rw [getAttrib_of_some hh]
  dsimp only
  rw [unsignedSize] at hlt hd hlen
  rw [add64, add64, sub64, headerBytes, wordSize]
  split_ifs with hzero <;> omega

end Sizes

lemma setAttrib_of_newSize (hsize : a.headers.newSize c.type c.data =
    (a.headers.getAttrib .attribBuffer).size) :
    a.setAttrib c = some ⟨setHeader c.type c.data a.headers,
      update a.lastSet c.type c.data⟩ := by
  rw [setAttrib, HeaderTable.setAttrib, if_neg (not_not.mpr hsize)]
  rfl

lemma setAttrib_of_moved (hsize : a.headers.newSize c.type c.data ≠
    (a.headers.getAttrib .attribBuffer).size) (hbuf : c.newBuffer ≠ 0)
    (hdata : ¬ a.headers.HasData) :
    a.setAttrib c = some ⟨setHeader c.type c.data
      (a.headers.moved c.type c.data c.newBuffer c.leftover),
      update a.lastSet c.type c.data⟩ := by
  rw [setAttrib, HeaderTable.setAttrib, if_pos hsize, if_neg (not_or.mpr ⟨hbuf, hdata⟩)]
  rfl

variable {h : ProgramAttribHeader}

/-- Setting the one header of a table that has the other attributes as they were. -/
lemma faithful_setHeader {headers : HeaderTable} (ha : a.Wf) (hd : c.data.size < unsignedSize)
    (hh : headers.header? c.type = some h) (hother : ∀ t, t ≠ .attribBuffer → t ≠ c.type →
      headers.getAttrib t = a.headers.getAttrib t) (hunique : (headers.map (·.type)).Nodup) :
    Faithful ⟨setHeader c.type c.data headers,
      update a.lastSet c.type c.data⟩ where
  get := by
    intro t ht
    by_cases e : t = c.type
    · show _ = update a.lastSet c.type c.data t
      rw [e, getAttrib_setHeader_self hh, update_self, Nat.mod_eq_of_lt hd]
    · show _ = update a.lastSet c.type c.data t
      rw [getAttrib_setHeader_of_ne e, update_of_ne e, hother t ht e,
        ha.get t ht]
  unique := by rwa [types_setHeader]

/-- The call for a type that has a header. -/
lemma keepsAttribs_iff_of_some (ha : a.Wf) (hh : a.headers.header? c.type = some h) :
    a.KeepsAttribs c ↔ h.length ≠ 0 ∧
      (c.data.size = h.length ∧ (a.headers.getAttrib .attribBuffer).size ≠ 0 ∨
        c.data.size + headerBytes = h.length ∧ (a.headers.getAttrib .attribBuffer).size = 0) := by
  have hget := getAttrib_of_some hh
  constructor
  · rintro ⟨a', hs, hf⟩
    have hd := hf.size_lt ha hs
    by_cases hz : h.length = 0
    · -- an attribute without data gets a second header
      exfalso
      have hempty : (a.headers.getAttrib c.type).isEmpty := by
        rw [hget, ByteSpan.isEmpty]
        simpa using hz
      have hgrow := newSize_of_isEmpty ha.bounded hd hempty
      obtain ⟨headers, ⟨-, hsize⟩ | ⟨rfl, -⟩, rfl⟩ := setAttrib_eq hs
      · exact hgrow.ne' hsize
      · have hunique := hf.unique
        rw [types_setHeader, types_moved, if_pos hempty] at hunique
        have hmem : c.type ∈ a.headers.map (·.type) :=
          mem_map.mpr ⟨h, header?_mem hh, header?_type hh⟩
        exact (disjoint_of_nodup_append hunique.of_append_left) hmem mem_cons_self
    · refine ⟨hz, (newSize_eq_iff ha.bounded hd hh hz).mp ?_⟩
      obtain ⟨headers, ⟨-, hsize⟩ | ⟨-, -, -, hdata⟩, -⟩ := setAttrib_eq hs
      · exact hsize
      · refine absurd ⟨h, header?_mem hh, not_or.mpr ⟨hz, ?_⟩⟩ hdata
        rw [header?_type hh]
        exact c.proper
  · rintro ⟨hz, hsame⟩
    have hlen : h.length < unsignedSize := ha.bounded h (header?_mem hh)
    have hd : c.data.size < unsignedSize := by
      rcases hsame with ⟨e, -⟩ | ⟨e, -⟩ <;> omega
    have hsize := (newSize_eq_iff ha.bounded hd hh hz).mpr hsame
    exact ⟨_, setAttrib_of_newSize hsize,
      faithful_setHeader ha hd hh (fun _ _ _ => rfl) ha.unique⟩

/-- The call for a type that has no header. -/
lemma keepsAttribs_iff_of_none (ha : a.Wf) (hh : a.headers.header? c.type = none) :
    a.KeepsAttribs c ↔ c.data.size < unsignedSize ∧ c.newBuffer ≠ 0 ∧ ¬ a.headers.HasData ∧
      (a.headers = [] ∨ (a.headers.getAttrib .attribBuffer).size ≠ 0) := by
  have hempty : (a.headers.getAttrib c.type).isEmpty := by
    rw [getAttrib_of_none hh]
    rfl
  constructor
  · rintro ⟨a', hs, hf⟩
    have hd := hf.size_lt ha hs
    have hgrow := newSize_of_isEmpty ha.bounded hd hempty
    obtain ⟨headers, ⟨-, hsize⟩ | ⟨rfl, -, hbuf, hdata⟩, rfl⟩ := setAttrib_eq hs
    · exact absurd hsize hgrow.ne'
    · refine ⟨hd, hbuf, hdata, ?_⟩
      by_contra hnot
      rw [not_or] at hnot
      -- a buffer whose recorded size has become 0 gets a second header
      have hunique := hf.unique
      have hbufEmpty : (a.headers.getAttrib .attribBuffer).isEmpty := by
        rw [ByteSpan.isEmpty]
        simpa using hnot.2
      rw [types_setHeader, types_moved, if_pos hbufEmpty] at hunique
      exact (disjoint_of_nodup_append hunique)
        (mem_append_left _ (ha.buffer hnot.1)) mem_cons_self
  · rintro ⟨hd, hbuf, hdata, hnil⟩
    have hgrow := newSize_of_isEmpty ha.bounded hd hempty
    obtain ⟨h, hh'⟩ := exists_header?_moved c.data c.newBuffer c.leftover hempty
    refine ⟨_, setAttrib_of_moved hgrow.ne' hbuf hdata, faithful_setHeader ha hd hh'
      (fun t ht e => getAttrib_moved ht e) ?_⟩
    rw [types_moved, if_pos hempty]
    have hnew : (a.headers.map (·.type) ++ [c.type]).Nodup := by
      rw [nodup_append]
      refine ⟨ha.unique, nodup_singleton _, ?_⟩
      rintro t ht _ htype rfl
      obtain ⟨h, hmem, rfl⟩ := mem_map.mp ht
      exact header?_eq_none.mp hh h hmem (mem_singleton.mp htype)
    rcases hnil with hnil | hbufSize
    · rw [hnil]
      have hproper := c.proper
      simp [getAttrib, header?, ByteSpan.isEmpty, ByteSpan.none,
        hproper]
    · have hfull : (a.headers.getAttrib .attribBuffer).isEmpty = false := by
        rw [ByteSpan.isEmpty]
        simpa using hbufSize
      rw [hfull]
      simpa using hnew

lemma keepsAttribs_iff (ha : a.Wf) (c : SetCall) : a.KeepsAttribs c ↔ a.SetOk c := by
  rw [SetOk]
  cases hh : a.headers.header? c.type with
  | none => exact keepsAttribs_iff_of_none ha hh
  | some h => exact keepsAttribs_iff_of_some ha hh

/-- **Every sequence of calls.**  No assertion fires, `GetAttrib` always returns what was last set
and no type has two headers, exactly if every call meets its condition. -/
theorem attribs_faithful_iff (cs : List SetCall) :
    Allowed setAttrib KeepsAttribs init cs ↔ Allowed setAttrib SetOk init cs := by
  refine allowed_iff Wf (fun a c ha => keepsAttribs_iff ha c) ?_ wf_init cs
  rintro a c a' ha ⟨a'', hs, hf⟩ hs'
  rw [hs'] at hs
  exact ha.of_setAttrib hs' (Option.some.inj hs ▸ hf)

/-- The call that `SetShadow` makes for a driver instance. -/
def setShadow (driver : ℕ) : SetCall := ⟨.driverShadow, ⟨driver, 0⟩, 0x9000, 0, by decide⟩

/-- The second `SetShadow` of a thread gives the type a second header; after a name was set, the
first `SetShadow` runs into the assertion. -/
theorem setShadow_breaks :
    ¬ Allowed setAttrib KeepsAttribs init [setShadow 0, setShadow 0x1000] ∧
      ¬ Allowed setAttrib KeepsAttribs init
        [⟨.name, ⟨0x2000, 4⟩, 0x8000, 0, by decide⟩, setShadow 0x1000] := by
  decide

end Attribs

end Northport.Tasking
