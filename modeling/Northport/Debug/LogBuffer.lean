/-
# The ring buffers of the kernel log (`Log.cpp`)

`AllocMessage` reserves a region of a ring buffer by moving its head with a compare-exchange; a
logger that interrupts it may move the head, too.  Writing a message out moves the tail to the end of
its text.  Head and tail are wrapped indices, and the checks against the tail let a region pass that
ends where it should not; the header of a message may stick out of the buffer, and after four failed
exchanges the region at the head is used without being reserved.
-/
import Northport.Lib.Run
import Northport.Lib.Word

namespace Northport.Debug

open Lib List Option

def MaxLogLength : ℕ := 128

def MaxAllocExchangeTries : ℕ := 4

/-- The size of a buffer, and `sizeof(LogMessageItem)`. -/
structure LogLayout where
  size : ℕ
  itemSize : ℕ
  size_lt : size < 0x10000
  itemSize_pos : 0 < itemSize
  room : MaxLogLength + 2 * itemSize ≤ size

/-- The buffers and the headers of an x86_64 kernel. -/
def LogLayout.x86 : LogLayout := ⟨0x4000, 40, by decide, by decide, by decide⟩

/-- A message that was allocated and not written out.  `place` is the number of bytes that were
reserved before it. -/
structure LogMessage where
  begin : ℕ
  realLength : ℕ
  length : ℕ
  reserved : Bool
  place : ℕ

/-- A call of `AllocMessage`, with the index that it read in the current attempt. -/
structure LogCall where
  length : ℕ
  tries : ℕ := 0
  loaded : Option ℕ := none

structure LogBuffer where
  head : ℕ := 0
  tail : ℕ := 0
  calls : List LogCall := []
  messages : List LogMessage := []
  /-- How many bytes were reserved so far. -/
  total : ℕ := 0

inductive LogOp where
  | start (length : ℕ)
  | load (k : ℕ)
  | exchange (k : ℕ)
  | writeOut (k : ℕ)
deriving DecidableEq, Repr

namespace LogBuffer

variable (c : LogLayout)

def realLength (length : ℕ) : ℕ := alignUp (length + c.itemSize) c.itemSize

/-- The new message would trample on the tail of the buffer. -/
def Tramples (start length tail : ℕ) : Prop :=
  start < tail ∧ (start + realLength c length) % c.size ≥ tail ∨
    c.size - start < realLength c length ∧ (start + realLength c length) % c.size ≥ tail

instance (start length tail : ℕ) : Decidable (Tramples c start length tail) :=
  inferInstanceAs (Decidable (_ ∨ _))

/-- The call returns a message at the index. -/
def reply (s : LogBuffer) (k : ℕ) (call : LogCall) (start : ℕ) (reserved : Bool) : LogBuffer :=
  { s with calls := s.calls.eraseIdx k
           messages := s.messages ++
            [⟨start, realLength c call.length, call.length, reserved, s.total⟩] }

/-- The compare-exchange of a call; when it fails, the call continues with the index that it
found. -/
def exchange (s : LogBuffer) (k : ℕ) (call : LogCall) (start : ℕ) : LogBuffer :=
  if s.head = start then
    { s.reply c k call start true with
      head := (start + realLength c call.length) % c.size
      total := s.total + realLength c call.length }
  else if call.tries + 1 < MaxAllocExchangeTries then
    { s with calls := s.calls.set k { call with tries := call.tries + 1, loaded := none } }
  else s.reply c k call s.head false

def step (s : LogBuffer) : LogOp → Option LogBuffer
  | .start length =>
    if length ≤ MaxLogLength then some { s with calls := s.calls ++ [{ length }] } else none
  | .load k => s.calls[k]?.bind fun call =>
      if call.loaded ≠ none then none
      else if Tramples c s.head call.length s.tail then some { s with calls := s.calls.eraseIdx k }
      else some { s with calls := s.calls.set k { call with loaded := some s.head } }
  | .exchange k => s.calls[k]?.bind fun call => call.loaded.map (s.exchange c k call)
  | .writeOut k => s.messages[k]?.map fun msg =>
      { s with
        messages := s.messages.eraseIdx k
        tail := if msg.length = 0 then s.tail
          else ((msg.begin + c.itemSize) % c.size + msg.length) % c.size }

/-- Two messages share a byte of the buffer. -/
def Overlap (a b : LogMessage) : Prop :=
  ∃ i < a.realLength, ∃ j < b.realLength, (a.begin + i) % c.size = (b.begin + j) % c.size

/-- **What the log relies on**: every message was reserved, its header lies inside of the buffer, and
no two messages overlap. -/
structure Sound (s : LogBuffer) : Prop where
  reserved : ∀ m ∈ s.messages, m.reserved = true
  header : ∀ m ∈ s.messages, m.begin + c.itemSize ≤ c.size
  apart : s.messages.Pairwise fun a b => ¬ Overlap c a b

/-- The exchange succeeds before the last attempt fails; when it does, the header fits in front of the
end of the buffer, and the bytes that were reserved since the oldest message, with the new ones, fit
into the buffer. -/
def Fits (s : LogBuffer) : LogOp → Prop
  | .exchange k => ∀ call ∈ s.calls[k]?, ∀ start ∈ call.loaded,
      if s.head = start then
        s.head + c.itemSize ≤ c.size ∧
          ∀ m ∈ s.messages, s.total + realLength c call.length ≤ m.place + c.size
      else call.tries + 1 < MaxAllocExchangeTries
  | .start _ | .load _ | .writeOut _ => True

/-- The messages lie one behind the other within one turn around the buffer. -/
structure Inv (s : LogBuffer) : Prop where
  head : s.head = s.total % c.size
  short : ∀ call ∈ s.calls, call.length ≤ MaxLogLength
  reserved : ∀ m ∈ s.messages, m.reserved = true
  header : ∀ m ∈ s.messages, m.begin + c.itemSize ≤ c.size
  place : ∀ m ∈ s.messages, m.begin = m.place % c.size ∧ 0 < m.realLength ∧
    m.place + m.realLength ≤ s.total ∧ s.total ≤ m.place + c.size
  order : s.messages.Pairwise fun a b => a.place + a.realLength ≤ b.place

variable {c} {s s' : LogBuffer}

lemma realLength_bounds {length : ℕ} (h : length ≤ MaxLogLength) :
    0 < realLength c length ∧ realLength c length ≤ c.size := by
  have hitem := c.itemSize_pos
  have hsize := c.size_lt
  have hroom := c.room
  have hword : length + c.itemSize + c.itemSize ≤ wordSize := by
    rw [wordSize]
    omega
  obtain ⟨hle, hlt⟩ := le_alignUp hitem hword
  rw [realLength]
  omega

/-- Bytes less than one turn apart are different bytes of the buffer. -/
lemma mod_ne {x y : ℕ} (hlt : x < y) (hturn : y < x + c.size) : x % c.size ≠ y % c.size := by
  intro heq
  obtain ⟨d, hd⟩ := (Nat.modEq_iff_dvd' hlt.le).mp heq
  rcases Nat.eq_zero_or_pos d with rfl | hpos
  · omega
  · have := Nat.le_mul_of_pos_right c.size hpos
    omega

section

variable (h : Inv c s) {b : LogMessage} {call : LogCall} {k : ℕ} {o : LogOp}
include h

lemma Inv.not_overlap {a : LogMessage} (ha : a ∈ s.messages) (hb : b ∈ s.messages)
    (hab : a.place + a.realLength ≤ b.place) : ¬ Overlap c a b := by
  rintro ⟨i, hi, j, hj, heq⟩
  obtain ⟨hbegin, -, -, hturn⟩ := h.place a ha
  obtain ⟨hbegin', -, hend, -⟩ := h.place b hb
  rw [hbegin, hbegin', Nat.mod_add_mod, Nat.mod_add_mod] at heq
  exact mod_ne (by omega) (by omega) heq

lemma Inv.sound : s.Sound c :=
  ⟨h.reserved, h.header, Pairwise.imp_of_mem (fun ha hb hab => h.not_overlap ha hb hab) h.order⟩

/-- Only the calls change, and none of them gets longer. -/
lemma Inv.calls {calls : List LogCall}
    (hcalls : ∀ call ∈ calls, call.length ≤ MaxLogLength) : Inv c { s with calls := calls } :=
  ⟨h.head, hcalls, h.reserved, h.header, h.place, h.order⟩

lemma Inv.reserve (hcall : call ∈ s.calls) (hheader : s.head + c.itemSize ≤ c.size)
    (hroom : ∀ m ∈ s.messages, s.total + realLength c call.length ≤ m.place + c.size) :
    Inv c (s.exchange c k call s.head) := by
  obtain ⟨hpos, hlength⟩ := realLength_bounds (c := c) (h.short call hcall)
  rw [exchange, if_pos rfl]
  refine ⟨?_, fun x hx => h.short x (mem_of_mem_eraseIdx hx), ?_, ?_, ?_, ?_⟩
  · show (s.head + realLength c call.length) % c.size = (s.total + realLength c call.length) % c.size
    rw [h.head, Nat.mod_add_mod]
  · exact forall_mem_append.mpr ⟨h.reserved, forall_mem_singleton.mpr rfl⟩
  · exact forall_mem_append.mpr ⟨h.header, forall_mem_singleton.mpr hheader⟩
  · refine forall_mem_append.mpr ⟨fun m hm => ?_, forall_mem_singleton.mpr
      ⟨h.head, hpos, le_rfl, Nat.add_le_add_left hlength _⟩⟩
    obtain ⟨h₁, h₂, h₃, -⟩ := h.place m hm
    exact ⟨h₁, h₂, h₃.trans (Nat.le_add_right _ _), hroom m hm⟩
  · refine pairwise_append.mpr ⟨h.order, pairwise_singleton _ _, fun a ha b hb => ?_⟩
    rw [mem_singleton.mp hb]
    exact (h.place a ha).2.2.1

lemma Inv.short_set {call' : LogCall} (hcall : s.calls[k]? = some call)
    (hlength : call'.length = call.length) :
    ∀ x ∈ s.calls.set k call', x.length ≤ MaxLogLength := by
  intro x hx
  rcases mem_or_eq_of_mem_set hx with hx | rfl
  · exact h.short x hx
  · rw [hlength]
    exact h.short call (mem_of_getElem? hcall)

lemma Inv.step (hok : s.Fits c o) (hs' : s.step c o = some s') : Inv c s' := by
  cases o with
  | start length =>
    obtain ⟨hlength, hs'⟩ := ite_none_right_eq_some.mp hs'
    cases hs'
    exact h.calls (forall_mem_append.mpr ⟨h.short, forall_mem_singleton.mpr hlength⟩)
  | load k =>
    obtain ⟨call, hcall, hs'⟩ := bind_eq_some_iff.mp hs'
    split_ifs at hs' with hloaded htramples
    · cases hs'
      exact h.calls fun x hx => h.short x (mem_of_mem_eraseIdx hx)
    · cases hs'
      exact h.calls (h.short_set hcall rfl)
  | exchange k =>
    obtain ⟨call, hcall, hs'⟩ := bind_eq_some_iff.mp hs'
    obtain ⟨start, hstart, rfl⟩ := map_eq_some_iff.mp hs'
    have hfits := hok call hcall start hstart
    by_cases hhead : s.head = start
    · rw [if_pos hhead] at hfits
      subst hhead
      exact h.reserve (mem_of_getElem? hcall) hfits.1 hfits.2
    · rw [if_neg hhead] at hfits
      rw [exchange, if_neg hhead, if_pos hfits]
      exact h.calls (h.short_set hcall rfl)
  | writeOut k =>
    obtain ⟨msg, -, rfl⟩ := map_eq_some_iff.mp hs'
    exact ⟨h.head, h.short, fun m hm => h.reserved m (mem_of_mem_eraseIdx hm),
      fun m hm => h.header m (mem_of_mem_eraseIdx hm),
      fun m hm => h.place m (mem_of_mem_eraseIdx hm), h.order.sublist (eraseIdx_sublist _ _)⟩

/-- A reserved region that goes further than one turn meets the oldest message. -/
lemma Inv.overlap {m : LogMessage} (hm : m ∈ s.messages) (hbegin : b.begin = s.head)
    (hlong : m.place + c.size < s.total + b.realLength) : Overlap c m b := by
  obtain ⟨hplace, hpos, -, hturn⟩ := h.place m hm
  refine ⟨0, hpos, m.place + c.size - s.total, by omega, ?_⟩
  rw [hplace, hbegin, h.head, Nat.mod_add_mod, Nat.mod_add_mod, Nat.add_sub_cancel' hturn,
    add_zero, Nat.add_mod_right]

/-- An exchange that does not fit. -/
lemma Inv.fits (hsound : ∀ s', s.step c o = some s' → s'.Sound c) : s.Fits c o := by
  cases o with
  | start length => exact trivial
  | load k => exact trivial
  | writeOut k => exact trivial
  | exchange k =>
    intro call hcall start hstart
    have hstep : s.step c (.exchange k) = some (s.exchange c k call start) := by
      rw [LogBuffer.step, show s.calls[k]? = some call from hcall, bind_some,
        show call.loaded = some start from hstart, map_some]
    have hsound := hsound _ hstep
    rw [exchange] at hsound
    by_cases hhead : s.head = start
    · subst hhead
      rw [if_pos rfl] at hsound ⊢
      refine ⟨hsound.header _ (mem_append_right _ (mem_singleton.mpr rfl)),
        fun m hm => ?_⟩
      by_contra hlong
      refine (pairwise_append.mp hsound.apart).2.2 m hm _ (mem_singleton.mpr rfl) ?_
      exact h.overlap hm rfl (not_le.mp hlong)
    · rw [if_neg hhead] at hsound ⊢
      by_contra hlast
      rw [if_neg hlast] at hsound
      exact absurd (hsound.reserved _ (mem_append_right _ (mem_singleton.mpr rfl))) nofun

end

/-- **The log is sound exactly if every exchange fits.** -/
theorem sound_iff_fits (c : LogLayout) (ops : List LogOp) :
    Always (step c) (Sound c) {} ops ↔ Allowed (step c) (Fits c) {} ops := by
  have hinit : Inv c {} := by
    refine ⟨(Nat.zero_mod _).symm, ?_, ?_, ?_, ?_, Pairwise.nil⟩ <;>
      exact nofun
  refine always_iff_allowed (Inv c) (Sound c) (fun s o h _ => ⟨fun hsound => h.fits hsound, ?_⟩)
    (fun s o s' h hok hs' => h.step hok hs') hinit hinit.sound ops
  exact fun hok s' hs' => (h.step hok hs').sound

/-- An attempt of the first call, with another message between its load and its exchange. -/
def interrupted : List LogOp := [.load 0, .start 1, .load 1, .exchange 1, .exchange 0]

/-- **A logger that is interrupted in each of its four attempts** gets the region at the head
without having reserved it. -/
theorem fourth_failure_unreserved :
    (run (step .x86) {} ([.start 1] ++ interrupted ++ interrupted ++ interrupted ++ interrupted)).map
      (fun s => (s.head, s.messages.getLast?.map fun m => (m.begin, m.reserved))) =
        some (320, some (320, false)) ∧
    ¬ Always (step .x86) (Sound .x86) {}
      ([.start 1] ++ interrupted ++ interrupted ++ interrupted ++ interrupted) := by
  have hrun : (run (step .x86) {}
      ([.start 1] ++ interrupted ++ interrupted ++ interrupted ++ interrupted)).map
        (fun s => (s.head, s.messages.getLast?.map fun m => (m.begin, m.reserved))) =
          some (320, some (320, false)) := by decide +kernel
  obtain ⟨s, hs, hlast⟩ := map_eq_some_iff.mp hrun
  refine ⟨hrun, fun halways => ?_⟩
  obtain ⟨m, hm, hfields⟩ := map_eq_some_iff.mp (Prod.mk.inj hlast).2
  have hreserved := (halways.of_run hs).reserved m (mem_of_getLast? hm)
  exact absurd ((Prod.mk.inj hfields).2.symm.trans hreserved) nofun

end LogBuffer

end Northport.Debug
