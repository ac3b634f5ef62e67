/-
# The mailbox for interprocessor interrupts (`Ipi.cpp`)

A core asks another one to call a function by writing the function and its argument into a free
slot of the mailbox of that core.  The receiving core sweeps over the slots and tests each of
them without the lock; it takes the lock to empty a slot and calls the function after it has
released it.

The model is a transition system for one mailbox.  Its steps are the critical sections of the
senders, and the tests, the critical sections and the returns of the calls of the receiver, in any
interleaving.  Ghost fields number the mails that were accepted.
-/
import Northport.Lib.Run
import Northport.Lib.Word

namespace Northport.Interrupts

open Lib List Option

def mailboxQueueDepth : ℕ := 0x40

def emitErrorOnCount : ℕ := 50

/-- `MailboxRpc`; a null callback marks a free slot. -/
structure MailboxRpc (F A : Type*) where
  callback : Option F
  arg : A

/-- A call of `SendIpiMail`. -/
structure Mail (Core F A : Type*) where
  sender : Core
  callback : F
  arg : A
deriving DecidableEq

/-- A call of a callback by the receiver, with the number of the mail. -/
structure Call (F A : Type*) where
  mail : ℕ
  callback : F
  arg : A
deriving DecidableEq

/-- Where the receiver stands in `ProcessIpiMail`. -/
inductive ReceiverPc where
  | idle
  /-- The test of the slot comes next, or the end of the loop. -/
  | checking (i : ℕ)
  /-- The slot was not free, its critical section comes next. -/
  | taking (i : ℕ)
  /-- The callback of the slot was called. -/
  | calling (i : ℕ)
deriving DecidableEq, Repr

/-- The mailbox of a core. -/
structure Mailbox (Core F A : Type*) where
  callbacks : ℕ → MailboxRpc F A
  fullErrorCount : ℕ
  receiver : ReceiverPc
  /-- The messages about a full mailbox that were logged. -/
  errors : ℕ
  /-- The mails that were accepted, in order. -/
  accepted : List (Mail Core F A)
  /-- The number of the mail that was last written to the slot. -/
  number : ℕ → ℕ
  /-- The calls of the receiver, in order. -/
  calls : List (Call F A)

inductive MailEvent (Core F A : Type*) where
  /-- The critical section of `SendIpiMail`. -/
  | send (mail : Mail Core F A)
  /-- The receiver begins a pass over the mailbox. -/
  | process
  /-- The receiver goes on with its pass. -/
  | receive

namespace Mailbox

variable {Core F A : Type*}

/-- `InitIpiMailbox`; the arguments are whatever the memory holds. -/
def init (arg : ℕ → A) : Mailbox Core F A where
  callbacks i := ⟨none, arg i⟩
  fullErrorCount := 0
  receiver := .idle
  errors := 0
  accepted := []
  number _ := 0
  calls := []

section

variable (s : Mailbox Core F A)

/-- The slot that the loop of `SendIpiMail` stops at. -/
def freeSlot : Option ℕ :=
  (range mailboxQueueDepth).find? fun i => (s.callbacks i).callback.isNone

/-- The mail is written to the slot. -/
def accept (i : ℕ) (m : Mail Core F A) : Mailbox Core F A :=
  { s with
    callbacks := Function.update s.callbacks i ⟨some m.callback, m.arg⟩
    fullErrorCount := 0
    accepted := s.accepted ++ [m]
    number := Function.update s.number i s.accepted.length }

/-- The mail is dropped. -/
def drop : Mailbox Core F A :=
  { s with
    errors := if s.fullErrorCount % emitErrorOnCount = 0 then s.errors + 1 else s.errors
    fullErrorCount := add64 s.fullErrorCount 1 }

def sendIpiMail (m : Mail Core F A) : Mailbox Core F A :=
  match s.freeSlot with
  | some i => s.accept i m
  | none => s.drop

/-- The slot is emptied and its callback called. -/
def take (i : ℕ) (callback : F) : Mailbox Core F A :=
  { s with
    callbacks := Function.update s.callbacks i { s.callbacks i with callback := none }
    receiver := .calling i
    calls := s.calls ++ [⟨s.number i, callback, (s.callbacks i).arg⟩] }

/-- The next step of `ProcessIpiMail`; `none` outside of a pass, and when a null pointer would be
called. -/
def receive : Option (Mailbox Core F A) :=
  match s.receiver with
  | .idle => none
  | .checking i =>
    if i < mailboxQueueDepth then
      if (s.callbacks i).callback.isNone then some { s with receiver := .checking (i + 1) }
      else some { s with receiver := .taking i }
    else some { s with receiver := .idle }
  | .taking i => (s.callbacks i).callback.map (s.take i)
  | .calling i => some { s with receiver := .checking (i + 1) }

def step : MailEvent Core F A → Option (Mailbox Core F A)
  | .send m => some (s.sendIpiMail m)
  | .process => if s.receiver = .idle then some { s with receiver := .checking 0 } else none
  | .receive => s.receive

/-! ### What can be said about the mails -/

/-- The slot holds the mail of this number, as it was sent. -/
def Holds (i n : ℕ) (m : Mail Core F A) : Prop :=
  s.callbacks i = ⟨some m.callback, m.arg⟩ ∧ s.number i = n

/-- The slot is occupied. -/
def Occupied (i : ℕ) : Prop :=
  i < mailboxQueueDepth ∧ (s.callbacks i).callback ≠ none

/-- The calls that were made for the mail of this number. -/
def callsOf (n : ℕ) : List (Call F A) := s.calls.filter fun c => c.mail = n

end

/-- **Every accepted mail** is in exactly one slot and was not executed, or is in no slot and was
executed exactly once, with its own callback and argument; nothing else was executed; and a mail is
only dropped when all slots are occupied. -/
structure Conserved (s : Mailbox Core F A) : Prop where
  once : ∀ n m, s.accepted[n]? = some m →
    (∃! i, i < mailboxQueueDepth ∧ s.Holds i n m) ∧ s.callsOf n = [] ∨
      (∀ i, s.Occupied i → s.number i ≠ n) ∧ s.callsOf n = [⟨n, m.callback, m.arg⟩]
  slots : ∀ i, s.Occupied i → ∃ m, s.accepted[s.number i]? = some m ∧ s.Holds i (s.number i) m
  executed : ∀ c ∈ s.calls, c.mail < s.accepted.length
  dropped : ∀ m, (s.sendIpiMail m).accepted = s.accepted ++ [m] ∨
    s.sendIpiMail m = s.drop ∧ ∀ i < mailboxQueueDepth, s.Occupied i

/-! ### The invariant -/

/-- The numbers of the mails that were executed, in order. -/
def executed (s : Mailbox Core F A) : List ℕ := s.calls.map (·.mail)

/-- Each accepted mail is in one slot or was executed, and the receiver has found what it is about
to take. -/
structure Inv (s : Mailbox Core F A) : Prop where
  slots : ∀ i, s.Occupied i → ∃ m, s.accepted[s.number i]? = some m ∧ s.Holds i (s.number i) m
  unique : ∀ i j, s.Occupied i → s.Occupied j → s.number i = s.number j → i = j
  covered : ∀ n < s.accepted.length, (∃ i, s.Occupied i ∧ s.number i = n) ∨ n ∈ s.executed
  fresh : ∀ i, s.Occupied i → s.number i ∉ s.executed
  nodup : s.executed.Nodup
  calls : ∀ c ∈ s.calls, ∃ m, s.accepted[c.mail]? = some m ∧ c = ⟨c.mail, m.callback, m.arg⟩
  taking : ∀ i, s.receiver = .taking i → s.Occupied i
  calling : ∀ i, s.receiver = .calling i → i < mailboxQueueDepth
  checking : ∀ i, s.receiver = .checking i → i ≤ mailboxQueueDepth

variable {s s' : Mailbox Core F A} {i j n : ℕ} {m : Mail Core F A}

lemma inv_init (arg : ℕ → A) : Inv (init arg : Mailbox Core F A) where
  slots i h := absurd rfl h.2
  unique i j h := absurd rfl h.2
  covered := nofun
  fresh i h := absurd rfl h.2
  nodup := nodup_nil
  calls := nofun
  taking i h := by simp [init] at h
  calling i h := by simp [init] at h
  checking i h := by simp [init] at h

lemma Holds.occupied (h : s.Holds i n m) (hi : i < mailboxQueueDepth) : s.Occupied i :=
  ⟨hi, by simp [h.1]⟩

lemma freeSlot_eq_some : s.freeSlot = some i ↔
    i < mailboxQueueDepth ∧ ¬ s.Occupied i ∧ ∀ j < i, s.Occupied j := by
  rw [freeSlot, find?_range_eq_some, mem_range]
  constructor
  · rintro ⟨hfree, hi, hall⟩
    refine ⟨hi, fun h => h.2 (by simpa using hfree), fun j hj => ⟨hj.trans hi, ?_⟩⟩
    simpa [← ne_none_iff_isSome] using hall j hj
  · rintro ⟨hi, hfree, hall⟩
    refine ⟨?_, hi, fun j hj => ?_⟩
    · by_contra h
      exact hfree ⟨hi, by simpa using h⟩
    · simpa [← ne_none_iff_isSome] using (hall j hj).2

lemma freeSlot_eq_none : s.freeSlot = none ↔ ∀ i < mailboxQueueDepth, s.Occupied i := by
  rw [freeSlot, find?_range_eq_none]
  refine forall_congr' fun i => forall_congr' fun hi => ?_
  simp [Occupied, hi, ← ne_none_iff_isSome]

/-! #### A mail is accepted -/

lemma occupied_accept : (s.accept i m).Occupied j ↔
    j = i ∧ i < mailboxQueueDepth ∨ j ≠ i ∧ s.Occupied j := by
  by_cases e : j = i
  · subst e
    simp [Occupied, accept]
  · simp [Occupied, accept, e]

lemma holds_accept_of_ne {m' : Mail Core F A} (h : s.Holds j n m') (e : j ≠ i) :
    (s.accept i m).Holds j n m' := by
  simpa [Holds, accept, e] using h

lemma Inv.number_lt (h : Inv s) (hi : s.Occupied i) : s.number i < s.accepted.length := by
  obtain ⟨m, hm, -⟩ := h.slots i hi
  exact (List.getElem?_eq_some_iff.mp hm).1

lemma Inv.executed_lt (h : Inv s) (hn : n ∈ s.executed) : n < s.accepted.length := by
  obtain ⟨c, hc, rfl⟩ := mem_map.mp hn
  obtain ⟨m, hm, -⟩ := h.calls c hc
  exact (List.getElem?_eq_some_iff.mp hm).1

lemma Inv.accept (h : Inv s) (hi : i < mailboxQueueDepth) (hfree : ¬ s.Occupied i) :
    Inv (s.accept i m) := by
  have hne : ∀ j, s.Occupied j → j ≠ i := fun j hj e => hfree (e ▸ hj)
  have hnumber : ∀ j, j ≠ i → (s.accept i m).number j = s.number j :=
    fun j hj => Function.update_of_ne hj ..
  have hself : (s.accept i m).number i = s.accepted.length := Function.update_self ..
  have hold : ∀ (k : ℕ) m', s.accepted[k]? = some m' → (s.accepted ++ [m])[k]? = some m' := by
    intro k m' hk
    rw [getElem?_append_left (List.getElem?_eq_some_iff.mp hk).1, hk]
  refine ⟨?_, ?_, ?_, ?_, h.nodup, ?_, ?_, h.calling, h.checking⟩
  · intro j hj
    rcases occupied_accept.mp hj with ⟨rfl, -⟩ | ⟨e, hj⟩
    · exact ⟨m, by rw [hself]; exact getElem?_concat_length, by simp [Holds, accept]⟩
    · obtain ⟨m', hm', hholds⟩ := h.slots j hj
      rw [hnumber j e]
      exact ⟨m', hold _ _ hm', holds_accept_of_ne hholds e⟩
  · intro j k hj hk hjk
    rcases occupied_accept.mp hj with ⟨ej, -⟩ | ⟨ej, hj'⟩ <;>
      rcases occupied_accept.mp hk with ⟨ek, -⟩ | ⟨ek, hk'⟩
    · rw [ej, ek]
    · rw [ej, hself, hnumber k ek] at hjk
      exact absurd hjk (h.number_lt hk').ne'
    · rw [ek, hself, hnumber j ej] at hjk
      exact absurd hjk (h.number_lt hj').ne
    · rw [hnumber j ej, hnumber k ek] at hjk
      exact h.unique j k hj' hk' hjk
  · intro k hk
    rcases Nat.lt_or_ge k s.accepted.length with hlt | hge
    · rcases h.covered k hlt with ⟨j, hj, rfl⟩ | hk
      · exact .inl ⟨j, occupied_accept.mpr (.inr ⟨hne j hj, hj⟩), hnumber j (hne j hj)⟩
      · exact .inr hk
    · have hlen : (s.accepted ++ [m]).length = s.accepted.length + 1 := length_append
      rw [Mailbox.accept, hlen] at hk
      refine .inl ⟨i, occupied_accept.mpr (.inl ⟨rfl, hi⟩), ?_⟩
      omega
  · intro j hj
    rcases occupied_accept.mp hj with ⟨rfl, -⟩ | ⟨e, hj⟩
    · rw [hself]
      exact fun hmem => (h.executed_lt hmem).ne rfl
    · rw [hnumber j e]
      exact h.fresh j hj
  · intro c hc
    obtain ⟨m', hm', hcall⟩ := h.calls c hc
    exact ⟨m', hold _ _ hm', hcall⟩
  · intro j hj
    have hocc := h.taking j hj
    exact occupied_accept.mpr (.inr ⟨hne j hocc, hocc⟩)

lemma Inv.sendIpiMail (h : Inv s) : Inv (s.sendIpiMail m) := by
  rw [Mailbox.sendIpiMail]
  cases hfree : s.freeSlot with
  | none => exact ⟨h.slots, h.unique, h.covered, h.fresh, h.nodup, h.calls, h.taking, h.calling,
      h.checking⟩
  | some i =>
    obtain ⟨hi, hfree, -⟩ := freeSlot_eq_some.mp hfree
    exact h.accept hi hfree

/-! #### A mail is executed -/

lemma occupied_take {callback : F} : (s.take i callback).Occupied j ↔ j ≠ i ∧ s.Occupied j := by
  by_cases e : j = i
  · subst e
    simp [Occupied, take]
  · simp [Occupied, take, e]

lemma Inv.take (h : Inv s) (hi : s.Occupied i) {callback : F}
    (hc : (s.callbacks i).callback = some callback) : Inv (s.take i callback) := by
  have hexec : (s.take i callback).executed = s.executed ++ [s.number i] := by
    rw [executed, Mailbox.take, map_append]
    rfl
  refine ⟨?_, ?_, ?_, ?_, ?_, ?_, ?_, ?_, ?_⟩
  · intro j hj
    obtain ⟨e, hj⟩ := occupied_take.mp hj
    obtain ⟨m, hm, hholds⟩ := h.slots j hj
    exact ⟨m, hm, by simpa [Holds, Mailbox.take, e] using hholds⟩
  · intro j k hj hk hjk
    exact h.unique j k (occupied_take.mp hj).2 (occupied_take.mp hk).2 hjk
  · intro k hk
    rw [hexec, mem_append, mem_singleton]
    rcases h.covered k hk with ⟨j, hj, rfl⟩ | hk
    · by_cases e : j = i
      · exact .inr (.inr (by rw [e]))
      · exact .inl ⟨j, occupied_take.mpr ⟨e, hj⟩, rfl⟩
    · exact .inr (.inl hk)
  · intro j hj
    obtain ⟨e, hj⟩ := occupied_take.mp hj
    rw [hexec, mem_append, mem_singleton, not_or]
    exact ⟨h.fresh j hj, fun hjk => e (h.unique j i hj hi hjk)⟩
  · rw [hexec, nodup_append]
    refine ⟨h.nodup, nodup_singleton _, ?_⟩
    rintro a ha _ hb rfl
    exact h.fresh i hi (mem_singleton.mp hb ▸ ha)
  · intro c hmem
    rcases mem_append.mp hmem with hmem | hmem
    · exact h.calls c hmem
    · obtain ⟨m, hm, hholds⟩ := h.slots i hi
      rw [mem_singleton.mp hmem]
      refine ⟨m, hm, ?_⟩
      have hcb := hholds.1
      rw [hcb] at hc ⊢
      simpa using hc.symm
  · intro j hj
    simp [Mailbox.take] at hj
  · intro j hj
    have e : i = j := by simpa [Mailbox.take] using hj
    exact e ▸ hi.1
  · intro j hj
    simp [Mailbox.take] at hj

/-- A step of the receiver that changes nothing but its place. -/
lemma Inv.move (h : Inv s) {pc : ReceiverPc} (ht : ∀ i, pc = .taking i → s.Occupied i)
    (hc : ∀ i, pc = .calling i → i < mailboxQueueDepth)
    (hk : ∀ i, pc = .checking i → i ≤ mailboxQueueDepth) : Inv { s with receiver := pc } :=
  { h with taking := ht, calling := hc, checking := hk }

/-- What the receiver can do. -/
lemma receive_cases (hs : s.receive = some s') :
    (∃ i, s.receiver = .checking i ∧ i < mailboxQueueDepth ∧ ¬ s.Occupied i ∧
        s' = { s with receiver := .checking (i + 1) }) ∨
      (∃ i, s.receiver = .checking i ∧ s.Occupied i ∧ s' = { s with receiver := .taking i }) ∨
      (∃ i, s.receiver = .checking i ∧ mailboxQueueDepth ≤ i ∧ s' = { s with receiver := .idle }) ∨
      (∃ i callback, s.receiver = .taking i ∧ (s.callbacks i).callback = some callback ∧
        s' = s.take i callback) ∨
      ∃ i, s.receiver = .calling i ∧ s' = { s with receiver := .checking (i + 1) } := by
  rw [receive] at hs
  cases hpc : s.receiver with
  | idle => simp [hpc] at hs
  | checking i =>
    rw [hpc] at hs
    dsimp only at hs
    split_ifs at hs with hi hfree
    · exact .inl ⟨i, rfl, hi, fun h => h.2 (by simpa using hfree), (some.inj hs).symm⟩
    · exact .inr (.inl ⟨i, rfl, ⟨hi, by simpa using hfree⟩, (some.inj hs).symm⟩)
    · exact .inr (.inr (.inl ⟨i, rfl, not_lt.mp hi, (some.inj hs).symm⟩))
  | taking i =>
    rw [hpc] at hs
    obtain ⟨callback, hc, rfl⟩ := map_eq_some_iff.mp hs
    exact .inr (.inr (.inr (.inl ⟨i, callback, rfl, hc, rfl⟩)))
  | calling i =>
    rw [hpc] at hs
    exact .inr (.inr (.inr (.inr ⟨i, rfl, (some.inj hs).symm⟩)))

lemma Inv.receive (h : Inv s) (hs : s.receive = some s') : Inv s' := by
  obtain ⟨i, hpc, hi, -, rfl⟩ | ⟨i, -, hocc, rfl⟩ | ⟨i, -, -, rfl⟩ | ⟨i, callback, hpc, hc, rfl⟩ |
    ⟨i, hpc, rfl⟩ := receive_cases hs
  · refine h.move (by simp) (by simp) fun j hj => ?_
    rw [← ReceiverPc.checking.inj hj]
    exact hi
  · refine h.move (fun j hj => ?_) (by simp) (by simp)
    exact ReceiverPc.taking.inj hj ▸ hocc
  · exact h.move (by simp) (by simp) (by simp)
  · exact h.take (h.taking i hpc) hc
  · refine h.move (by simp) (by simp) fun j hj => ?_
    rw [← ReceiverPc.checking.inj hj]
    exact h.calling i hpc

lemma Inv.step (h : Inv s) {e : MailEvent Core F A} (hs : s.step e = some s') : Inv s' := by
  cases e with
  | send m =>
    cases hs
    exact h.sendIpiMail
  | process =>
    rw [Mailbox.step] at hs
    split_ifs at hs with hidle
    cases hs
    refine h.move (by simp) (by simp) fun j hj => ?_
    rw [← ReceiverPc.checking.inj hj]
    exact zero_le
  | receive => exact h.receive hs

/-- A pass of the receiver is never stuck: it calls no null pointer. -/
lemma Inv.receive_isSome (h : Inv s) (hpc : s.receiver ≠ .idle) : s.receive.isSome := by
  rw [Mailbox.receive]
  cases hat : s.receiver with
  | idle => exact absurd hat hpc
  | checking i =>
    dsimp only
    split_ifs <;> rfl
  | taking i =>
    obtain ⟨callback, hc⟩ := ne_none_iff_exists'.mp (h.taking i hat).2
    simp [hc]
  | calling i => rfl

/-! ### Nothing is lost or done twice -/

lemma filter_eq_singleton {l : List (Call F A)} (hnd : (l.map (·.mail)).Nodup) {c : Call F A}
    (hc : c ∈ l) : (l.filter fun c' => c'.mail = c.mail) = [c] := by
  induction l with
  | nil => cases hc
  | cons a l ih =>
    rw [map_cons, nodup_cons] at hnd
    rcases mem_cons.mp hc with rfl | hc
    · rw [filter_cons_of_pos (by simp), filter_eq_nil_iff.mpr]
      intro c' hc' e
      exact hnd.1 (mem_map.mpr ⟨c', hc', by simpa using e⟩)
    · rw [filter_cons_of_neg, ih hnd.2 hc]
      intro e
      exact hnd.1 (mem_map.mpr ⟨c, hc, by simpa [eq_comm] using e⟩)

lemma Inv.conserved (h : Inv s) : s.Conserved where
  once := by
    intro n m hm
    rcases h.covered n (List.getElem?_eq_some_iff.mp hm).1 with ⟨i, hi, rfl⟩ | hn
    · obtain ⟨m', hm', hholds⟩ := h.slots i hi
      cases hm'.symm.trans hm
      refine .inl ⟨⟨i, ⟨hi.1, hholds⟩, ?_⟩, ?_⟩
      · rintro j ⟨hj, hj'⟩
        exact h.unique j i (hj'.occupied hj) hi hj'.2
      · rw [callsOf, filter_eq_nil_iff]
        intro c hc e
        exact h.fresh i hi (mem_map.mpr ⟨c, hc, by simpa using e⟩)
    · refine .inr ⟨fun i hi e => h.fresh i hi (e ▸ hn), ?_⟩
      obtain ⟨c, hc, rfl⟩ := mem_map.mp hn
      obtain ⟨m', hm', hcall⟩ := h.calls c hc
      cases hm'.symm.trans hm
      rw [callsOf, filter_eq_singleton h.nodup hc, ← hcall]
  slots := h.slots
  executed c hc := h.executed_lt (mem_map.mpr ⟨c, hc, rfl⟩)
  dropped := by
    intro m
    rw [Mailbox.sendIpiMail]
    cases hfree : s.freeSlot with
    | none => exact .inr ⟨rfl, freeSlot_eq_none.mp hfree⟩
    | some i => exact .inl rfl

/-- **Every interleaving of any number of senders with the passes of the receiver** keeps every
accepted mail in one slot until it is executed, once and as it was sent. -/
theorem mail_conserved (arg : ℕ → A) (es : List (MailEvent Core F A)) :
    Always step Conserved (init arg : Mailbox Core F A) es :=
  always_of_invariant Inv (fun _ h => h.conserved) (fun _ _ _ h hs => h.step hs) (inv_init arg) es

end Mailbox

end Northport.Interrupts
