/-
# The order in which mails are executed

A sender takes the lowest free slot, and the receiver sweeps over the slots upwards and begins
again.  The mails that are in the mailbox are therefore executed in the order in which the sweep
meets their slots, counted from where the receiver stands.  A mail that is written to a slot
ahead of the receiver overtakes one that waits in a slot behind it.
-/
import Northport.Interrupts.Ipi

namespace Northport.Interrupts

open Lib List Function ReceiverPc

/-- How many slots the sweep passes before it meets the slot `j`, when `p` comes next. -/
def sweepFrom (p j : ℕ) : ℕ := if p ≤ j then j - p else j + mailboxQueueDepth - p

lemma sweepFrom_self (p : ℕ) : sweepFrom p p = 0 := by
  rw [sweepFrom, if_pos le_rfl, Nat.sub_self]

variable {j : ℕ}

/-- The sweep passes one slot. -/
lemma sweepFrom_succ {p : ℕ} (hp : p < mailboxQueueDepth) (hj : j < mailboxQueueDepth)
    (hne : j ≠ p) : sweepFrom p j = sweepFrom (p + 1) j + 1 := by
  rw [sweepFrom, sweepFrom]
  split_ifs <;> omega

/-- The sweep begins again. -/
lemma sweepFrom_depth (hj : j < mailboxQueueDepth) :
    sweepFrom mailboxQueueDepth j = sweepFrom 0 j := by
  rw [sweepFrom, sweepFrom, if_neg (not_le.mpr hj), if_pos (Nat.zero_le j)]
  omega

lemma sweepFrom_inj {p i : ℕ} (hp : p ≤ mailboxQueueDepth) (hi : i < mailboxQueueDepth)
    (hj : j < mailboxQueueDepth) (h : sweepFrom p i = sweepFrom p j) : i = j := by
  rw [sweepFrom, sweepFrom] at h
  split_ifs at h <;> omega

namespace ReceiverPc

/-- The slot that the receiver looks at next. -/
def cursor : ReceiverPc → ℕ
  | .idle => 0
  | .checking i => i
  | .taking i => i
  | .calling i => i + 1

/-- The steps up to the next slot, in their order. -/
def rank : ReceiverPc → ℕ
  | .taking _ => 1
  | .checking k => if k < mailboxQueueDepth then 2 else 4
  | .idle => 3
  | .calling _ => 5

end ReceiverPc

namespace Mailbox

variable {Core F A : Type*}

/-- How many slots the receiver passes before it comes to the slot `j`. -/
def sweep (s : Mailbox Core F A) (j : ℕ) : ℕ := sweepFrom s.receiver.cursor j

/-- The core that sent the mail of this number. -/
def senderOf (s : Mailbox Core F A) (n : ℕ) : Option Core := s.accepted[n]?.map (·.sender)

/-- The mails of each core were executed in the order in which they were sent. -/
def Ordered (s : Mailbox Core F A) : Prop :=
  s.executed.Pairwise fun n n' => s.senderOf n = s.senderOf n' → n < n'

/-- Nothing is sent. -/
def Quiet : MailEvent Core F A → Prop
  | .send _ => False
  | _ => True

/-- The mail is dropped, or the sweep meets every mail of the same core that still waits before it
meets the slot that the new one is written to. -/
def SendsInOrder (s : Mailbox Core F A) : MailEvent Core F A → Prop
  | .send m => ∀ i, s.freeSlot = some i → ∀ j, s.Occupied j →
      s.senderOf (s.number j) = some m.sender → s.sweep j < s.sweep i
  | _ => True

variable {s s' : Mailbox Core F A} {i j n : ℕ} {m : Mail Core F A} {e : MailEvent Core F A}

lemma Inv.cursor_le (h : Inv s) : s.receiver.cursor ≤ mailboxQueueDepth := by
  cases hpc : s.receiver with
  | idle => exact zero_le
  | checking i => exact h.checking i hpc
  | taking i => exact (h.taking i hpc).1.le
  | calling i => exact h.calling i hpc

/-! ### The receiver goes on -/

/-- The receiver moves from one place to the next and takes nothing: the sweep comes nearer to every
mail by the same distance. -/
def Moves (s : Mailbox Core F A) (pc : ReceiverPc) : Prop :=
  ∃ d, pc.rank < s.receiver.rank + 8 * d ∧
    ∀ j, s.Occupied j → s.sweep j = sweepFrom pc.cursor j + d

/-- A step of the receiver: it takes the slot in front of it or moves. -/
lemma Inv.quiet_cases (h : Inv s) (hq : Quiet e) (hs : s.step e = some s') :
    (∃ i callback, s.receiver = .taking i ∧ (s.callbacks i).callback = some callback ∧
        s' = s.take i callback) ∨ ∃ pc, s' = { s with receiver := pc } ∧ s.Moves pc := by
  cases e with
  | send m => exact hq.elim
  | process =>
    rw [Mailbox.step] at hs
    split_ifs at hs with hidle
    refine .inr ⟨_, (Option.some.inj hs).symm, 0, ?_, fun j _ => ?_⟩
    · rw [hidle]
      decide
    · rw [sweep, hidle]
      rfl
  | receive =>
    obtain ⟨i, hpc, hi, hfree, rfl⟩ | ⟨i, hpc, hocc, rfl⟩ | ⟨i, hpc, hi, rfl⟩ |
      ⟨i, callback, hpc, hc, rfl⟩ | ⟨i, hpc, rfl⟩ := receive_cases hs
    · refine .inr ⟨_, rfl, 1, ?_, fun j hj => ?_⟩
      · rw [hpc, rank, rank]
        split_ifs <;> omega
      · have hne : j ≠ i := fun e => hfree (e ▸ hj)
        rw [sweep, hpc]
        exact sweepFrom_succ hi hj.1 hne
    · refine .inr ⟨_, rfl, 0, ?_, fun j _ => ?_⟩
      · rw [hpc, rank, rank, if_pos hocc.1]
        omega
      · rw [sweep, hpc]
        rfl
    · refine .inr ⟨_, rfl, 0, ?_, fun j hj => ?_⟩
      · rw [hpc, rank, rank, if_neg (not_lt.mpr hi)]
        omega
      · have hdepth : i = mailboxQueueDepth := le_antisymm (h.checking i hpc) hi
        rw [sweep, hpc, hdepth]
        exact sweepFrom_depth hj.1
    · exact .inl ⟨i, callback, hpc, hc, rfl⟩
    · refine .inr ⟨_, rfl, 0, ?_, fun j _ => ?_⟩
      · rw [hpc, rank, rank]
        split_ifs <;> omega
      · rw [sweep, hpc]
        rfl

/-- The receiver can always go on. -/
lemma Inv.exists_quiet (h : Inv s) : ∃ (e : MailEvent Core F A) (s' : Mailbox Core F A),
    Quiet e ∧ s.step e = some s' := by
  by_cases hidle : s.receiver = .idle
  · exact ⟨.process, _, trivial, if_pos hidle⟩
  · obtain ⟨s', hs⟩ := Option.isSome_iff_exists.mp (h.receive_isSome hidle)
    exact ⟨.receive, s', trivial, hs⟩

lemma sweep_take (callback : F) (hpc : s.receiver = .taking i) (hi : i < mailboxQueueDepth)
    (hj : s.Occupied j) (hne : j ≠ i) : s.sweep j = (s.take i callback).sweep j + 1 := by
  rw [sweep, hpc]
  exact sweepFrom_succ hi hj.1 hne

/-- How far the receiver is from taking the slot. -/
def distance (s : Mailbox Core F A) (i : ℕ) : ℕ := 8 * s.sweep i + s.receiver.rank

/-- A step of the receiver towards the slot `i` that leaves the slots behind it as they are. -/
structure Approaches (s s' : Mailbox Core F A) (i : ℕ) : Prop where
  nearer : s'.distance i < s.distance i
  accepted : s'.accepted = s.accepted
  number : s'.number = s.number
  kept : ∀ j, s.Occupied j → s.sweep i ≤ s.sweep j → s'.Occupied j
  sweep : ∃ d, ∀ j, s'.Occupied j → s.sweep j = s'.sweep j + d
  executed : ∀ n ∈ s.executed, n ∈ s'.executed

/-- The receiver comes nearer to a slot that is occupied until it takes it. -/
lemma Inv.approach (h : Inv s) (hi : s.Occupied i) (hpc : s.receiver ≠ .taking i) :
    ∃ e s', Quiet e ∧ s.step e = some s' ∧ Approaches s s' i := by
  obtain ⟨e, s', hq, hs⟩ := h.exists_quiet
  refine ⟨e, s', hq, hs, ?_⟩
  obtain ⟨k, callback, hat, hc, rfl⟩ | ⟨pc, rfl, d, hrank, hd⟩ := h.quiet_cases hq hs
  · have hk := h.taking k hat
    have hne : i ≠ k := fun e => hpc (e ▸ hat)
    have hsweep := sweep_take callback hat hk.1 hi hne
    have hzero : s.sweep k = 0 := by
      rw [sweep, hat]
      exact sweepFrom_self k
    refine ⟨?_, rfl, rfl, fun j hj hle => ?_, ⟨1, fun j hj => ?_⟩, fun n hn => ?_⟩
    · rw [distance, distance, hsweep, hat]
      show 8 * (s.take k callback).sweep i + 5 < 8 * ((s.take k callback).sweep i + 1) + 1
      omega
    · refine occupied_take.mpr ⟨fun e => ?_, hj⟩
      rw [e] at hle
      omega
    · obtain ⟨hne, hj⟩ := occupied_take.mp hj
      exact sweep_take callback hat hk.1 hj hne
    · obtain ⟨c, hc, rfl⟩ := mem_map.mp hn
      exact mem_map.mpr ⟨c, mem_append_left _ hc, rfl⟩
  · refine ⟨?_, rfl, rfl, fun j hj _ => hj, ⟨d, hd⟩, fun _ hn => hn⟩
    have hsweep := hd i hi
    rw [distance, distance, hsweep]
    show 8 * sweepFrom pc.cursor i + pc.rank < 8 * (sweepFrom pc.cursor i + d) + s.receiver.rank
    omega

/-! ### A mail that was overtaken -/

abbrev SettledOrder (s : Mailbox Core F A) : Prop := Settled step Quiet Ordered s

lemma Approaches.senderOf (h : Approaches s s' i) (n : ℕ) : s'.senderOf n = s.senderOf n := by
  rw [Mailbox.senderOf, Mailbox.senderOf, h.accepted]

lemma Inv.take_of_taking (h : Inv s) (hpc : s.receiver = .taking i) :
    ∃ callback, (s.callbacks i).callback = some callback ∧
      s.step .receive = some (s.take i callback) := by
  obtain ⟨callback, hc⟩ := Option.ne_none_iff_exists'.mp (h.taking i hpc).2
  refine ⟨callback, hc, ?_⟩
  rw [Mailbox.step, Mailbox.receive, hpc]
  dsimp only
  rw [hc]
  rfl

lemma executed_take {callback : F} : (s.take i callback).executed = s.executed ++ [s.number i] := by
  rw [executed, take, map_append]
  rfl

/-- A later mail of the same core was executed while an earlier one still waits. -/
lemma Inv.not_settled_of_executed (h : Inv s) (hj : s.Occupied j) (hn : n ∈ s.executed)
    (hsender : s.senderOf n = s.senderOf (s.number j)) (hlt : s.number j < n) :
    ¬ SettledOrder s := by
  -- the receiver goes on until it takes the slot of the earlier mail
  induction hd : s.distance j using Nat.strong_induction_on generalizing s with
  | _ d ih =>
    subst hd
    intro hset
    by_cases hpc : s.receiver = .taking j
    · obtain ⟨callback, -, hstep⟩ := h.take_of_taking hpc
      have hord := (hset.next hstep trivial).now
      rw [Ordered, executed_take, pairwise_append] at hord
      exact hlt.not_ge (hord.2.2 n hn _ (mem_singleton_self _) hsender).le
    · obtain ⟨e, s', hq, hs, happ⟩ := h.approach hj hpc
      refine ih _ happ.nearer (h.step hs) (happ.kept j hj le_rfl) (happ.executed n hn) ?_ ?_ rfl
        (hset.next hs hq)
      · rw [happ.senderOf, happ.senderOf, happ.number, hsender]
      · rw [happ.number]
        exact hlt

/-- A later mail of the same core lies ahead of an earlier one. -/
lemma Inv.not_settled_of_ahead (h : Inv s) (hi : s.Occupied i) (hj : s.Occupied j)
    (hahead : s.sweep i < s.sweep j)
    (hsender : s.senderOf (s.number i) = s.senderOf (s.number j))
    (hlt : s.number j < s.number i) : ¬ SettledOrder s := by
  -- the receiver goes on until it takes the slot of the later mail
  induction hd : s.distance i using Nat.strong_induction_on generalizing s with
  | _ d ih =>
    subst hd
    intro hset
    by_cases hpc : s.receiver = .taking i
    · obtain ⟨callback, hc, hstep⟩ := h.take_of_taking hpc
      have hne : j ≠ i := fun e => hahead.ne (by rw [e])
      refine (h.take hi hc).not_settled_of_executed (occupied_take.mpr ⟨hne, hj⟩) ?_ hsender hlt
        (hset.next hstep trivial)
      rw [executed_take]
      exact mem_append_right _ (mem_singleton_self _)
    · obtain ⟨e, s', hq, hs, happ⟩ := h.approach hi hpc
      have hi' := happ.kept i hi le_rfl
      have hj' := happ.kept j hj hahead.le
      obtain ⟨d, hd⟩ := happ.sweep
      refine ih _ happ.nearer (h.step hs) hi' hj' ?_ ?_ ?_ rfl (hset.next hs hq)
      · have := hd i hi'
        have := hd j hj'
        omega
      · rw [happ.senderOf, happ.senderOf, happ.number, hsender]
      · rw [happ.number]
        exact hlt

/-! ### Mails in order -/

/-- The mails of each core that wait stand in the order of the sweep, behind those that were
executed. -/
structure Lined (s : Mailbox Core F A) : Prop extends Inv s where
  ordered : s.Ordered
  behind : ∀ n ∈ s.executed, ∀ j, s.Occupied j → s.senderOf n = s.senderOf (s.number j) →
    n < s.number j
  lined : ∀ i j, s.Occupied i → s.Occupied j →
    s.senderOf (s.number i) = s.senderOf (s.number j) → s.number i < s.number j →
    s.sweep i < s.sweep j

lemma lined_init (arg : ℕ → A) : Lined (init arg : Mailbox Core F A) where
  toInv := inv_init arg
  ordered := Pairwise.nil
  behind := nofun
  lined _ _ hi := absurd rfl hi.2

lemma Lined.quiet (h : Lined s) (hq : Quiet e) (hs : s.step e = some s') : Lined s' := by
  have hinv := h.toInv.step hs
  obtain ⟨k, callback, hpc, -, rfl⟩ | ⟨pc, rfl, d, -, hd⟩ := h.quiet_cases hq hs
  · have hk := h.taking k hpc
    have hzero : s.sweep k = 0 := by
      rw [sweep, hpc]
      exact sweepFrom_self k
    -- the mail that is taken is the first one of its core
    have hfirst : ∀ j, s.Occupied j → j ≠ k →
        s.senderOf (s.number k) = s.senderOf (s.number j) → s.number k < s.number j := by
      intro j hj hne hsender
      rcases Nat.lt_trichotomy (s.number k) (s.number j) with hlt | heq | hgt
      · exact hlt
      · exact absurd (h.unique k j hk hj heq).symm hne
      · have := h.lined j k hj hk hsender.symm hgt
        omega
    refine ⟨hinv, ?_, ?_, ?_⟩
    · rw [Ordered, executed_take, pairwise_append]
      refine ⟨h.ordered, pairwise_singleton _ _, fun n hn n' hn' hsender => ?_⟩
      rw [mem_singleton.mp hn'] at hsender ⊢
      exact h.behind n hn k hk hsender
    · intro n hn j hj hsender
      obtain ⟨hne, hj⟩ := occupied_take.mp hj
      rw [executed_take, mem_append, mem_singleton] at hn
      rcases hn with hn | rfl
      · exact h.behind n hn j hj hsender
      · exact hfirst j hj hne hsender
    · intro i j hi hj hsender hlt
      obtain ⟨hi', hi⟩ := occupied_take.mp hi
      obtain ⟨hj', hj⟩ := occupied_take.mp hj
      have := h.lined i j hi hj hsender hlt
      have := sweep_take callback hpc hk.1 hi hi'
      have := sweep_take callback hpc hk.1 hj hj'
      omega
  · refine ⟨hinv, h.ordered, h.behind, fun i j hi hj hsender hlt => ?_⟩
    have hlined := h.lined i j hi hj hsender hlt
    rw [hd i hi, hd j hj] at hlined
    exact Nat.lt_of_add_lt_add_right hlined

lemma senderOf_accept (hn : n < s.accepted.length) : (s.accept i m).senderOf n = s.senderOf n := by
  rw [senderOf, senderOf, accept, getElem?_append_left hn]

lemma senderOf_accept_self : (s.accept i m).senderOf s.accepted.length = some m.sender := by
  rw [senderOf, accept, getElem?_concat_length]
  rfl

lemma Lined.accept (h : Lined s) (hi : i < mailboxQueueDepth) (hfree : ¬ s.Occupied i)
    (hok : ∀ j, s.Occupied j → s.senderOf (s.number j) = some m.sender → s.sweep j < s.sweep i) :
    Lined (s.accept i m) := by
  have hself : (s.accept i m).number i = s.accepted.length := update_self ..
  have hnumber : ∀ j, j ≠ i → (s.accept i m).number j = s.number j :=
    fun j hj => update_of_ne hj ..
  refine ⟨h.toInv.accept hi hfree, ?_, ?_, ?_⟩
  · refine h.ordered.imp_of_mem fun {n n'} hn hn' hlt hsender => hlt ?_
    rwa [senderOf_accept (h.executed_lt hn), senderOf_accept (h.executed_lt hn')] at hsender
  · intro n hn j hj hsender
    rcases occupied_accept.mp hj with ⟨rfl, -⟩ | ⟨hne, hj⟩
    · rw [hself]
      exact h.executed_lt hn
    · rw [hnumber j hne, senderOf_accept (h.executed_lt hn),
        senderOf_accept (h.number_lt hj)] at hsender
      rw [hnumber j hne]
      exact h.behind n hn j hj hsender
  · intro j k hj hk hsender hlt
    rcases occupied_accept.mp hj with ⟨ej, -⟩ | ⟨ej, hj'⟩ <;>
      rcases occupied_accept.mp hk with ⟨ek, -⟩ | ⟨ek, hk'⟩
    · rw [ej, ek] at hlt
      exact absurd hlt (lt_irrefl _)
    · rw [ej, hself, hnumber k ek] at hlt
      exact absurd (h.number_lt hk') hlt.not_gt
    · rw [ek, hself, hnumber j ej, senderOf_accept (h.number_lt hj'), senderOf_accept_self]
        at hsender
      rw [ek]
      exact hok j hj' hsender
    · rw [hnumber j ej, hnumber k ek] at hsender hlt
      rw [senderOf_accept (h.number_lt hj'), senderOf_accept (h.number_lt hk')] at hsender
      exact h.lined j k hj' hk' hsender hlt

lemma Lined.step (h : Lined s) (hok : s.SendsInOrder e) (hs : s.step e = some s') : Lined s' := by
  cases e with
  | send m =>
    cases hs
    rw [sendIpiMail]
    cases hfree : s.freeSlot with
    | none =>
      have hinv := h.toInv.sendIpiMail (m := m)
      rw [sendIpiMail, hfree] at hinv
      exact ⟨hinv, h.ordered, h.behind, h.lined⟩
    | some i =>
      obtain ⟨hi, hocc, -⟩ := freeSlot_eq_some.mp hfree
      exact h.accept hi hocc (hok i hfree)
  | process => exact h.quiet (e := .process) trivial hs
  | receive => exact h.quiet (e := .receive) trivial hs

/-- A mail that is written ahead of an earlier one of the same core will overtake it. -/
lemma Inv.not_settled_send (h : Inv s) (hnot : ¬ s.SendsInOrder (.send m)) :
    ¬ SettledOrder (s.sendIpiMail m) := by
  rw [SendsInOrder] at hnot
  push Not at hnot
  obtain ⟨i, hfree, j, hj, hsender, hle⟩ := hnot
  obtain ⟨hi, hocc, -⟩ := freeSlot_eq_some.mp hfree
  have hne : j ≠ i := fun e => hocc (e ▸ hj)
  have hself : (s.accept i m).number i = s.accepted.length := update_self ..
  have hnumber : (s.accept i m).number j = s.number j := update_of_ne hne ..
  rw [Mailbox.sendIpiMail, hfree]
  refine (h.accept hi hocc).not_settled_of_ahead (occupied_accept.mpr (.inl ⟨rfl, hi⟩))
    (occupied_accept.mpr (.inr ⟨hne, hj⟩)) ?_ ?_ ?_
  · refine lt_of_le_of_ne hle fun e => hne ?_
    exact (sweepFrom_inj h.cursor_le hi hj.1 e).symm
  · rw [hself, hnumber, senderOf_accept_self, senderOf_accept (h.number_lt hj), hsender]
  · rw [hself, hnumber]
    exact h.number_lt hj

/-- **Every interleaving of sends with the passes of the receiver.**  The mails of each core are
executed in the order in which they were sent, also those that still wait, exactly if no mail is
written to a slot that the sweep meets before the slot of an earlier mail of the same core. -/
theorem mail_in_order_iff (arg : ℕ → A) (es : List (MailEvent Core F A)) :
    Always step SettledOrder (init arg : Mailbox Core F A) es ↔
      Allowed step SendsInOrder (init arg : Mailbox Core F A) es := by
  refine always_settled_iff_allowed Lined ?_ ?_ (fun _ _ _ h hok hs => h.step hok hs)
    (lined_init arg) es
  · intro s h
    exact settled_of_invariant Lined (fun _ h => h.ordered) (fun _ _ _ h hq hs => h.quiet hq hs) h
  · intro s e h hnot
    cases e with
    | send m => exact ⟨_, rfl, h.not_settled_send hnot⟩
    | process => exact absurd trivial hnot
    | receive => exact absurd trivial hnot

/-- The callbacks of the clock. -/
inductive ClockCallback where
  | remoteQueueClockEvent
  | remoteDequeueClockEvent
deriving DecidableEq, Repr

/-- While the receiver executes the mail of slot 0, core 1 queues and then dequeues the event 7: the
first mail goes to slot 0, the second one to slot 1, and the receiver dequeues the event before it
queues it. -/
theorem dequeue_overtakes_queue : ∃ s : Mailbox ℕ ClockCallback ℕ, run step (init fun _ => 0)
    ([.send ⟨1, .remoteQueueClockEvent, 5⟩, .process, .receive, .receive,
      .send ⟨1, .remoteQueueClockEvent, 7⟩, .send ⟨1, .remoteDequeueClockEvent, 7⟩] ++
      replicate 67 .receive ++ [.process, .receive, .receive]) = some s ∧
    s.calls = [⟨0, .remoteQueueClockEvent, 5⟩, ⟨2, .remoteDequeueClockEvent, 7⟩,
      ⟨1, .remoteQueueClockEvent, 7⟩] ∧ ¬ s.Ordered := by
  refine ⟨_, rfl, rfl, fun h => ?_⟩
  -- the two clock mails of core 1
  have hpair := (pairwise_cons.mp (pairwise_cons.mp h).2).1 1 mem_cons_self rfl
  exact absurd hpair (by decide)

/-! ### No mail is left behind -/

/-- **Every mail is executed**: in whatever state the receiver is, its own steps lead to every mail
that waits. -/
theorem mail_executed (arg : ℕ → A) (es : List (MailEvent Core F A)) :
    Always step (fun s => ∀ i, s.Occupied i → ∃ es' s', (∀ e ∈ es', Quiet e) ∧
      es'.length ≤ s.distance i ∧ run step s es' = some s' ∧ s.number i ∈ s'.executed)
      (init arg : Mailbox Core F A) es := by
  refine always_of_invariant Inv (fun s h i hi => ?_) (fun _ _ _ h hs => h.step hs) (inv_init arg)
    es
  induction hd : s.distance i using Nat.strong_induction_on generalizing s with
  | _ d ih =>
    subst hd
    by_cases hpc : s.receiver = .taking i
    · obtain ⟨callback, -, hstep⟩ := h.take_of_taking hpc
      refine ⟨[.receive], _, by simp [Quiet], ?_, run_cons hstep [], ?_⟩
      · rw [distance, hpc]
        exact Nat.le_add_left ..
      · rw [executed_take]
        exact mem_append_right _ (mem_singleton_self _)
    · obtain ⟨e, s₁, hq, hs, happ⟩ := h.approach hi hpc
      obtain ⟨es', s', hes, hle, hrun, hexec⟩ :=
        ih _ happ.nearer s₁ (h.step hs) (happ.kept i hi le_rfl) rfl
      refine ⟨e :: es', s', forall_mem_cons.mpr ⟨hq, hes⟩, ?_, (run_cons hs es').trans hrun, ?_⟩
      · exact hle.trans_lt happ.nearer
      · exact happ.number ▸ hexec

end Mailbox

end Northport.Interrupts
