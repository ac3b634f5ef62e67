/-
# The available ring of a virtqueue (`Transport.cpp`)

`BeginCommand` writes a descriptor into the ring and then advances the index of the ring.  The device
counts the entries that it took in 16 bits and takes entry `i` from slot `i mod size`, as long as its
counter differs from the index.  The driver lets the index wrap around at the size of the queue: from
then on the two do not mean the same.
-/
import Northport.Lib.Run

namespace Northport.Drivers

open Lib List Option

/-- The ring and the counter of the device, with the chains that were begun and taken. -/
structure Virtqueue where
  index : ℕ := 0
  ring : ℕ → ℕ := fun _ => 0
  /-- The descriptor of the command that holds the lock of the ring. -/
  writing : Option ℕ := none
  lastSeen : ℕ := 0
  begun : List ℕ := []
  consumed : List ℕ := []
  completed : ℕ := 0

/-- The two writes of `BeginCommand`, and what the device does. -/
inductive VirtqueueOp where
  | write (descId : ℕ)
  | publish
  | take
  | complete
deriving DecidableEq, Repr

namespace Virtqueue

/-- `avail->index = (availIndex + 1) % size` -/
def advance (size : ℕ) (s : Virtqueue) (descId : ℕ) : Virtqueue :=
  { s with index := (s.index + 1) % size, writing := none, begun := s.begun ++ [descId] }

/-- The device takes an entry. -/
def takeEntry (size : ℕ) (s : Virtqueue) : Virtqueue :=
  { s with consumed := s.consumed ++ [s.ring (s.lastSeen % size)],
           lastSeen := (s.lastSeen + 1) % 0x10000 }

/-- A step; not more than `size` commands are outstanding. -/
def step (size : ℕ) (s : Virtqueue) : VirtqueueOp → Option Virtqueue
  | .write descId =>
    if s.writing = none ∧ descId < size ∧ s.begun.length < s.completed + size then
      some { s with ring := Function.update s.ring s.index descId, writing := some descId }
    else none
  | .publish => s.writing.map (s.advance size)
  | .take => if s.lastSeen = s.index then none else some (s.takeEntry size)
  | .complete =>
    if s.completed < s.consumed.length then some { s with completed := s.completed + 1 } else none

/-- The steps of the device. -/
def Device : VirtqueueOp → Prop
  | .take | .complete => True
  | .write _ | .publish => False

/-- **Exactly once and in order**: the device took the chains as they were begun, and all of them
when it finds nothing more to take. -/
def InOrder (s : Virtqueue) : Prop :=
  s.consumed <+: s.begun ∧ (s.lastSeen = s.index → s.consumed = s.begun)

/-- The index is not about to wrap around. -/
def NoWrap (size : ℕ) (s : Virtqueue) : VirtqueueOp → Prop
  | .publish => s.writing ≠ none → s.begun.length + 1 < size
  | _ => True

/-- The ring before its first wrap: slot and counter agree with the position in the list. -/
structure Inv (size : ℕ) (s : Virtqueue) : Prop where
  short : s.begun = [] ∨ s.begun.length < size
  index : s.index = s.begun.length
  lastSeen : s.lastSeen = s.consumed.length
  consumed : s.consumed <+: s.begun
  ring : ∀ i, (h : i < s.begun.length) → s.ring i = s.begun[i]
  writing : ∀ d, s.writing = some d → s.ring s.index = d ∧ d < size

variable {size : ℕ} {s s' : Virtqueue} {d : ℕ}

section

variable (h : Inv size s)

include h

lemma Inv.inOrder : s.InOrder := by
  refine ⟨h.consumed, fun hseen => ?_⟩
  rw [h.lastSeen, h.index] at hseen
  exact h.consumed.eq_of_length hseen

lemma Inv.write (hd : d < size) :
    Inv size { s with ring := Function.update s.ring s.index d, writing := some d } := by
  refine { h with ring := fun i hi => ?_, writing := fun d' hd' => ?_ }
  · have hne : i ≠ s.index := fun heq => absurd hi (by rw [heq, h.index]; exact lt_irrefl _)
    exact (Function.update_of_ne hne ..).trans (h.ring i hi)
  · cases hd'
    exact ⟨Function.update_self .., hd⟩

lemma Inv.publish (hd : s.writing = some d) (hlt : s.begun.length + 1 < size) :
    Inv size (s.advance size d) where
  short := .inr (by simpa [advance] using hlt)
  index := by
    rw [advance, h.index, length_append]
    exact Nat.mod_eq_of_lt hlt
  lastSeen := h.lastSeen
  consumed := h.consumed.trans (prefix_append _ _)
  ring := by
    intro i hi
    simp only [advance, length_append, length_singleton] at hi ⊢
    rcases Nat.lt_succ_iff_lt_or_eq.mp hi with hi | rfl
    · rw [getElem_append_left hi]
      exact h.ring i hi
    · rw [getElem_concat_length rfl, ← h.index]
      exact (h.writing d hd).1
  writing := fun _ hd' => absurd hd' nofun

lemma Inv.take (hsize : size < 0x10000) (hseen : s.lastSeen ≠ s.index) :
    Inv size (s.takeEntry size) := by
  rw [h.lastSeen, h.index] at hseen
  have hlt : s.consumed.length < s.begun.length := lt_of_le_of_ne h.consumed.length_le hseen
  have hshort : s.begun.length < size := h.short.resolve_left fun hnil => by
    rw [hnil] at hlt
    cases hlt
  refine { h with lastSeen := ?_, consumed := ?_ }
  · rw [takeEntry, h.lastSeen, length_append, length_singleton]
    exact Nat.mod_eq_of_lt (by omega)
  · have hnext : s.ring (s.lastSeen % size) = s.begun[s.consumed.length] := by
      rw [h.lastSeen, Nat.mod_eq_of_lt (by omega)]
      exact h.ring _ hlt
    have htake : s.consumed = s.begun.take s.consumed.length := prefix_iff_eq_take.mp h.consumed
    rw [takeEntry, hnext]
    nth_rewrite 1 [htake]
    rw [take_concat_get' _ _ hlt]
    exact take_prefix _ _

lemma Inv.step (hsize : size < 0x10000) {o : VirtqueueOp} (hok : s.NoWrap size o)
    (hs' : s.step size o = some s') : Inv size s' := by
  cases o with
  | write d =>
    obtain ⟨hguard, hs'⟩ := ite_none_right_eq_some.mp hs'
    cases hs'
    exact h.write hguard.2.1
  | publish =>
    obtain ⟨d, hd, rfl⟩ := map_eq_some_iff.mp hs'
    exact h.publish hd (hok (by rw [hd]; exact nofun))
  | take =>
    obtain ⟨hseen, hs'⟩ := ite_none_left_eq_some.mp hs'
    cases hs'
    exact h.take hsize hseen
  | complete =>
    obtain ⟨-, hs'⟩ := ite_none_right_eq_some.mp hs'
    cases hs'
    exact { h with }

end

variable (size) in
/-- When the index is 0 again, the device goes on taking entries. -/
lemma run_take (hindex : s.index = 0) {n : ℕ} (hpos : 0 < s.lastSeen)
    (hn : s.lastSeen + n ≤ 0x10000) : ∃ s', run (step size) s (replicate n .take) = some s' ∧
      s'.begun = s.begun ∧ s'.consumed.length = s.consumed.length + n := by
  induction n generalizing s with
  | zero => exact ⟨s, rfl, rfl, rfl⟩
  | succ n ih =>
    have hstep : s.step size .take = some (s.takeEntry size) := if_neg (by omega)
    have hlen : (s.takeEntry size).consumed.length = s.consumed.length + 1 := by simp [takeEntry]
    rw [replicate_succ, run_cons hstep]
    rcases Nat.eq_zero_or_pos n with rfl | hn'
    · exact ⟨s.takeEntry size, rfl, rfl, hlen⟩
    · have hmod : (s.takeEntry size).lastSeen = s.lastSeen + 1 := Nat.mod_eq_of_lt (by omega)
      obtain ⟨s', hs', hbegun, hlen'⟩ := ih (s := s.takeEntry size) hindex (by omega) (by omega)
      exact ⟨s', hs', hbegun, by omega⟩

/-- The command with which the index wraps around: the device misses the chains, or it takes some of
them once more. -/
lemma Inv.wrap (hsize : size < 0x10000) (h : Inv size s) (hd : s.writing = some d)
    (hlen : ¬ s.begun.length + 1 < size) : ∃ s', s.step size .publish = some s' ∧
      ¬ Settled (Virtqueue.step size) Device InOrder s' := by
  have hpos := (h.writing d hd).2
  have hshort : s.begun.length + 1 = size := by
    rcases h.short with hnil | hlt
    · rw [hnil] at hlen ⊢
      simp only [length_nil] at hlen ⊢
      omega
    · omega
  refine ⟨s.advance size d, by rw [Virtqueue.step, hd]; rfl, fun hsettled => ?_⟩
  have hindex : (s.advance size d).index = 0 := by
    rw [advance, h.index, hshort, Nat.mod_self]
  have hbegun : (s.advance size d).begun.length = size := by
    rw [advance, length_append, length_singleton, hshort]
  have hconsumed : (s.advance size d).consumed.length = s.consumed.length := rfl
  have hseen : (s.advance size d).lastSeen = s.consumed.length := h.lastSeen
  have hle := h.consumed.length_le
  rcases Nat.eq_zero_or_pos s.consumed.length with hzero | htaken
  · have heq := congrArg length (hsettled.now.2 (by rw [hseen, hindex, hzero]))
    omega
  · obtain ⟨s', hs', hbegun', hconsumed'⟩ := run_take size hindex
      (n := size + 1 - s.consumed.length) (by omega) (by omega)
    have hprefix := ((hsettled _ fun o ho => by
      rw [eq_of_mem_replicate ho]; exact trivial).of_run hs').1.length_le
    rw [hbegun'] at hprefix
    omega

/-- **The device consumes every chain once and in order exactly if fewer commands are begun than the
queue has slots.** -/
theorem inOrder_iff_noWrap (size : Fin 0x10000) (ops : List VirtqueueOp) :
    Always (step size) (Settled (step size) Device InOrder) {} ops ↔
      Allowed (step size) (NoWrap size) {} ops := by
  have hsize : (size : ℕ) < 0x10000 := size.isLt
  refine always_settled_iff_allowed (Inv size) (fun s h => ?_) (fun s o h hok => ?_)
    (fun s o s' h hok hs' => h.step hsize hok hs') ?_ ops
  · refine settled_of_invariant (Inv size) (fun s h => h.inOrder) (fun s o s' h ho hs' => ?_) h
    refine h.step hsize ?_ hs'
    cases o with
    | publish => exact absurd ho id
    | write d => exact trivial
    | take => exact trivial
    | complete => exact trivial
  · cases o with
    | publish =>
      rw [NoWrap, Classical.not_imp] at hok
      obtain ⟨d, hd⟩ := ne_none_iff_exists'.mp hok.1
      exact h.wrap hsize hd hok.2
    | write d => exact absurd trivial hok
    | take => exact absurd trivial hok
    | complete => exact absurd trivial hok
  · exact ⟨.inl rfl, rfl, rfl, prefix_rfl, nofun,
      fun d hd => absurd hd nofun⟩

/-- **A queue of two slots**: with the second command the index is 0 again, and a device that has
taken nothing yet sees an empty ring. -/
theorem two_commands_unseen :
    (run (step 2) {} [.write 0, .publish, .write 1, .publish]).map
      (fun s => (s.begun, s.consumed, s.lastSeen, s.index)) = some ([0, 1], [], 0, 0) ∧
    ¬ Always (step 2) (Settled (step 2) Device InOrder) {}
      [.write 0, .publish, .write 1, .publish] := by
  have hrun : (run (step 2) {} [.write 0, .publish, .write 1, .publish]).map
      (fun s => (s.begun, s.consumed, s.lastSeen, s.index)) = some ([0, 1], [], 0, 0) := by decide
  obtain ⟨s, hs, hfields⟩ := map_eq_some_iff.mp hrun
  simp only [Prod.mk.injEq] at hfields
  obtain ⟨hbegun, hconsumed, hseen, hindex⟩ := hfields
  refine ⟨hrun, fun halways => ?_⟩
  have heq := (halways.of_run hs).now.2 (hseen.trans hindex.symm)
  rw [hbegun, hconsumed] at heq
  cases heq

end Virtqueue

end Northport.Drivers
