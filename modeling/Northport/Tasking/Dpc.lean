/-
# Deferred procedure calls (`RunLevels.cpp`)

`QueueDpc` puts a `DpcStore` into the queue of the core, and `LowerRunLevel` takes them out one
after the other and calls them.  Here the calls follow one another, so that each `Push` and each
`Pop` is a run of the accesses of the queue that nothing interrupts.  Whether a store is in use is
read off its `next` pointer, which belongs to the queue.
-/
import Northport.Containers.QueueMpSc
import Northport.Lib.FwdList

namespace Northport.Tasking

open Lib QueueMpSc List Function State

/-- The items of the queue: the stores, and the stub of the queue. -/
abbrev DpcItem (Store : Type*) := Option Store

/-- The DPC queue of a core.  What was popped was called right away. -/
abbrev DpcQueue (Store : Type*) := State (DpcItem Store) Unit

inductive DpcOp (Store : Type*) where
  /-- `QueueDpc` -/
  | queueDpc (dpc : Store)
  /-- One turn of the loop of `LowerRunLevel` at the level `Dpc`. -/
  | runNext

namespace DpcQueue

variable {Store : Type*} [DecidableEq Store]

/-- `Push`, without interruption. -/
def push (s : DpcQueue Store) (item : DpcItem Store) : DpcQueue Store :=
  ((s.storeNull item).exchangeHead item).storeNext s.head item

/-- The rest of a `Pop` that has begun. -/
def finishPop : ℕ → DpcQueue Store → DpcQueue Store
  | 0, s => s
  | n + 1, s => if s.popping = .idle then s else finishPop n (pop none s)

section

variable (s : DpcQueue Store)

/-- `Pop`, without interruption. -/
def pop : DpcQueue Store := finishPop 6 (State.pop none s)

/-- What `Pop` returns. -/
def popped? : Option (DpcItem Store) :=
  ((pop s).popped.drop s.popped.length).head?

/-- `QueueDpc`, which refuses a store whose `next` pointer is not null. -/
def queueDpc (dpc : Store) : DpcQueue Store :=
  if s.next (some dpc) = none then push s (some dpc) else s

/-- Take a store out of the queue, clear its pointer and call it. -/
def runNext : DpcQueue Store :=
  match popped? s with
  | none => pop s
  | some dpc => (pop s).storeNull dpc

def step : DpcOp Store → Option (DpcQueue Store)
  | .queueDpc dpc => some (queueDpc s dpc)
  | .runNext => some (runNext s)

/-- The requests that were accepted, in order. -/
def accepted : List (DpcItem Store) := pushes none s

/-- The calls that were made, in order. -/
def called : List (DpcItem Store) := s.popped

/-- The requests that were accepted and not called yet. -/
def pending : List (DpcItem Store) := (accepted s).drop (called s).length

end

/-- **The queue is sound**: the calls are the first of the accepted requests, each of them once, no
store is pending twice, and the pointers lead from `tail` over the pending stores to a null
pointer. -/
structure Sound (s : DpcQueue Store) : Prop where
  called : called s <+: accepted s
  nodup : (pending s).Nodup
  chain : ∃ q, q.head? = some s.tail ∧ Chain s.next q ∧ q.Nodup ∧ q.filter (· ≠ none) = pending s

/-- A request for a pending store is refused and every other one is accepted, a turn of the loop
calls the first pending store, if there is one, and the queue stays sound. -/
def KeepsSound (s : DpcQueue Store) : DpcOp Store → Prop
  | .queueDpc dpc => (some dpc ∈ pending s → queueDpc s dpc = s) ∧
      (some dpc ∉ pending s → pending (queueDpc s dpc) = pending s ++ [some dpc] ∧
        called (queueDpc s dpc) = called s) ∧ Sound (queueDpc s dpc)
  | .runNext => called (runNext s) = called s ++ (pending s).take 1 ∧
      pending (runNext s) = (pending s).drop 1 ∧ Sound (runNext s)

/-- The store is not the one that was queued last and is still pending. -/
def NotLast (s : DpcQueue Store) : DpcOp Store → Prop
  | .queueDpc dpc => (pending s).getLast? ≠ some (some dpc)
  | .runNext => True

/-! ### What the queue holds between the calls -/

/-- The items from `tail` to `head`: the pending stores, behind the stub or without it. -/
def Lists (items : List Store) (q : List (DpcItem Store)) : Prop :=
  q = none :: items.map some ∨ items ≠ [] ∧ q = items.map some

/-- **What the queue holds** between the calls. -/
structure Holds (s : DpcQueue Store) (items : List Store) (q : List (DpcItem Store)) : Prop where
  idle : s.pushing () = .idle ∧ s.popping = .idle
  lists : Lists items q
  tail : q.head? = some s.tail
  head : q.getLast? = some s.head
  chain : Chain s.next q
  nodup : items.Nodup
  log : accepted s = called s ++ items.map some
  /-- The stores that are not pending can be queued. -/
  free : ∀ dpc ∉ items, s.next (some dpc) = none

variable {s : DpcQueue Store} {items : List Store} {q : List (DpcItem Store)} {dpc : Store}

lemma holds_init : Holds (init none : DpcQueue Store) [] [none] where
  idle := ⟨rfl, rfl⟩
  lists := .inl rfl
  tail := rfl
  head := rfl
  chain := ⟨rfl, trivial⟩
  nodup := nodup_nil
  log := rfl
  free _ _ := rfl

section

variable (h : Lists items q)

include h

section

omit [DecidableEq Store]

lemma Lists.mem : some dpc ∈ q ↔ dpc ∈ items := by
  rcases h with rfl | ⟨-, rfl⟩ <;> simp

lemma Lists.nodup (hnd : items.Nodup) : q.Nodup := by
  have hmap := hnd.map (Option.some_injective Store)
  rcases h with rfl | ⟨-, rfl⟩
  · exact nodup_cons.mpr ⟨by simp, hmap⟩
  · exact hmap

lemma Lists.getLast? (hne : items ≠ []) : q.getLast? = items.getLast?.map some := by
  rcases h with rfl | ⟨-, rfl⟩
  · rw [getLast?_cons_of_ne_nil (by simpa using hne), getLast?_map]
  · rw [getLast?_map]

lemma Lists.filter : q.filter (· ≠ none) = items.map some := by
  rcases h with rfl | ⟨-, rfl⟩ <;> simp [filter_map, comp_def]

end

end

section

variable (h : Holds s items q)

include h

lemma Holds.pending_eq : pending s = items.map some := by
  rw [pending, h.log, drop_left]

lemma Holds.sound : Sound s where
  called := ⟨_, h.log.symm⟩
  nodup := by
    rw [h.pending_eq]
    exact h.nodup.map (Option.some_injective Store)
  chain := ⟨q, h.tail, h.chain, h.lists.nodup h.nodup, by rw [h.lists.filter, h.pending_eq]⟩

/-- A pending store has a null pointer exactly if it was queued last. -/
lemma Holds.next_eq_none (hmem : dpc ∈ items) :
    s.next (some dpc) = none ↔ items.getLast? = some dpc := by
  have hne : items ≠ [] := ne_nil_of_mem hmem
  have hlast : q.getLast? = some (some dpc) ↔ items.getLast? = some dpc := by
    rw [h.lists.getLast? hne]
    cases items.getLast? <;> simp
  rw [← hlast]
  exact h.chain.next_eq_none (h.lists.nodup h.nodup) (h.lists.mem.mpr hmem)

/-! ### One call -/

lemma Holds.push (hnot : dpc ∉ items) :
    Holds (push s (some dpc)) (items ++ [dpc]) (q ++ [some dpc]) where
  idle := h.idle
  lists := by
    rcases h.lists with rfl | ⟨-, rfl⟩
    · exact .inl (by simp)
    · exact .inr ⟨by simp, by simp⟩
  tail := by
    have hne : q ≠ [] := by
      rintro rfl
      simpa using h.tail
    rw [head?_append_of_ne_nil _ hne]
    exact h.tail
  head := by rw [getLast?_append]; rfl
  chain := by
    have hq : some dpc ∉ q := fun hmem => hnot (h.lists.mem.mp hmem)
    refine (h.chain.pushBack hq).congr fun x hx => ?_
    have hhead : s.head ∈ q := mem_of_getLast? h.head
    have hheadNe : s.head ≠ some dpc := fun heq => hq (heq ▸ hhead)
    show update (update s.next (some dpc) none) s.head (some (some dpc)) x = _
    rw [Lib.pushBack]
    by_cases hxd : x = some dpc
    · rw [if_pos hxd, hxd, update_of_ne hheadNe.symm, update_self]
    · have hxq : x ∈ q := by
        rcases mem_append.mp hx with hx | hx
        · exact hx
        · exact absurd (mem_singleton.mp hx) hxd
      rw [if_neg hxd]
      by_cases hxh : x = s.head
      · have hnull : s.next x = none := by
          rw [h.chain.next_eq_none (h.lists.nodup h.nodup) hxq, hxh]
          exact h.head
        rw [if_pos ⟨hxq, hnull⟩, hxh, update_self]
      · have hset : s.next x ≠ none := by
          rw [ne_eq, h.chain.next_eq_none (h.lists.nodup h.nodup) hxq, h.head]
          exact fun heq => hxh (Option.some.inj heq).symm
        rw [if_neg fun hand => hset hand.2, update_of_ne hxh, update_of_ne hxd]
  nodup := by
    rw [nodup_append]
    exact ⟨h.nodup, nodup_singleton _, by rintro a ha _ hb rfl; exact hnot (by simp_all)⟩
  log := by
    show (s.exchanges ++ [some dpc]).filter _ = _
    rw [filter_append]
    have hlog := h.log
    rw [accepted, pushes] at hlog
    rw [hlog]
    simp [called, DpcQueue.push, storeNull, exchangeHead, storeNext]
  free other hother := by
    obtain ⟨hitems, hne⟩ : other ∉ items ∧ other ≠ dpc := by simpa [not_or] using hother
    have hhead : s.head ≠ some other := by
      intro heq
      exact hitems (h.lists.mem.mp (heq ▸ mem_of_getLast? h.head))
    show update (update s.next (some dpc) none) s.head (some (some dpc)) (some other) = none
    rw [update_of_ne hhead.symm, update_of_ne (by simpa using hne)]
    exact h.free other hitems

end

/-- `Pop` of an empty queue. -/
lemma pop_empty (hidle : s.popping = .idle) (htail : s.tail = none) (hnext : s.next none = none) :
    pop s = s := by
  simp [pop, finishPop, State.pop, hidle, htail, hnext]

/-- `Pop` of a queue whose first item has a successor. -/
lemma pop_first {a b : DpcItem Store} (hidle : s.popping = .idle)
    (htail : s.tail = none ∧ s.next none = some a ∨ s.tail = a) (ha : a ≠ none)
    (hnext : s.next a = some b) : pop s = { s with tail := b, popped := s.popped ++ [a] } := by
  rcases htail with ⟨htail, hstub⟩ | htail
  · simp [pop, finishPop, State.pop, State.take, State.setTail, State.setPopping, State.returnItem,
      hidle, htail, hstub, hnext]
  · simp [pop, finishPop, State.pop, State.take, State.setTail, State.returnItem, hidle, htail, ha,
      hnext]

/-- `Pop` of the only item, behind which it pushes the stub. -/
lemma pop_last {a : DpcItem Store} (hidle : s.popping = .idle)
    (htail : s.tail = none ∧ s.next none = some a ∨ s.tail = a) (ha : a ≠ none)
    (hnext : s.next a = none) (hhead : s.head = a) :
    pop s = { s with
      next := update (update s.next none none) a (some none)
      head := none
      tail := none
      exchanges := s.exchanges ++ [none]
      popped := s.popped ++ [a] } := by
  rcases htail with ⟨htail, hstub⟩ | htail
  · simp [pop, finishPop, State.pop, State.take, State.setTail, State.setPopping, State.returnItem,
      State.storeNull, State.exchangeHead, State.storeNext, hidle, htail, hstub, hnext, hhead]
  · simp [pop, finishPop, State.pop, State.take, State.setTail, State.setPopping, State.returnItem,
      State.storeNull, State.exchangeHead, State.storeNext, hidle, htail, ha, hnext, hhead]

lemma runNext_of_popped {dpc : DpcItem Store} {s' : DpcQueue Store} (hpop : pop s = s')
    (hs' : s'.popped = s.popped ++ [dpc]) : runNext s = s'.storeNull dpc := by
  have hpopped : popped? s = some dpc := by
    rw [popped?, hpop, hs', drop_left]
    rfl
  rw [runNext, hpopped, hpop]

lemma Holds.runNext_nil (h : Holds s [] q) :
    Holds (runNext s) [] q ∧ called (runNext s) = called s := by
  obtain rfl : q = [none] := by
    rcases h.lists with rfl | ⟨hne, -⟩
    · rfl
    · exact absurd rfl hne
  have htail : s.tail = none := (Option.some.inj h.tail).symm
  have hpop := pop_empty h.idle.2 htail h.chain.1
  have hnone : popped? s = none := by
    rw [popped?, hpop, drop_length]
    rfl
  rw [runNext, hnone, hpop]
  exact ⟨h, rfl⟩

/-- The first pending store is taken out and called. -/
lemma Holds.runNext_cons (h : Holds s (dpc :: items) q) :
    ∃ q', Holds (runNext s) items q' ∧ called (runNext s) = called s ++ [some dpc] := by
  -- the chain from the first store on
  obtain ⟨htail, hchain⟩ : (s.tail = none ∧ s.next none = some (some dpc) ∨ s.tail = some dpc) ∧
      Chain s.next ((dpc :: items).map some) := by
    have hhd := h.tail
    rcases h.lists with rfl | ⟨-, rfl⟩
    · exact ⟨.inl ⟨(Option.some.inj hhd).symm, h.chain.1⟩, h.chain.2⟩
    · exact ⟨.inr (Option.some.inj hhd).symm, h.chain⟩
  have hlast := h.lists.getLast? (cons_ne_nil dpc items)
  rw [h.head] at hlast
  obtain ⟨hnot, hnd⟩ := nodup_cons.mp h.nodup
  have hlog := h.log
  cases items with
  | nil =>
    have hhead : s.head = some dpc := Option.some.inj hlast
    have hpop := pop_last h.idle.2 htail (by simp) hchain.1 hhead
    rw [runNext_of_popped hpop rfl]
    refine ⟨[none], ⟨h.idle, .inl rfl, rfl, rfl, ⟨?_, trivial⟩, nodup_nil, ?_, ?_⟩, rfl⟩
    · show update (update (update s.next none none) (some dpc)
        (some none)) (some dpc) none none = none
      simp
    · show (s.exchanges ++ [none]).filter _ = (s.popped ++ [some dpc]) ++ []
      simpa [accepted, pushes, called] using hlog
    · intro other _
      by_cases hother : other = dpc
      · rw [hother]
        exact update_self ..
      · have hfree := h.free other (by simpa using hother)
        show update (update (update s.next none none) (some dpc)
          (some none)) (some dpc) none (some other) = none
        simpa [hother] using hfree
  | cons y items =>
    have hpop := pop_first h.idle.2 htail (by simp) hchain.1
    rw [runNext_of_popped hpop rfl]
    refine ⟨(y :: items).map some, ⟨h.idle, .inr ⟨by simp, rfl⟩, rfl, ?_, ?_, hnd, ?_, ?_⟩, rfl⟩
    · show _ = some s.head
      rw [hlast, getLast?_map, getLast?_cons_cons]
    · refine hchain.2.congr fun x hx => ?_
      have hne : x ≠ some dpc := by
        rintro rfl
        exact hnot (by simpa using hx)
      exact update_of_ne hne _ _
    · show accepted s = (s.popped ++ [some dpc]) ++ _
      rw [hlog, append_assoc]
      rfl
    · intro other hother
      by_cases heq : other = dpc
      · rw [heq]
        exact update_self ..
      · refine (update_of_ne (by simpa using heq) ..).trans (h.free other ?_)
        exact not_mem_cons_of_ne_of_not_mem heq hother

lemma Holds.runNext (h : Holds s items q) : ∃ q', Holds (runNext s) (items.drop 1) q' ∧
    called (DpcQueue.runNext s) = called s ++ (items.take 1).map some := by
  cases items with
  | nil =>
    obtain ⟨hholds, hcalled⟩ := h.runNext_nil
    exact ⟨q, hholds, by rw [hcalled]; simp⟩
  | cons dpc items => exact h.runNext_cons

lemma Holds.step (h : Holds s items q) {op : DpcOp Store} (hok : NotLast s op) :
    KeepsSound s op ∧ ∀ s', step s op = some s' → ∃ items' q', Holds s' items' q' := by
  cases op with
  | queueDpc dpc =>
    rw [NotLast, h.pending_eq, getLast?_map] at hok
    have hrefuse : dpc ∈ items → queueDpc s dpc = s := by
      intro hmem
      refine if_neg fun hnull => hok ?_
      rw [(h.next_eq_none hmem).mp hnull]
      rfl
    have hpending : some dpc ∈ pending s ↔ dpc ∈ items := by simp [h.pending_eq]
    rw [KeepsSound, hpending]
    by_cases hmem : dpc ∈ items
    · have hsame := hrefuse hmem
      refine ⟨⟨hrefuse, fun hnot => absurd hmem hnot, ?_⟩, ?_⟩
      · rw [hsame]
        exact h.sound
      · intro s' hs
        rw [DpcQueue.step, hsame] at hs
        exact ⟨items, q, Option.some.inj hs ▸ h⟩
    · have haccept : queueDpc s dpc = DpcQueue.push s (some dpc) := if_pos (h.free dpc hmem)
      have hpush := h.push hmem
      refine ⟨⟨hrefuse, fun _ => ?_, ?_⟩, ?_⟩
      · rw [haccept, hpush.pending_eq, h.pending_eq, map_append]
        exact ⟨rfl, rfl⟩
      · rw [haccept]
        exact hpush.sound
      · intro s' hs
        rw [DpcQueue.step, haccept] at hs
        exact ⟨_, _, Option.some.inj hs ▸ hpush⟩
  | runNext =>
    obtain ⟨q', hafter, hcalled⟩ := h.runNext
    refine ⟨⟨?_, ?_, hafter.sound⟩, fun s' hs => ⟨_, q', Option.some.inj hs ▸ hafter⟩⟩
    · rw [hcalled, h.pending_eq, map_take]
    · rw [hafter.pending_eq, h.pending_eq, map_drop]

/-- The store that was queued last is accepted once more. -/
lemma Holds.not_keepsSound (h : Holds s items q) {op : DpcOp Store} (hnot : ¬ NotLast s op) :
    ¬ KeepsSound s op := by
  cases op with
  | runNext => exact absurd trivial hnot
  | queueDpc dpc =>
    rw [NotLast, h.pending_eq] at hnot
    have hlast : items.getLast? = some dpc := by simpa using hnot
    have hmem : dpc ∈ items := mem_of_getLast? hlast
    rintro ⟨hrefuse, -⟩
    have hsame := hrefuse (by simp [h.pending_eq, hmem])
    have hnull := (h.next_eq_none hmem).mpr hlast
    rw [queueDpc, if_pos hnull] at hsame
    -- the log of the exchanges has grown
    have hlog : (s.exchanges ++ [some dpc]).length = s.exchanges.length :=
      congrArg (fun s' => s'.exchanges.length) hsame
    simp at hlog

/-- **Every sequence of `QueueDpc` calls and drains.**  No store is ever pending twice, the pointers
form no cycle, requests for pending stores are refused and all others accepted, and each turn of the
loop calls the request that was accepted first of those that are pending, exactly if `QueueDpc` is
never called for the store that was queued last and is still pending. -/
theorem dpcs_sound_iff (ops : List (DpcOp Store)) :
    Allowed step KeepsSound (init none : DpcQueue Store) ops ↔
      Allowed step NotLast (init none : DpcQueue Store) ops := by
  refine allowed_iff (fun s => ∃ items q, Holds s items q) ?_ ?_ ⟨_, _, holds_init⟩ ops
  · rintro s op ⟨items, q, h⟩
    exact ⟨fun hkeeps => not_not.mp fun hnot => h.not_keepsSound hnot hkeeps,
      fun hok => (h.step hok).1⟩
  · rintro s op s' ⟨items, q, h⟩ hkeeps hs
    have hok : NotLast s op := not_not.mp fun hnot => h.not_keepsSound hnot hkeeps
    exact (h.step hok).2 s' hs

/-- The same store is queued twice: it is accepted twice and its pointer leads to itself. -/
theorem queueDpc_twice : ∃ s : DpcQueue ℕ, run step (init none) [.queueDpc 1, .queueDpc 1] = some s ∧
    pending s = [some 1, some 1] ∧ s.next (some 1) = some (some 1) ∧
    ¬ Allowed step KeepsSound (init none : DpcQueue ℕ) [.queueDpc 1, .queueDpc 1] := by
  refine ⟨_, rfl, rfl, rfl, fun h => ?_⟩
  obtain ⟨⟨-, -, hsound⟩, -⟩ := h.2 _ rfl
  exact absurd hsound.nodup (by decide)

end DpcQueue

end Northport.Tasking
