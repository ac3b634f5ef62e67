/-
# Every interleaving of the queue with many producers

Behind every state stands the list of the items from `tail` to `head`: the items for which
`head` was exchanged and that the consumer has not left behind.  Its neighbours are linked,
or one thread is about to link them.  Each access of a producer or of the consumer keeps
this picture, and the exchanges of `head` are what was popped followed by what the list
holds.
-/
import Northport.Containers.QueueMpSc

namespace Northport.QueueMpSc

open Lib List Function State PopPc PushPc

/-- The local variable `end` of a running `Pop`. -/
def PopPc.last? {Item : Type*} : PopPc Item → Option Item
  | .idle => none
  | .behindStub last => some last
  | .checkHead last => some last
  | .clearStub last => some last
  | .exchangeStub last => some last
  | .linkStub last _ => some last
  | .reload last => some last

variable {Item Thread : Type*} [DecidableEq Item] (stub : Item)

/-- What the producers rely on: an item before its exchange is outside the queue and points
nowhere, no two threads push one item, and nobody but the consumer pushes the stub. -/
structure Producers (next : Item → Option Item) (pushing : Thread → PushPc Item)
    (q : List Item) : Prop where
  cleared : ∀ t x, pushing t = .cleared x → x ∉ q ∧ next x = none
  owner : ∀ t t' x, (pushing t).item? = some x → (pushing t').item? = some x → t = t'
  proper : ∀ t x, (pushing t).item? = some x → x ≠ stub

/-- What the consumer relies on: `end` is the tail and not the stub, and the stub is outside
the queue when the consumer is about to push it. -/
structure Consumer (next : Item → Option Item) (tail : Item) (popping : PopPc Item)
    (q : List Item) : Prop where
  last : ∀ x, popping.last? = some x → x = tail ∧ x ≠ stub
  stub_out : ∀ x, popping = .clearStub x ∨ popping = .exchangeStub x → stub ∉ q
  stub_null : ∀ x, popping = .exchangeStub x → next stub = none

/-- **The invariant**, with the list `q` of the items from `tail` to `head`. -/
structure Inv (s : State Item Thread) (q : List Item) : Prop where
  queue : GapQueue s.next (Pending stub s) s.head s.tail q
  producers : Producers stub s.next s.pushing q
  consumer : Consumer stub s.next s.tail s.popping q
  /-- The exchanges of `head`, with the stub of the constructor, are what the consumer has left
  behind followed by the queue. -/
  fifo : ∃ passed, stub :: s.exchanges = passed ++ q ∧ s.popped = passed.filter (· ≠ stub)

variable {stub} {s : State Item Thread} {q : List Item} {t : Thread} {x prev : Item}

lemma inv_init : Inv stub (init stub : State Item Thread) [stub] where
  queue := by
    refine ⟨nodup_singleton stub, rfl, rfl, ⟨.inl rfl, trivial⟩, ?_⟩
    rintro a b (⟨t, ht⟩ | ⟨-, x, hx⟩)
    · exact absurd ht (by simp [init])
    · exact absurd hx (by simp [init])
  producers := ⟨by simp [init], by simp [init, item?], by simp [init, item?]⟩
  consumer := ⟨by simp [init, last?], by simp [init], by simp [init]⟩
  fifo := ⟨[], rfl, rfl⟩

/-- A free item is outside the queue. -/
lemma Inv.notMem_of_free (h : Inv stub s q) (hx : Free stub s x) : x ∉ q := by
  obtain ⟨hstub, hcount, -⟩ := hx
  obtain ⟨passed, hall, hpopped⟩ := h.fifo
  have hfifo := congrArg (List.count x) hall
  rw [count_cons_of_ne hstub.symm, count_append, hcount, hpopped,
    count_filter (by simpa using hstub)] at hfifo
  exact count_eq_zero.mp (by omega)

/-! ### The three accesses of `Push`, by whomever -/

section Accesses

variable {next : Item → Option Item} {pushing : Thread → PushPc Item} {tail : Item}
  {popping : PopPc Item}

lemma Producers.storeNull (h : Producers stub next pushing q) :
    Producers stub (update next x none) pushing q := by
  refine ⟨fun t y hy => ⟨(h.cleared t y hy).1, ?_⟩, h.owner, h.proper⟩
  rw [update_apply, (h.cleared t y hy).2, ite_self]

lemma Consumer.storeNull (h : Consumer stub next tail popping q) :
    Consumer stub (update next x none) tail popping q := by
  refine ⟨h.last, h.stub_out, fun y hy => ?_⟩
  rw [update_apply, h.stub_null y hy, ite_self]

omit [DecidableEq Item] in
lemma Producers.concat (h : Producers stub next pushing q) (hx : ∀ t, pushing t ≠ .cleared x) :
    Producers stub next pushing (q ++ [x]) := by
  refine ⟨fun t y hy => ⟨?_, (h.cleared t y hy).2⟩, h.owner, h.proper⟩
  rw [mem_append, not_or, mem_singleton]
  exact ⟨(h.cleared t y hy).1, fun hyx => hx t (hyx ▸ hy)⟩

omit [DecidableEq Item] in
lemma Consumer.concat (h : Consumer stub next tail popping q) (hx : x ≠ stub) :
    Consumer stub next tail popping (q ++ [x]) := by
  refine ⟨h.last, fun y hy => ?_, h.stub_null⟩
  rw [mem_append, not_or, mem_singleton]
  exact ⟨h.stub_out y hy, fun hstub => hx hstub.symm⟩

lemma Producers.storeNext (h : Producers stub next pushing q) (hprev : prev ∈ q) :
    Producers stub (update next prev (some x)) pushing q := by
  refine ⟨fun t y hy => ⟨(h.cleared t y hy).1, ?_⟩, h.owner, h.proper⟩
  have hne : y ≠ prev := fun hyp => (h.cleared t y hy).1 (hyp ▸ hprev)
  rw [update_of_ne hne, (h.cleared t y hy).2]

lemma Consumer.storeNext (h : Consumer stub next tail popping q) (hprev : prev ∈ q) :
    Consumer stub (update next prev (some x)) tail popping q := by
  refine ⟨h.last, h.stub_out, fun y hy => ?_⟩
  have hne : stub ≠ prev := fun hsp => h.stub_out y (.inr hy) (hsp ▸ hprev)
  rw [update_of_ne hne, h.stub_null y hy]

omit [DecidableEq Item] in
/-- A thread changes its place in `Push`; nobody else pushes what it pushes from now on. -/
lemma Producers.update [DecidableEq Thread] {pc : PushPc Item}
    (h : Producers stub next pushing q) (hpc : ∀ x, pc = .cleared x → x ∉ q ∧ next x = none)
    (howner : ∀ x, pc.item? = some x → x ≠ stub ∧ ∀ t', t' ≠ t → (pushing t').item? ≠ some x) :
    Producers stub next (update pushing t pc) q where
  cleared := by
    intro t' y hy
    rw [update_apply] at hy
    split_ifs at hy with e
    · exact hpc y hy
    · exact h.cleared t' y hy
  owner := by
    intro t₁ t₂ y h₁ h₂
    rw [update_apply] at h₁ h₂
    split_ifs at h₁ h₂ with e₁ e₂ e₂
    · exact e₁.trans e₂.symm
    · exact absurd h₂ ((howner y h₁).2 t₂ e₂)
    · exact absurd h₁ ((howner y h₂).2 t₁ e₁)
    · exact h.owner t₁ t₂ y h₁ h₂
  proper := by
    intro t' y hy
    rw [update_apply] at hy
    split_ifs at hy with e
    · exact (howner y hy).1
    · exact h.proper t' y hy

end Accesses

/-- The pointer of an item outside the queue is cleared. -/
lemma Inv.storeNull (h : Inv stub s q) (hx : x ∉ q) : Inv stub (s.storeNull x) q where
  queue := h.queue.congr
    (fun y hy => update_of_ne (fun hyx : y = x => hx (hyx ▸ hy)) _ _) fun _ _ => Iff.rfl
  producers := h.producers.storeNull
  consumer := h.consumer.storeNull
  fifo := h.fifo

/-- The log of the exchanges grows with the queue. -/
lemma Inv.fifo_concat (h : Inv stub s q) (x : Item) :
    ∃ passed, stub :: (s.exchangeHead x).exchanges = passed ++ (q ++ [x]) ∧
      s.popped = passed.filter (· ≠ stub) := by
  obtain ⟨passed, hall, hpopped⟩ := h.fifo
  refine ⟨passed, ?_, hpopped⟩
  rw [exchangeHead, ← cons_append, hall, append_assoc]

/-! ### The steps of the producers -/

section PushSteps

variable [DecidableEq Thread]

omit [DecidableEq Item] in
/-- The outstanding links, seen from one thread. -/
lemma pending_iff (s : State Item Thread) (t : Thread) {a b : Item} : Pending stub s a b ↔
    s.pushing t = .exchanged b a ∨ (∃ t', t' ≠ t ∧ s.pushing t' = .exchanged b a) ∨
      (b = stub ∧ ∃ last, s.popping = .linkStub last a) := by
  rw [← or_assoc]
  refine or_congr ?_ Iff.rfl
  constructor
  · rintro ⟨t', ht'⟩
    by_cases h : t' = t
    · exact .inl (h ▸ ht')
    · exact .inr ⟨t', h, ht'⟩
  · rintro (ht | ⟨t', -, ht'⟩)
    · exact ⟨t, ht⟩
    · exact ⟨t', ht'⟩

omit [DecidableEq Item] in
lemma pending_setPushing (s : State Item Thread) (t : Thread) (pc : PushPc Item) {a b : Item} :
    Pending stub (s.setPushing t pc) a b ↔
      pc = .exchanged b a ∨ (∃ t', t' ≠ t ∧ s.pushing t' = .exchanged b a) ∨
        (b = stub ∧ ∃ last, s.popping = .linkStub last a) := by
  rw [pending_iff _ t]
  refine or_congr (by simp [setPushing]) (or_congr ?_ Iff.rfl)
  refine exists_congr fun t' => and_congr_right fun ht' => ?_
  simp [setPushing, update_of_ne ht']

/-- **A producer clears its item**: the first access of `Push`. -/
lemma Inv.push (h : Inv stub s q) (ht : s.pushing t = .idle) (hx : Free stub s x) :
    Inv stub ((s.storeNull x).setPushing t (.cleared x)) q := by
  have hxq : x ∉ q := h.notMem_of_free hx
  replace h := h.storeNull hxq
  refine ⟨?_, h.producers.update ?_ ?_, h.consumer, h.fifo⟩
  · refine h.queue.congr (fun _ _ => rfl) fun a b => ?_
    rw [pending_setPushing, pending_iff _ t]
    simp [State.storeNull, ht]
  · rintro y ⟨rfl⟩
    exact ⟨hxq, update_self ..⟩
  · rintro y ⟨rfl⟩
    exact ⟨hx.1, fun t' _ => hx.2.2 t'⟩

/-- **A producer exchanges `head`**: the second access of `Push`. -/
lemma Inv.exchange (h : Inv stub s q) (ht : s.pushing t = .cleared x) :
    Inv stub ((s.exchangeHead x).setPushing t (.exchanged x s.head)) (q ++ [x]) := by
  obtain ⟨hxq, hnull⟩ := h.producers.cleared t x ht
  have hitem : (s.pushing t).item? = some x := congrArg item? ht
  have hx : x ≠ stub := h.producers.proper t x hitem
  have hother : ∀ t', t' ≠ t → (s.pushing t').item? ≠ some x :=
    fun t' ht' hx => ht' (h.producers.owner t' t x hx hitem)
  refine ⟨?_, ?_, h.consumer.concat hx, h.fifo_concat x⟩
  · refine h.queue.exchange hxq hnull fun a b => ?_
    have hnew : exchanged x s.head = .exchanged b a ↔ a = s.head ∧ b = x := by
      rw [exchanged.injEq, and_comm, eq_comm, @eq_comm _ x]
    rw [pending_setPushing, pending_iff s t, ht, hnew, or_comm]
    simp only [reduceCtorEq, false_or]
    exact Iff.rfl
  · refine Producers.concat (h.producers.update ?_ ?_) fun t' ht' => ?_
    · rintro y ⟨⟩
    · rintro y ⟨rfl⟩
      exact ⟨hx, hother⟩
    · change update s.pushing t _ t' = _ at ht'
      rw [update_apply] at ht'
      split_ifs at ht' with e
      exact hother t' e (congrArg item? ht')

/-- **A producer links its predecessor**: the last access of `Push`. -/
lemma Inv.link (h : Inv stub s q) (ht : s.pushing t = .exchanged x prev) :
    Inv stub ((s.storeNext prev x).setPushing t .idle) q := by
  have hpending : Pending stub s prev x := .inl ⟨t, ht⟩
  have hprev : prev ∈ q := (h.queue.gap_open prev x hpending).1.subset mem_cons_self
  have hitem : (s.pushing t).item? = some x := congrArg item? ht
  refine ⟨?_, (h.producers.storeNext hprev).update ?_ ?_, h.consumer.storeNext hprev, h.fifo⟩
  · refine h.queue.link hpending fun a b => ?_
    rw [pending_setPushing, pending_iff s t, ht]
    constructor
    · -- no other thread pushes this item, and the consumer pushes the stub
      rintro (⟨⟨⟩⟩ | ⟨t', ht', hab⟩ | ⟨rfl, hlast⟩)
      · refine ⟨.inr (.inl ⟨t', ht', hab⟩), ?_⟩
        rintro ⟨-, rfl⟩
        have hitem' : (s.pushing t').item? = some b := congrArg item? hab
        exact ht' (h.producers.owner t' t b hitem' hitem)
      · refine ⟨.inr (.inr ⟨rfl, hlast⟩), ?_⟩
        rintro ⟨-, rfl⟩
        exact h.producers.proper t b hitem rfl
    · rintro ⟨⟨rfl, rfl⟩ | hrest, hne⟩
      · exact absurd ⟨rfl, rfl⟩ hne
      · exact .inr hrest
  · rintro y ⟨⟩
  · rintro y ⟨⟩

end PushSteps

/-! ### The steps of the consumer -/

/-- The consumer is not about to link the stub. -/
def PopPc.NotLinking {Item : Type*} (pc : PopPc Item) : Prop := ∀ last prev, pc ≠ .linkStub last prev

omit [DecidableEq Item] in
lemma pending_of_notLinking (hpc : s.popping.NotLinking) {a b : Item} :
    Pending stub s a b ↔ ∃ t, s.pushing t = .exchanged b a := by
  refine or_iff_left ?_
  rintro ⟨-, last, hlast⟩
  exact hpc last a hlast

variable {pc : PopPc Item} {last : Item}

/-- The consumer changes its place in `Pop` and nothing else. -/
lemma Inv.setPopping (h : Inv stub s q) (hold : s.popping.NotLinking) (hnew : pc.NotLinking)
    (hc : Consumer stub s.next s.tail pc q) : Inv stub (s.setPopping pc) q where
  queue := h.queue.congr (fun _ _ => rfl) fun a b => by
    rw [pending_of_notLinking hold, pending_of_notLinking (s := s.setPopping pc) hnew]
    exact Iff.rfl
  producers := h.producers
  consumer := hc
  fifo := h.fifo

/-- The consumer leaves the first item behind; unless it is the stub, `Pop` returns it. -/
lemma Inv.advance {n : Item} {popped : List Item} (h : Inv stub s q) (hn : s.next s.tail = some n)
    (hold : s.popping.NotLinking) (hnew : pc.NotLinking)
    (hc : ∀ q', q = s.tail :: q' → n ∈ q' → Consumer stub s.next n pc q')
    (hpopped : popped = s.popped ++ [s.tail].filter (· ≠ stub)) :
    ∃ q', Inv stub { s with tail := n, popping := pc, popped := popped } q' := by
  obtain ⟨q', rfl, hqueue⟩ := h.queue.advance hn
  refine ⟨q', ?_, ?_, hc q' rfl (mem_of_mem_head? hqueue.tail_eq), ?_⟩
  · refine hqueue.congr (fun _ _ => rfl) fun a b => ?_
    rw [pending_of_notLinking hold, pending_of_notLinking hnew]
  · refine ⟨fun t x hx => ⟨?_, (h.producers.cleared t x hx).2⟩, h.producers.owner,
      h.producers.proper⟩
    exact fun hmem => (h.producers.cleared t x hx).1 (mem_cons_of_mem _ hmem)
  · obtain ⟨passed, hall, hpopped'⟩ := h.fifo
    refine ⟨passed ++ [s.tail], by simp [hall], ?_⟩
    rw [hpopped, hpopped', filter_append]

omit [DecidableEq Item] in
lemma consumer_idle {next : Item → Option Item} {tail : Item} : Consumer stub next tail .idle q :=
  ⟨by simp [last?], by simp, by simp⟩

/-- The test of a loaded `end->next`. -/
lemma Inv.take (h : Inv stub s q) (hold : s.popping.NotLinking) (hnew : pc.NotLinking)
    (hx : x = s.tail) (hstub : x ≠ stub) (hc : Consumer stub s.next s.tail pc q) :
    ∃ q', Inv stub (s.take x (s.next x) pc) q' := by
  subst hx
  cases hn : s.next s.tail with
  | none => exact ⟨q, h.setPopping hold hnew hc⟩
  | some n =>
    refine h.advance hn hold (by simp [NotLinking]) (fun _ _ _ => consumer_idle) ?_
    simp [hstub, setTail]

/-- The exchange of `head` for the stub, in `Push(&stub)`. -/
lemma Inv.exchangeStub (h : Inv stub s q) (hpc : s.popping = .exchangeStub last) :
    Inv stub ((s.exchangeHead stub).setPopping (.linkStub last s.head)) (q ++ [stub]) := by
  have hout : stub ∉ q := h.consumer.stub_out last (.inr hpc)
  refine ⟨?_, ?_, ?_, h.fifo_concat stub⟩
  · refine h.queue.exchange hout (h.consumer.stub_null last hpc) fun a b => ?_
    have hold : s.popping.NotLinking := by simp [NotLinking, hpc]
    rw [pending_of_notLinking hold]
    refine or_congr Iff.rfl ⟨?_, ?_⟩
    · rintro ⟨rfl, last', ⟨⟩⟩
      exact ⟨rfl, rfl⟩
    · rintro ⟨rfl, hb⟩
      exact ⟨hb, last, rfl⟩
  · exact h.producers.concat fun t ht => h.producers.proper t stub (congrArg item? ht) rfl
  · have hlast := h.consumer.last last (by rw [hpc]; rfl)
    exact ⟨by rintro x ⟨rfl⟩; exact hlast, by simp [State.setPopping], by simp [State.setPopping]⟩

/-- The link to the stub, in `Push(&stub)`. -/
lemma Inv.linkStub (h : Inv stub s q) (hpc : s.popping = .linkStub last prev) :
    Inv stub ((s.storeNext prev stub).setPopping (.reload last)) q := by
  have hpending : Pending stub s prev stub := .inr ⟨rfl, last, hpc⟩
  have hprev : prev ∈ q := (h.queue.gap_open prev stub hpending).1.subset mem_cons_self
  refine ⟨?_, h.producers.storeNext hprev, ?_, h.fifo⟩
  · refine h.queue.link hpending fun a b => ?_
    rw [pending_of_notLinking (by simp [NotLinking, State.setPopping])]
    constructor
    · rintro ⟨t, ht⟩
      refine ⟨.inl ⟨t, ht⟩, ?_⟩
      rintro ⟨-, rfl⟩
      exact h.producers.proper t b (congrArg item? ht) rfl
    · rintro ⟨ht | ⟨rfl, last', hlast'⟩, hne⟩
      · exact ht
      · rw [hpc, linkStub.injEq] at hlast'
        exact absurd ⟨hlast'.2.symm, rfl⟩ hne
  · have hlast := h.consumer.last last (by rw [hpc]; rfl)
    exact ⟨by rintro x ⟨rfl⟩; exact hlast, by simp [State.setPopping], by simp [State.setPopping]⟩

/-- **Every access of the consumer keeps the invariant.** -/
lemma Inv.pop (h : Inv stub s q) : ∃ q', Inv stub (s.pop stub) q' := by
  have hlast := h.consumer.last
  unfold State.pop
  cases hpc : s.popping with
  | idle =>
    have hidle : s.popping.NotLinking := by simp [NotLinking, hpc]
    by_cases htail : s.tail = stub
    · simp only [htail, if_true]
      cases hn : s.next stub with
      | none => exact ⟨q, h⟩
      | some n =>
        refine h.advance (htail ▸ hn) hidle (by simp [NotLinking]) ?_
          (by simp [htail, setTail])
        rintro q' rfl hmem
        refine ⟨?_, by simp, by simp⟩
        rintro x ⟨rfl⟩
        refine ⟨rfl, ?_⟩
        rintro rfl
        exact (nodup_cons.mp h.queue.nodup).1 (htail ▸ hmem)
    · simp only [htail, if_false]
      refine h.take hidle (by simp [NotLinking]) rfl htail ⟨?_, by simp, by simp⟩
      rintro x ⟨rfl⟩
      exact ⟨rfl, htail⟩
  | behindStub last =>
    obtain ⟨rfl, hstub⟩ := hlast last (by rw [hpc]; rfl)
    refine h.take (by simp [NotLinking, hpc]) (by simp [NotLinking]) rfl hstub
      ⟨?_, by simp, by simp⟩
    rintro x ⟨rfl⟩
    exact ⟨rfl, hstub⟩
  | checkHead last =>
    obtain ⟨rfl, hstub⟩ := hlast last (by rw [hpc]; rfl)
    have hold : s.popping.NotLinking := by simp [NotLinking, hpc]
    by_cases hhead : s.tail = s.head
    · -- the queue is down to its last item, so the stub is not in it
      simp only [hhead, ne_eq, not_true_eq_false, if_false]
      refine ⟨q, h.setPopping hold (by simp [NotLinking]) ⟨?_, fun _ _ => ?_, by simp⟩⟩
      · rintro x ⟨rfl⟩
        exact ⟨hhead.symm, hhead ▸ hstub⟩
      · have hq : q = [s.head] := GapQueue.eq_singleton (hhead ▸ h.queue)
        rw [hq, mem_singleton, ← hhead]
        exact fun hs => hstub hs.symm
    · simp only [ne_eq, hhead, not_false_eq_true, if_true]
      exact ⟨q, h.setPopping hold (by simp [NotLinking]) consumer_idle⟩
  | clearStub last =>
    have hout : stub ∉ q := h.consumer.stub_out last (.inl hpc)
    have hl := hlast last (by rw [hpc]; rfl)
    refine ⟨q, (h.storeNull hout).setPopping (by simp [State.storeNull, NotLinking, hpc])
      (by simp [NotLinking]) ⟨?_, fun _ _ => hout, fun _ _ => update_self ..⟩⟩
    rintro x ⟨rfl⟩
    exact hl
  | exchangeStub last => exact ⟨_, h.exchangeStub hpc⟩
  | linkStub last prev => exact ⟨q, h.linkStub hpc⟩
  | reload last =>
    obtain ⟨rfl, hstub⟩ := hlast last (by rw [hpc]; rfl)
    exact h.take (by simp [NotLinking, hpc]) (by simp [NotLinking]) rfl hstub
      consumer_idle

/-! ### Runs -/

variable [DecidableEq Thread]

/-- **Every step of the system keeps the invariant.** -/
lemma step_spec (s : State Item Thread) (e : Event Item Thread) (h : ∃ q, Inv stub s q)
    (he : Ok stub s e) : ∃ s', s.step stub e = some s' ∧ ∃ q, Inv stub s' q := by
  obtain ⟨q, h⟩ := h
  cases e with
  | push t item => exact ⟨_, if_pos he.1, q, h.push he.1 he.2⟩
  | resume t =>
    cases hpc : s.pushing t with
    | idle => exact absurd hpc he
    | cleared item => exact ⟨_, by simp [step, resume, hpc], _, h.exchange hpc⟩
    | exchanged item prev =>
      exact ⟨_, by simp [step, resume, hpc], q, h.link hpc⟩
  | pop => exact ⟨_, rfl, h.pop⟩
  | clear item => exact ⟨_, rfl, q, h.storeNull (h.notMem_of_free he)⟩

/-- **In every interleaving in which no item is pushed again before it was popped**, the popped
items are the first of those for which `head` was exchanged, in that order, and the stub is
not among them.  What the consumer has not passed lies between `tail` and `head`, and an item
of it whose `Push` and whose predecessors' are complete is reached from `tail` along the
pointers. -/
theorem queue_history (es : List (Event Item Thread))
    (hes : Allowed (step stub) (Ok stub) (init stub) es) :
    ∃ s, run (step stub) (init stub) es = some s ∧
      s.popped <+: pushes stub s ∧ stub ∉ s.popped ∧
      ∃ passed q, stub :: s.exchanges = passed ++ q ∧ s.popped = passed.filter (· ≠ stub) ∧
        ∀ l x r, q = l ++ x :: r → (∀ a b, Pending stub s a b → b ∉ l ++ [x]) →
          Reaches s.next s.tail x := by
  obtain ⟨s, hrun, q, h⟩ := run_invariant (fun s => ∃ q, Inv stub s q) step_spec ⟨_, inv_init⟩ hes
  obtain ⟨passed, hall, hpopped⟩ := h.fifo
  refine ⟨s, hrun, ⟨q.filter (· ≠ stub), ?_⟩, ?_, passed, q, hall, hpopped, ?_⟩
  · rw [hpopped, ← filter_append, ← hall, pushes, filter_cons_of_neg (by simp)]
  · simp [hpopped]
  · rintro l x r rfl hpending
    exact h.queue.reaches hpending

/-- Two producers and the stub `0`: the exchanges of `head` overtake each other, the chain is
broken under the consumer, and an item is pushed again while the consumer pushes the stub. -/
def twoProducers : List (Event (Fin 3) Bool) :=
  [.push false 1, .push true 2, .resume true, .resume false, .resume false, .pop, .resume true,
    .pop, .pop, .clear 2, .pop, .pop, .pop, .push true 2, .resume true, .pop, .pop, .pop,
    .resume true, .pop, .pop]

theorem queue_history_twoProducers :
    Allowed (step 0) (Ok 0) (init 0) twoProducers ∧
      (run (step 0) (init 0) twoProducers).map popped = some [2, 1, 2] ∧
      ∃ s, run (step 0) (init 0) twoProducers = some s ∧ s.popped <+: pushes 0 s := by
  have hes : Allowed (step 0) (Ok 0) (init 0) twoProducers := by decide
  obtain ⟨s, hrun, hpopped, -⟩ := queue_history twoProducers hes
  exact ⟨hes, by decide, s, hrun, hpopped⟩

end Northport.QueueMpSc
