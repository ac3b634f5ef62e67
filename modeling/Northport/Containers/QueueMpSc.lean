/-
# The queue with many producers and one consumer

`QueueMpSc` links items by their `next` pointers from `tail`, where the single consumer
takes them, to `head`, where any number of producers add them.  A producer makes three
atomic accesses (clear the pointer of the item, exchange `head`, link the predecessor), and
between the last two the chain is broken.  The queue is never empty: when the consumer is
about to take the last item it pushes the stub behind it.

The model is a transition system whose steps are the atomic accesses, in any interleaving.
`tail` is only touched by the consumer, so its accesses belong to the neighbouring step.
Two logs record the order of the exchanges of `head` and the items that `Pop` returned.
-/
import Northport.Lib.Run
import Northport.Lib.GapChain

namespace Northport.QueueMpSc

open Lib

/-- Where a producer stands inside `Push`. -/
inductive PushPc (Item : Type*) where
  | idle
  /-- `item->next` is cleared, the exchange of `head` comes next. -/
  | cleared (item : Item)
  /-- `head` was exchanged for `item`, the store to `prev->next` comes next. -/
  | exchanged (item prev : Item)
  deriving DecidableEq

/-- Where the consumer stands inside `Pop`: the access that comes next, with the value of the
local variable `end`. -/
inductive PopPc (Item : Type*) where
  | idle
  /-- The stub was skipped, the load of `end->next` comes next. -/
  | behindStub (last : Item)
  /-- `end->next` was null, the load of `head` comes next. -/
  | checkHead (last : Item)
  /-- The three accesses of `Push(&stub)`. -/
  | clearStub (last : Item)
  | exchangeStub (last : Item)
  | linkStub (last prev : Item)
  /-- The stub was pushed, the second load of `end->next` comes next. -/
  | reload (last : Item)
  deriving DecidableEq

/-- The queue, the threads that work on it and the two logs. -/
structure State (Item Thread : Type*) where
  next : Item → Option Item
  head : Item
  tail : Item
  pushing : Thread → PushPc Item
  popping : PopPc Item
  /-- The items in the order in which `head` was exchanged for them. -/
  exchanges : List Item
  /-- The items that `Pop` returned, in order. -/
  popped : List Item

/-- One atomic access, or the start of a call. -/
inductive Event (Item Thread : Type*) where
  /-- The thread calls `Push(item)` and clears `item->next`. -/
  | push (t : Thread) (item : Item)
  /-- The next access of a thread inside `Push`. -/
  | resume (t : Thread)
  /-- The next access of the consumer; a new call of `Pop` if it is in none. -/
  | pop
  /-- The owner of an item clears its pointer, as `LowerRunLevel` does with a popped item. -/
  | clear (item : Item)

variable {Item Thread : Type*} [DecidableEq Item] [DecidableEq Thread] (stub : Item)

/-- The constructor. -/
def init : State Item Thread where
  next := fun _ => none
  head := stub
  tail := stub
  pushing := fun _ => .idle
  popping := .idle
  exchanges := []
  popped := []

namespace State

section

variable (s : State Item Thread)

/-- `item->next.Store(nullptr)` -/
def storeNull (item : Item) : State Item Thread :=
  { s with next := Function.update s.next item none }

/-- `head.Exchange(item)`; the value it returns is the `head` of the old state. -/
def exchangeHead (item : Item) : State Item Thread :=
  { s with head := item, exchanges := s.exchanges ++ [item] }

/-- `prev->next.Store(item)` -/
def storeNext (prev item : Item) : State Item Thread :=
  { s with next := Function.update s.next prev (some item) }

/-- The thread `t` goes on at another place in `Push`. -/
def setPushing (t : Thread) (pc : PushPc Item) : State Item Thread :=
  { s with pushing := Function.update s.pushing t pc }

/-- The consumer goes on at another place in `Pop`. -/
def setPopping (pc : PopPc Item) : State Item Thread :=
  { s with popping := pc }

/-- `tail` moves on to `next`. -/
def setTail (next : Item) : State Item Thread := { s with tail := next }

/-- `Pop` returns the item. -/
def returnItem (item : Item) : State Item Thread :=
  { s with popped := s.popped ++ [item], popping := .idle }

/-- The test of a loaded pointer in `Pop`: if it is not null, `tail` moves on and `Pop` returns
`last`; otherwise `Pop` goes on at `other`. -/
def take (last : Item) (next : Option Item) (other : PopPc Item) :
    State Item Thread :=
  match next with
  | some n => (s.setTail n).returnItem last
  | none => s.setPopping other

/-- The next access of `Pop`. -/
def pop : State Item Thread :=
  match s.popping with
  | .idle =>
    if s.tail = stub then
      match s.next s.tail with
      | none => s
      | some n => (s.setTail n).setPopping (.behindStub n)
    else s.take s.tail (s.next s.tail) (.checkHead s.tail)
  | .behindStub last => s.take last (s.next last) (.checkHead last)
  | .checkHead last =>
    if last ≠ s.head then s.setPopping .idle else s.setPopping (.clearStub last)
  | .clearStub last => (s.storeNull stub).setPopping (.exchangeStub last)
  | .exchangeStub last => (s.exchangeHead stub).setPopping (.linkStub last s.head)
  | .linkStub last prev => (s.storeNext prev stub).setPopping (.reload last)
  | .reload last => s.take last (s.next last) .idle

/-- The next access of a thread inside `Push`. -/
def resume (t : Thread) : Option (State Item Thread) :=
  match s.pushing t with
  | .idle => none
  | .cleared item => some ((s.exchangeHead item).setPushing t (.exchanged item s.head))
  | .exchanged item prev => some ((s.storeNext prev item).setPushing t .idle)

/-- One step of the system; a thread cannot do what it is not about to do. -/
def step : Event Item Thread → Option (State Item Thread)
  | .push t item =>
    if s.pushing t = .idle then some ((s.storeNull item).setPushing t (.cleared item)) else none
  | .resume t => s.resume t
  | .pop => some (s.pop stub)
  | .clear item => some (s.storeNull item)

end

end State

/-- The item that a thread is pushing. -/
def PushPc.item? : PushPc Item → Option Item
  | .idle => none
  | .cleared item => some item
  | .exchanged item _ => some item

/-- The item was popped as often as it was pushed and nobody is pushing it. -/
def Free (s : State Item Thread) (item : Item) : Prop :=
  item ≠ stub ∧ s.exchanges.count item = s.popped.count item ∧
    ∀ t, (s.pushing t).item? ≠ some item

/-- **What the users of the queue have to respect**: an item is not pushed again before it was
popped, and only the owner of an item outside the queue writes to it. -/
def Ok (s : State Item Thread) : Event Item Thread → Prop
  | .push t item => s.pushing t = .idle ∧ Free stub s item
  | .resume t => s.pushing t ≠ .idle
  | .pop => True
  | .clear item => Free stub s item

instance [Fintype Thread] (s : State Item Thread) (item : Item) : Decidable (Free stub s item) :=
  inferInstanceAs (Decidable (_ ∧ _ ∧ _))

instance [Fintype Thread] (s : State Item Thread) : DecidablePred (Ok stub s)
  | .push _ _ => inferInstanceAs (Decidable (_ ∧ _))
  | .resume t => inferInstanceAs (Decidable (s.pushing t ≠ .idle))
  | .pop => .isTrue trivial
  | .clear item => inferInstanceAs (Decidable (Free stub s item))

/-- Somebody exchanged `head` for `b` when it was `a`, and has not linked them yet. -/
def Pending (s : State Item Thread) (a b : Item) : Prop :=
  (∃ t, s.pushing t = .exchanged b a) ∨ (b = stub ∧ ∃ last, s.popping = .linkStub last a)

/-- The items, without the stub, in the order in which `head` was exchanged for them. -/
def pushes (s : State Item Thread) : List Item := s.exchanges.filter (· ≠ stub)

end Northport.QueueMpSc
