import LobCity.RingBuffer
import LobCity.Library.Runs

/-! The ring between its two threads. Every shared access of `push` and of `pop` is one
step, the comparison of the two indices goes with the load that completes the pair. -/
namespace LobCity.Spsc
variable {T : Type} {Size : Nat} [NeZero Size]

/-- Which index `pop` loads first: `RingBuffer` the head, `RingBufferBBO` the tail. -/
inductive LoadOrder
  | headFirst
  | tailFirst
  deriving DecidableEq

/-- The program counter of the network thread inside `push`, with its locals. -/
inductive Push (T : Type) (Size : Nat)
  | idle
  | loadedTail (item : T) (current_tail : Fin Size)
  | writing (item : T) (current_head : Fin Size)
  | written (item : T) (current_head : Fin Size)

/-- The program counter of the matching thread inside `pop`, with its locals. -/
inductive Pop (T : Type) (Size : Nat)
  | idle
  | loadedHead (current_head : Fin Size)
  | loadedTail (current_tail : Fin Size)
  | reading (current_tail : Fin Size)
  | read (item : T) (current_tail : Fin Size)

structure State (T : Type) (Size : Nat) where
  ring : RingBuffer T Size
  producer : Push T Size
  consumer : Pop T Size

/-- `push` begins a call and loads the tail; the other two events are the next step
of a thread, for an idle consumer the first load of a new `pop`. -/
inductive Event (T : Type)
  | push (item : T)
  | producer
  | consumer

def State.new (init : Fin Size → T) : State T Size := ⟨.new init, .idle, .idle⟩

def producerStep (s : State T Size) : Option (State T Size) :=
  match s.producer with
  | .idle => none
  | .loadedTail item current_tail =>
    if RingBuffer.advance s.ring.head = current_tail then some { s with producer := .idle }
    else some { s with producer := .writing item s.ring.head }
  | .writing item h =>
    some { s with ring := { s.ring with buffer := Function.update s.ring.buffer h item },
                  producer := .written item h }
  | .written _ h =>
    some { s with ring := { s.ring with head := RingBuffer.advance h }, producer := .idle }

def consumerStep (order : LoadOrder) (s : State T Size) : Option (State T Size) :=
  match s.consumer with
  | .idle =>
    match order with
    | .headFirst => some { s with consumer := .loadedHead s.ring.head }
    | .tailFirst => some { s with consumer := .loadedTail s.ring.tail }
  | .loadedHead h =>
    if h = s.ring.tail then some { s with consumer := .idle }
    else some { s with consumer := .reading s.ring.tail }
  | .loadedTail t =>
    if s.ring.head = t then some { s with consumer := .idle }
    else some { s with consumer := .reading t }
  | .reading t => some { s with consumer := .read (s.ring.buffer t) t }
  | .read _ t =>
    some { s with ring := { s.ring with tail := RingBuffer.advance t }, consumer := .idle }

def step (order : LoadOrder) (s : State T Size) : Event T → Option (State T Size)
  | .push item =>
    match s.producer with
    | .idle => some { s with producer := .loadedTail item s.ring.tail }
    | _ => none
  | .producer => producerStep s
  | .consumer => consumerStep order s

/-- What an observer of both threads writes down. `pushSaw` and `popSaw` are the items
outstanding when the call in progress loaded the other thread's index. -/
structure History (T : Type) (Size : Nat) where
  accepted : List (Fin Size × T) := []
  popped : List T := []
  pushSaw : Nat := 0
  popSaw : Nat := 0
  failedPushes : List Nat := []
  failedPops : List Nat := []

namespace History

def outstanding (o : History T Size) : Nat := o.accepted.length - o.popped.length

def unread (o : History T Size) : List (Fin Size) := (o.accepted.drop o.popped.length).map Prod.fst

def afterProducer (s : State T Size) (o : History T Size) : History T Size :=
  match s.producer with
  | .loadedTail _ t =>
    if RingBuffer.advance s.ring.head = t then
      { o with failedPushes := o.failedPushes ++ [o.pushSaw] } else o
  | .written item h => { o with accepted := o.accepted ++ [(h, item)] }
  | _ => o

def afterConsumer (order : LoadOrder) (s : State T Size) (o : History T Size) : History T Size :=
  match s.consumer with
  | .idle => if order = .headFirst then { o with popSaw := o.outstanding } else o
  | .loadedHead h =>
    if h = s.ring.tail then { o with failedPops := o.failedPops ++ [o.popSaw] } else o
  | .loadedTail t =>
    if s.ring.head = t then { o with popSaw := o.outstanding,
                                     failedPops := o.failedPops ++ [o.outstanding] }
    else { o with popSaw := o.outstanding }
  | .reading _ => o
  | .read item _ => { o with popped := o.popped ++ [item] }

def after (order : LoadOrder) (s : State T Size) (o : History T Size) : Event T → History T Size
  | .push _ => { o with pushSaw := o.outstanding }
  | .producer => o.afterProducer s
  | .consumer => o.afterConsumer order s

end History

structure Observed (T : Type) (Size : Nat) where
  state : State T Size
  history : History T Size

namespace Observed

def new (init : Fin Size → T) : Observed T Size := ⟨.new init, {}⟩

def step (order : LoadOrder) (w : Observed T Size) (ev : Event T) : Option (Observed T Size) :=
  (Spsc.step order w.state ev).map fun s' => ⟨s', w.history.after order w.state ev⟩

end Observed

/-- Left alone, a `push` is the whole call of the sequential ring. -/
theorem push_alone (order : LoadOrder) (s : State T Size) (item : T)
    (hidle : s.producer = .idle) :
    Library.run (step order) s
        (.push item :: List.replicate (if (s.ring.push item).1 then 3 else 1) .producer) =
      some { s with ring := (s.ring.push item).2 } := by
  obtain ⟨ring, producer, consumer⟩ := s
  obtain rfl : producer = .idle := hidle
  by_cases hfull : RingBuffer.advance ring.head = ring.tail
  · simp [Library.run, step, producerStep, RingBuffer.push, hfull]
  · simp [Library.run, step, producerStep, RingBuffer.push, hfull, List.replicate]

theorem pop_alone (order : LoadOrder) (s : State T Size) (hidle : s.consumer = .idle) :
    Library.run (step order) s
        (List.replicate (if s.ring.pop.1.isSome then 4 else 2) .consumer) =
      some { s with ring := s.ring.pop.2 } := by
  obtain ⟨ring, producer, consumer⟩ := s
  obtain rfl : consumer = .idle := hidle
  by_cases hempty : ring.head = ring.tail
  all_goals
    cases order <;>
      simp [Library.run, step, consumerStep, RingBuffer.pop, hempty, List.replicate]

/-- The slot that an active `push` writes, from the test that let it pass to the store. -/
def Push.slot? : Push T Size → Option (Fin Size)
  | .writing _ h => some h
  | .written _ h => some h
  | _ => none

end LobCity.Spsc
