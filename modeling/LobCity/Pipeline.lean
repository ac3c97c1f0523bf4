import LobCity.Accumulator
import LobCity.Gateway

/-! From the socket to the gateway: the network thread's loop and the matching thread's,
each iteration cut into steps that no step of the other thread divides. The queue carries
messages whose ids are views of the accumulator; the matching thread reads through them. -/
namespace LobCity
open Library
variable {Size : Nat} [NeZero Size]

/-- Where the network thread is: in `read`, at the top of the inner loop, in the loop around
`push`, before `erase`. -/
inductive NetworkThread
  | reading
  | framing
  | pushing (parsedMsg : ParsedFixMessage Slice) (msgLen : Nat)
  | erasing (msgLen : Nat)

structure Pipeline (Size : Nat) where
  accumulator : Accumulator
  network : NetworkThread
  orderQueue : RingBuffer (ParsedFixMessage Slice) Size
  /-- popped by the matching thread and not yet handled -/
  msg : Option (ParsedFixMessage Slice)
  gateway : OrderEntryGateway

/-- What a step is: `read` returns, with what it read; the network thread goes on; the
matching thread pops; it handles the message it has, `freed` being what it finds in blocks
that the accumulator has left. -/
inductive PipelineEvent
  | read (readBuf : List Byte)
  | network
  | pop
  | handle (clock : Clock) (freed : Nat → List Byte)

namespace Pipeline

def new (gateway : OrderEntryGateway) : Pipeline Size where
  accumulator := .new 0 65536
  network := .reading
  orderQueue := .new fun _ => ParsedFixMessage.reset.map (Slice.mk 0)
  msg := none
  gateway := gateway

/-- `read` returns `valread` bytes; with none of them the client is gone, and the next one
gets an accumulator of its own. -/
def read (p : Pipeline Size) (readBuf : List Byte) : Option (Pipeline Size) :=
  match p.network with
  | .reading =>
    if readBuf.length > 4096 then none
    else if readBuf = [] then
      some { p with accumulator := .new (p.accumulator.block + 1) 65536 }
    else
      some { p with accumulator := p.accumulator.append readBuf, network := .framing }
  | _ => none

def parse? (p : Pipeline Size) : Option (Nat × Bool × ParsedFixMessage View) :=
  p.accumulator.msgLen?.map fun msgLen =>
    (msgLen, parseFixMessage (p.accumulator.message msgLen))

def networkStep (p : Pipeline Size) : Option (Pipeline Size) :=
  match p.network with
  | .reading => none
  | .framing =>
    match p.parse? with
    | none => some { p with network := .reading }
    | some (msgLen, false, _) => some { p with network := .erasing msgLen }
    | some (msgLen, true, parsedMsg) =>
      some { p with network := .pushing (parsedMsg.map (Slice.mk p.accumulator.block)) msgLen }
  | .pushing parsedMsg msgLen =>
    match p.orderQueue.push parsedMsg with
    | (false, _) => some p
    | (true, orderQueue) => some { p with orderQueue := orderQueue, network := .erasing msgLen }
  | .erasing msgLen =>
    some { p with accumulator := p.accumulator.erase msgLen, network := .framing }

def pop (p : Pipeline Size) : Option (Pipeline Size) :=
  match p.msg with
  | some _ => none
  | none => some { p with msg := p.orderQueue.pop.1, orderQueue := p.orderQueue.pop.2 }

def handle (p : Pipeline Size) (clock : Clock) (freed : Nat → List Byte) :
    Option (Pipeline Size) := do
  let msg ← p.msg
  let gateway ← p.gateway.onParsedMessage (msg.map (p.accumulator.read freed)) clock
  return { p with msg := none, gateway := gateway }

def step (p : Pipeline Size) : PipelineEvent → Option (Pipeline Size)
  | .read readBuf => p.read readBuf
  | .network => p.networkStep
  | .pop => p.pop
  | .handle clock freed => p.handle clock freed

def outstanding (p : Pipeline Size) : List (ParsedFixMessage Slice) :=
  p.msg.toList ++ p.orderQueue.queued ++
    match p.network with
    | .pushing parsedMsg _ => [parsedMsg]
    | _ => []

/-- The part of the accumulator's storage that a step writes or gives back. -/
def touched (p : Pipeline Size) : PipelineEvent → View
  | .read readBuf => if readBuf = [] then p.accumulator.whole else p.accumulator.appended readBuf
  | .network =>
    match p.network with
    | .erasing msgLen => p.accumulator.erased msgLen
    | _ => .empty
  | _ => .empty

/-- A step touches nothing that an id of a message on its way points to. -/
def Clear (p : Pipeline Size) (ev : PipelineEvent) : Prop :=
  ∀ m ∈ p.outstanding, ∀ s ∈ m.ids, s.view.Apart (p.touched ev)

instance (p : Pipeline Size) (ev : PipelineEvent) : Decidable (p.Clear ev) :=
  inferInstanceAs (Decidable (∀ m ∈ p.outstanding, ∀ s ∈ m.ids, s.view.Apart (p.touched ev)))

end Pipeline

/-- A run with its messages: as their text stood when they were parsed, and as the gateway
read them. -/
structure Recorded (Size : Nat) where
  pipeline : Pipeline Size
  parsed : List FixMessage
  handled : List (FixMessage × Clock)

namespace Recorded

def new (gateway : OrderEntryGateway) : Recorded Size := ⟨.new gateway, [], []⟩

def parsedAfter (w : Recorded Size) : PipelineEvent → List FixMessage
  | .network =>
    match w.pipeline.network, w.pipeline.parse? with
    | .framing, some (msgLen, true, parsedMsg) =>
      w.parsed ++ [parsedMsg.map (View.read (w.pipeline.accumulator.message msgLen))]
    | _, _ => w.parsed
  | _ => w.parsed

def handledAfter (w : Recorded Size) : PipelineEvent → List (FixMessage × Clock)
  | .handle clock freed =>
    match w.pipeline.msg with
    | none => w.handled
    | some msg => w.handled ++ [(msg.map (w.pipeline.accumulator.read freed), clock)]
  | _ => w.handled

def step (w : Recorded Size) (ev : PipelineEvent) : Option (Recorded Size) :=
  (w.pipeline.step ev).map fun p => ⟨p, w.parsedAfter ev, w.handledAfter ev⟩

def Clear (w : Recorded Size) (ev : PipelineEvent) : Prop := w.pipeline.Clear ev

instance (w : Recorded Size) (ev : PipelineEvent) : Decidable (w.Clear ev) :=
  inferInstanceAs (Decidable (w.pipeline.Clear ev))

/-- The ids that the gateway computes are those that the text said when it was parsed. -/
def IdsKept (w : Recorded Size) : Prop :=
  ∀ (k : Nat) (m : FixMessage) (clock : Clock), w.handled[k]? = some (m, clock) →
    ∃ m0 : FixMessage, w.parsed[k]? = some m0 ∧ numericId m.clOrdID = numericId m0.clOrdID ∧
      numericId m.origClOrdID = numericId m0.origClOrdID

end Recorded
end LobCity
