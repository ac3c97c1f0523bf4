import LobCity.Exchange
import LobCity.Framing
import LobCity.HandOff

/-! The whole program after its benchmarks: the network thread and the matching thread of
`Pipeline`, and the publisher thread on the snapshot ring. A step is one thread's. -/
namespace LobCity
open Library
open Accumulator (framer)
variable {Size : Nat} [NeZero Size]

/-- A step of the network or the matching thread, or in `DisplayBBO` a `pop` of the ring
or the sending of what was popped. -/
inductive SystemEvent
  | pipeline (ev : PipelineEvent)
  | popBbo
  | publishBbo

structure System (Size : Nat) where
  recorded : Recorded Size
  /-- popped by the publisher and not yet sent -/
  bbo : Option BboMessage
  /-- what `sendto` was called with -/
  datagrams : List BboMessage
  /-- what `read` returned, one client after the other; nothing where one has left -/
  reads : List (List Byte)

/-- `buffer.pop()` on the ring that the gateway's engine pushes to. -/
def OrderEntryGateway.popBbo (g : OrderEntryGateway) : Option BboMessage × OrderEntryGateway :=
  (g.engine.buffer.pop.1, { g with engine := { g.engine with buffer := g.engine.buffer.pop.2 } })

namespace System

/-- The threads start with what the benchmarks have made of the gateway. -/
def new (gateway : OrderEntryGateway) : System Size := ⟨.new gateway, none, [], []⟩

def gateway (w : System Size) : OrderEntryGateway := w.recorded.pipeline.gateway

def buffer (w : System Size) : RingBufferBBO := w.gateway.engine.buffer

def parsed (w : System Size) : List FixMessage := w.recorded.parsed

def handled (w : System Size) : List (FixMessage × Clock) := w.recorded.handled

def readsAfter (w : System Size) : PipelineEvent → List (List Byte)
  | .read readBuf => w.reads ++ [readBuf]
  | _ => w.reads

def popBbo (w : System Size) : Option (System Size) :=
  match w.bbo with
  | some _ => none
  | none =>
    let (result, gateway) := w.gateway.popBbo
    some { w with
      recorded := { w.recorded with pipeline := { w.recorded.pipeline with gateway := gateway } }
      bbo := result }

def publishBbo (w : System Size) : Option (System Size) :=
  w.bbo.map fun msg => { w with bbo := none, datagrams := w.datagrams ++ [msg] }

def step (w : System Size) : SystemEvent → Option (System Size)
  | .pipeline ev => (w.recorded.step ev).map fun r => { w with recorded := r, reads := w.readsAfter ev }
  | .popBbo => w.popBbo
  | .publishBbo => w.publishBbo

/-- The steps of the network thread leave alone what the ids of messages on their way point to. -/
def Clear (w : System Size) : SystemEvent → Prop
  | .pipeline ev => w.recorded.Clear ev
  | .popBbo | .publishBbo => True

instance (w : System Size) : DecidablePred w.Clear
  | .pipeline ev => inferInstanceAs (Decidable (w.recorded.Clear ev))
  | .popBbo | .publishBbo => inferInstanceAs (Decidable True)

/-- The snapshots between the ring and the network, oldest first. -/
def published (w : System Size) : List BboMessage :=
  w.datagrams ++ w.bbo.toList ++ w.buffer.queued

end System

/-- One read more: cut into frames behind what the same client has left unfinished. -/
def cutRead (state : List (List Byte) × List Byte) (readBuf : List Byte) :
    List (List Byte) × List Byte :=
  if readBuf = [] then (state.1, []) else framer.feed state readBuf

/-- The frames of what the clients have sent, and what is unfinished. -/
def cutReads (reads : List (List Byte)) : List (List Byte) × List Byte :=
  reads.foldl cutRead ([], [])

/-- The messages in what the clients have sent, read by nobody else meanwhile. -/
def receivedFrom (reads : List (List Byte)) : List FixMessage := (cutReads reads).1.filterMap parsed?

theorem cutReads_concat (reads : List (List Byte)) (readBuf : List Byte) :
    cutReads (reads ++ [readBuf]) = cutRead (cutReads reads) readBuf := by
  rw [cutReads, List.foldl_append]
  rfl

def ParsedFixMessage.fields {Id : Type} (msg : ParsedFixMessage Id) : ParsedFixMessage Unit :=
  msg.map fun _ => ()

@[simp] theorem ParsedFixMessage.fields_map {Id Id' : Type} (f : Id → Id') (msg : ParsedFixMessage Id) :
    (msg.map f).fields = msg.fields := rfl

end LobCity
