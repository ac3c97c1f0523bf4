import LobCity.MarketData
import LobCity.Library.Layout

/-! A snapshot on the wire: the bytes of the structure as the publisher sends them, and
what the listener script makes of a datagram. -/
namespace LobCity
open Library

def BboMessage.members (msg : BboMessage) : List Member :=
  [⟨leBytes 8 msg.timestamp.toNat, 8⟩,
   ⟨leBytes 8 msg.bestBidPrice.toUInt64.toNat, 8⟩,
   ⟨leBytes 8 msg.bestAskPrice.toUInt64.toNat, 8⟩,
   ⟨leBytes 4 msg.bestBidQty.toNat, 4⟩,
   ⟨leBytes 4 msg.bestAskQty.toNat, 4⟩,
   ⟨[msg.messageType], 1⟩]

/-- What `publishBbo` sends: `sizeof(BboMessage)` bytes from the address of the message,
which is `alignas(64)`. Nothing sets the padding. -/
def BboMessage.sent (msg : BboMessage) (padding : Nat → UInt8) : List UInt8 :=
  representation padding 64 msg.members

/-- The codes of a format string of Python's `struct` that the listener uses. -/
inductive FormatCode
  | c | Q | q | I
deriving DecidableEq, Repr

inductive PyValue
  | bytes (b : UInt8)
  | int (x : Int)
deriving DecidableEq, Repr

namespace FormatCode

/-- The standard size of a code, which a leading `<` selects. -/
def size : FormatCode → Nat
  | c => 1
  | Q => 8
  | q => 8
  | I => 4

def value (code : FormatCode) (data : List UInt8) : PyValue :=
  match code with
  | c => .bytes (data.headD 0)
  | Q => .int (ofLE data)
  | q => .int (Int.bmod (ofLE data) (2 ^ 64))
  | I => .int (ofLE data)

end FormatCode

/-- `struct.calcsize` of a `<` format: no padding. -/
def calcsize (format : List FormatCode) : Nat := (format.map FormatCode.size).sum

def unpackFields : List FormatCode → List UInt8 → List PyValue
  | [], _ => []
  | code :: format, data => code.value (data.take code.size) :: unpackFields format (data.drop code.size)

def unpack (format : List FormatCode) (data : List UInt8) : Option (List PyValue) :=
  if data.length = calcsize format then some (unpackFields format data) else none

def bboFormat : List FormatCode := [.c, .Q, .q, .I, .q, .I]

structure ListenerBbo where
  msg_type : UInt8
  timestamp : Int
  bid_px : Int
  bid_qty : Int
  ask_px : Int
  ask_qty : Int
deriving DecidableEq, Repr

/-- The body of the listener's loop up to its unpacking: a datagram of another size than
that of the format is dropped. -/
def receive (data : List UInt8) : Option ListenerBbo :=
  if data.length = calcsize bboFormat then
    match unpack bboFormat data with
    | some [.bytes msg_type, .int timestamp, .int bid_px, .int bid_qty, .int ask_px, .int ask_qty] =>
      some ⟨msg_type, timestamp, bid_px, bid_qty, ask_px, ask_qty⟩
    | _ => none
  else none

def BboMessage.listened (msg : BboMessage) : ListenerBbo :=
  ⟨msg.messageType, msg.timestamp.toNat, msg.bestBidPrice.toInt, msg.bestBidQty.toNat,
    msg.bestAskPrice.toInt, msg.bestAskQty.toNat⟩

namespace BboMessage
variable (msg : BboMessage) (padding : Nat → UInt8)

theorem length_sent : (msg.sent padding).length = 64 := by
  have hmembers : ∀ m ∈ msg.members, 0 < m.align := by simp [members]
  rw [sent, length_representation padding (by decide) hmembers]
  simp [members, alignUp]

theorem receive_of_length {data : List UInt8} (h : data.length ≠ 33) : receive data = none := if_neg h

/-- No message passes the listener's length check: 64 bytes are sent and 33 expected. -/
theorem not_received :
    (msg.sent padding).length ≠ calcsize bboFormat ∧ receive (msg.sent padding) ≠ some msg.listened := by
  have hlen : (msg.sent padding).length ≠ 33 := by rw [length_sent]; decide
  refine ⟨hlen, ?_⟩
  rw [receive_of_length hlen]
  exact nofun

def quoted : BboMessage := ⟨1, 100, 101, 5, 7, 66⟩

theorem quoted_dropped :
    quoted.messageType = 66 ∧ (quoted.sent fun _ => 0).length = 64 ∧
      receive (quoted.sent fun _ => 0) = none ∧
      receive (quoted.sent fun _ => 0) ≠ some quoted.listened := by decide

end BboMessage
end LobCity
