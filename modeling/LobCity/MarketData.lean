import LobCity.Types
import LobCity.RingBuffer

/-! The top-of-book snapshot and the ring that carries it to the publisher thread. -/
namespace LobCity

structure BboMessage where
  timestamp : Timestamp
  bestBidPrice : Price
  bestAskPrice : Price
  bestBidQty : Quantity
  bestAskQty : Quantity
  messageType : UInt8
deriving DecidableEq, Repr

def BboMessage.zero : BboMessage := ⟨0, 0, 0, 0, 0, 0⟩

instance bufferSize_neZero : NeZero 1024 := ⟨by decide⟩

abbrev RingBufferBBO := RingBuffer BboMessage 1024

end LobCity
