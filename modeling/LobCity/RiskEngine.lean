import LobCity.Types
import LobCity.FixParser

/-! The pre-trade checks, in the machine arithmetic of the source: prices and notionals
are `int64`, the window and its counters unsigned. -/
namespace LobCity

inductive RiskRejectReason
  | none
  | invalidPrice
  | invalidQuantity
  | fatFingerSize
  | fatFingerNotional
  | priceCollar
  | rateLimit
deriving DecidableEq, Repr

structure RiskConfig where
  maxOrderQty : Quantity := 1000000
  maxNotional : Int64 := 100000000000
  collarBps : Int64 := 500
  maxMsgsPerWindow : UInt32 := 5000
  windowDurationNs : UInt64 := 1000000000
deriving DecidableEq, Repr

structure RiskStats where
  totalChecked : UInt64 := 0
  totalPassed : UInt64 := 0
  rejectInvalidPx : UInt64 := 0
  rejectInvalidQty : UInt64 := 0
  rejectFatFinger : UInt64 := 0
  rejectNotional : UInt64 := 0
  rejectCollar : UInt64 := 0
  rejectRateLimit : UInt64 := 0
deriving DecidableEq, Repr

def RiskStats.recordReject (s : RiskStats) : RiskRejectReason → RiskStats
  | .none => s
  | .invalidPrice => { s with rejectInvalidPx := s.rejectInvalidPx + 1 }
  | .invalidQuantity => { s with rejectInvalidQty := s.rejectInvalidQty + 1 }
  | .fatFingerSize => { s with rejectFatFinger := s.rejectFatFinger + 1 }
  | .fatFingerNotional => { s with rejectNotional := s.rejectNotional + 1 }
  | .priceCollar => { s with rejectCollar := s.rejectCollar + 1 }
  | .rateLimit => { s with rejectRateLimit := s.rejectRateLimit + 1 }

structure RiskEngine where
  config : RiskConfig
  stats : RiskStats := {}
  bestBid : Price := 0
  bestAsk : Price := 0
  windowMsgCount : UInt32 := 0
  windowStartNs : UInt64 := 0
deriving DecidableEq, Repr

namespace RiskEngine
variable {Id : Type}

def checkValidity (msg : ParsedFixMessage Id) : RiskRejectReason :=
  if msg.qty ≤ 0 then .invalidQuantity
  else if msg.ordType ≠ byte '1' ∧ msg.price ≤ 0 then .invalidPrice
  else .none

def checkFatFingerSize (r : RiskEngine) (msg : ParsedFixMessage Id) : RiskRejectReason :=
  if toQuantity msg.qty > r.config.maxOrderQty then .fatFingerSize else .none

def checkNotional (r : RiskEngine) (msg : ParsedFixMessage Id) : RiskRejectReason :=
  if msg.ordType = byte '1' then .none
  else if msg.price * msg.qty > r.config.maxNotional then .fatFingerNotional
  else .none

def refPrice (r : RiskEngine) : Option Price :=
  if r.bestBid > 0 ∧ r.bestAsk > 0 then some ((r.bestBid + r.bestAsk) / 2)
  else if r.bestBid > 0 then some r.bestBid
  else if r.bestAsk > 0 then some r.bestAsk
  else Option.none

def checkPriceCollar (r : RiskEngine) (msg : ParsedFixMessage Id) : RiskRejectReason :=
  if msg.ordType = byte '1' then .none
  else
    match r.refPrice with
    | Option.none => .none
    | some refPrice =>
      let maxDeviation := refPrice * r.config.collarBps / 10000
      let deviation := if msg.price > refPrice then msg.price - refPrice else refPrice - msg.price
      if deviation > maxDeviation then .priceCollar else .none

/-- A new window once the current one is over. -/
def openWindow (r : RiskEngine) (nowNs : UInt64) : RiskEngine :=
  if nowNs - r.windowStartNs ≥ r.config.windowDurationNs then
    { r with windowStartNs := nowNs, windowMsgCount := 0 }
  else r

def checkRateLimit (r : RiskEngine) (nowNs : UInt64) : RiskRejectReason × RiskEngine :=
  let r1 := r.openWindow nowNs
  let r2 := { r1 with windowMsgCount := r1.windowMsgCount + 1 }
  (if r2.windowMsgCount > r2.config.maxMsgsPerWindow then .rateLimit else .none, r2)

/-- `stats.recordReject(result); return result;` -/
def reject (r : RiskEngine) (result : RiskRejectReason) : RiskRejectReason × RiskEngine :=
  (result, { r with stats := r.stats.recordReject result })

/-- The checks in the order of the source; the clock is read by the last of them only. -/
def checkOrder (r : RiskEngine) (msg : ParsedFixMessage Id) (nowNs : UInt64) :
    RiskRejectReason × RiskEngine :=
  let r1 := { r with stats.totalChecked := r.stats.totalChecked + 1 }
  if checkValidity msg ≠ .none then r1.reject (checkValidity msg)
  else if r1.checkFatFingerSize msg ≠ .none then r1.reject (r1.checkFatFingerSize msg)
  else if r1.checkNotional msg ≠ .none then r1.reject (r1.checkNotional msg)
  else if r1.checkPriceCollar msg ≠ .none then r1.reject (r1.checkPriceCollar msg)
  else
    let (result, r2) := r1.checkRateLimit nowNs
    if result ≠ .none then r2.reject result
    else (.none, { r2 with stats.totalPassed := r2.stats.totalPassed + 1 })

def updateBBO (r : RiskEngine) (bid ask : Price) : RiskEngine :=
  { r with bestBid := bid, bestAsk := ask }

theorem openWindow_withStats (r : RiskEngine) (s : RiskStats) (nowNs : UInt64) :
    { r with stats := s }.openWindow nowNs = { r.openWindow nowNs with stats := s } := by
  by_cases h : nowNs - r.windowStartNs ≥ r.config.windowDurationNs <;> simp [openWindow, h]

theorem checks_withStats (r : RiskEngine) (s : RiskStats) (msg : ParsedFixMessage Id) :
    { r with stats := s }.checkFatFingerSize msg = r.checkFatFingerSize msg ∧
      { r with stats := s }.checkNotional msg = r.checkNotional msg ∧
      { r with stats := s }.checkPriceCollar msg = r.checkPriceCollar msg := ⟨rfl, rfl, rfl⟩

theorem checkRateLimit_withStats (r : RiskEngine) (s : RiskStats) (nowNs : UInt64) :
    ({ r with stats := s }.checkRateLimit nowNs).1 = (r.checkRateLimit nowNs).1 := by
  unfold checkRateLimit
  rw [openWindow_withStats]

/-- A message passes exactly when each of the five checks passes it. -/
theorem checkOrder_eq_none_iff {r : RiskEngine} {msg : ParsedFixMessage Id} {nowNs : UInt64} :
    (r.checkOrder msg nowNs).1 = .none ↔
      checkValidity msg = .none ∧ r.checkFatFingerSize msg = .none ∧ r.checkNotional msg = .none ∧
        r.checkPriceCollar msg = .none ∧ (r.checkRateLimit nowNs).1 = .none := by
  simp only [checkOrder, checks_withStats, checkRateLimit_withStats, reject]
  split_ifs with hv hs hn hc hr
  · simp [hv]
  · simp [hs]
  · simp [hn]
  · simp [hc]
  · simp [hr]
  · simp only [not_not] at hv hs hn hc hr
    simp [hv, hs, hn, hc, hr]

section Checks
variable {r : RiskEngine} {msg : ParsedFixMessage Id}

theorem ite_none_iff {c : Prop} [Decidable c] {result : RiskRejectReason} (h : result ≠ .none) :
    (if c then result else .none) = RiskRejectReason.none ↔ ¬ c := by
  split_ifs with hc
  · exact iff_of_false h (not_not.mpr hc)
  · exact iff_of_true rfl hc

theorem checkValidity_iff : checkValidity msg = .none ↔
    0 < msg.qty ∧ (msg.ordType ≠ byte '1' → 0 < msg.price) := by
  unfold checkValidity
  split_ifs with hq hp
  · exact iff_of_false (by decide) fun h => Int64.not_lt.mpr hq h.1
  · exact iff_of_false (by decide) fun h => Int64.not_lt.mpr hp.2 (h.2 hp.1)
  · exact iff_of_true rfl ⟨Int64.not_le.mp hq, fun hm => Int64.not_le.mp fun hle => hp ⟨hm, hle⟩⟩

theorem checkFatFingerSize_iff :
    r.checkFatFingerSize msg = .none ↔ toQuantity msg.qty ≤ r.config.maxOrderQty := by
  unfold checkFatFingerSize
  rw [ite_none_iff (by decide)]
  exact UInt32.not_lt

theorem checkNotional_iff : r.checkNotional msg = .none ↔
    (msg.ordType ≠ byte '1' → msg.price * msg.qty ≤ r.config.maxNotional) := by
  unfold checkNotional
  by_cases hm : msg.ordType = byte '1'
  · simp [hm]
  · rw [if_neg hm, ite_none_iff (by decide), forall_prop_of_true hm]
    exact Int64.not_lt

theorem checkPriceCollar_iff : r.checkPriceCollar msg = .none ↔
    (msg.ordType ≠ byte '1' → ∀ ref ∈ r.refPrice,
      (if msg.price > ref then msg.price - ref else ref - msg.price) ≤
        ref * r.config.collarBps / 10000) := by
  unfold checkPriceCollar
  by_cases hm : msg.ordType = byte '1'
  · simp [hm]
  rw [if_neg hm, forall_prop_of_true hm]
  cases r.refPrice with
  | none => simp
  | some ref =>
    simp only [Option.mem_some_iff, forall_eq']
    rw [ite_none_iff (by decide)]
    exact Int64.not_lt

end Checks

theorem openWindow_config (r : RiskEngine) (nowNs : UInt64) :
    (r.openWindow nowNs).config = r.config := by
  unfold openWindow
  split_ifs <;> rfl

theorem checkOrder_config (r : RiskEngine) (msg : ParsedFixMessage Id) (nowNs : UInt64) :
    (r.checkOrder msg nowNs).2.config = r.config := by
  unfold checkOrder
  simp only [reject, checkRateLimit]
  split_ifs <;> simp only [openWindow_config]

end RiskEngine
end LobCity
