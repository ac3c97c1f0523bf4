import LobCity.Gateway
import LobCity.Library.Int64Range

/-! The notional and the collar check against the same tests in unbounded integers. The
machine tests are exact as long as three numbers stay below `2 ^ 63`. -/
namespace LobCity
open Library

/-- The price a collar is centred on: the midpoint rounded down, or the only best price. -/
def exactRef (bid ask : Int) : Option Int :=
  if 0 < bid ∧ 0 < ask then some ((bid + ask) / 2)
  else if 0 < bid then some bid
  else if 0 < ask then some ask
  else none

theorem exactRef_pos {bid ask ref : Int} (h : ref ∈ exactRef bid ask) : 0 < ref := by
  unfold exactRef at h
  split_ifs at h with hb hbid hask
  · obtain rfl := Option.some.inj h
    omega
  · obtain rfl := Option.some.inj h
    exact hbid
  · obtain rfl := Option.some.inj h
    exact hask
  · cases h

/-- The machine quotient of a non-negative number is the integer one. -/
theorem toInt_div_of_nonneg {x : Int64} (hx : 0 ≤ x.toInt) (d : Int64) :
    (x / d).toInt = x.toInt / d.toInt := by
  have hmin : x ≠ Int64.minValue := by
    rintro rfl
    exact absurd hx (by decide)
  rw [Int64.toInt_div_of_ne_left x d hmin, Int.tdiv_eq_ediv_of_nonneg hx]

/-- Rounding the bound down does not matter to a whole number. -/
theorem lt_of_floor_iff {x dev : Int} {n : Int} (hn : 0 < n) : x / n < dev ↔ x < n * dev := by
  rw [Int.ediv_lt_iff_lt_mul hn, mul_comm]

namespace RiskEngine
variable {Id : Type}

/-- The verdicts on a limit order are those of unbounded integers. -/
structure ExactVerdicts (r : RiskEngine) (msg : ParsedFixMessage Id) : Prop where
  notional : r.checkNotional msg ≠ .none ↔
    r.config.maxNotional.toInt < msg.price.toInt * msg.qty.toInt
  collar : r.checkPriceCollar msg ≠ .none ↔ ∃ ref ∈ exactRef r.bestBid.toInt r.bestAsk.toInt,
    ref * r.config.collarBps.toInt < 10000 * |msg.price.toInt - ref|

structure InRange (r : RiskEngine) (msg : ParsedFixMessage Id) : Prop where
  notional : Fits64 (msg.price.toInt * msg.qty.toInt)
  midpoint : 0 < r.bestBid.toInt → 0 < r.bestAsk.toInt → Fits64 (r.bestBid.toInt + r.bestAsk.toInt)
  band : ∀ ref ∈ exactRef r.bestBid.toInt r.bestAsk.toInt,
    Fits64 (ref * r.config.collarBps.toInt)
  deviation : ∀ ref ∈ exactRef r.bestBid.toInt r.bestAsk.toInt, Fits64 |msg.price.toInt - ref|

/-- The notional, the sum of the best prices and the reference price times the basis points
are below `2 ^ 63`. -/
structure Bounded (r : RiskEngine) (msg : ParsedFixMessage Id) : Prop where
  notional : msg.price.toInt * msg.qty.toInt < 2 ^ 63
  midpoint : 0 < r.bestBid.toInt → 0 < r.bestAsk.toInt → r.bestBid.toInt + r.bestAsk.toInt < 2 ^ 63
  band : ∀ ref ∈ exactRef r.bestBid.toInt r.bestAsk.toInt, ref * r.config.collarBps.toInt < 2 ^ 63

variable {r : RiskEngine} {msg : ParsedFixMessage Id}

theorem refPrice_exact (hmid : 0 < r.bestBid.toInt → 0 < r.bestAsk.toInt →
    r.bestBid.toInt + r.bestAsk.toInt < 2 ^ 63) :
    r.refPrice.map Int64.toInt = exactRef r.bestBid.toInt r.bestAsk.toInt := by
  have hpos (x : Int64) : x > 0 ↔ 0 < x.toInt := Int64.lt_iff_toInt_lt
  unfold refPrice exactRef
  simp only [hpos]
  split_ifs with hb
  · have hsum := Fits64.add_iff.mpr ⟨by omega, hmid hb.1 hb.2⟩
    have htwo : (2 : Int64).toInt = 2 := rfl
    rw [Option.map_some, toInt_div_of_nonneg (by omega), hsum, htwo]
  · rfl
  · rfl
  · rfl

theorem toInt_deviation {x y : Int64} (hx : 0 < x.toInt) (hy : 0 < y.toInt) :
    (if x > y then x - y else y - x).toInt = |x.toInt - y.toInt| := by
  have hxlt := x.toInt_lt
  have hylt := y.toInt_lt
  split_ifs with h
  · have hlt : y.toInt < x.toInt := Int64.lt_iff_toInt_lt.mp h
    rw [Fits64.sub_iff.mpr ⟨by omega, by omega⟩, abs_of_pos (by omega)]
  · have hle : ¬ y.toInt < x.toInt := fun hlt => h (Int64.lt_iff_toInt_lt.mpr hlt)
    rw [Fits64.sub_iff.mpr ⟨by omega, by omega⟩, abs_of_nonpos (by omega), neg_sub]

theorem fits_deviation {ref : Int} (hprice : 0 < msg.price.toInt)
    (href : ref ∈ r.refPrice.map Int64.toInt) (hpos : 0 < ref) : Fits64 |msg.price.toInt - ref| := by
  obtain ⟨x, -, rfl⟩ := Option.map_eq_some_iff.mp href
  rw [← toInt_deviation hprice hpos]
  exact Fits64.toInt _

/-- On a limit message that passed the validity check, both verdicts are exact and nothing
leaves the range exactly when the three numbers are below `2 ^ 63`. -/
theorem verdicts_exact_iff (hlimit : msg.ordType ≠ byte '1') (hvalid : checkValidity msg = .none)
    (hbps : 0 ≤ r.config.collarBps) :
    r.ExactVerdicts msg ∧ r.InRange msg ↔ r.Bounded msg := by
  constructor
  · rintro ⟨-, hin⟩
    exact ⟨hin.notional.2, fun hb ha => (hin.midpoint hb ha).2, fun ref href => (hin.band ref href).2⟩
  intro h
  obtain ⟨hq, hp⟩ := checkValidity_iff.mp hvalid
  have hqty : 0 < msg.qty.toInt := Int64.lt_iff_toInt_lt.mp hq
  have hprice : 0 < msg.price.toInt := Int64.lt_iff_toInt_lt.mp (hp hlimit)
  have hbps : 0 ≤ r.config.collarBps.toInt := Int64.le_iff_toInt_le.mp hbps
  have hnotional : Fits64 (msg.price.toInt * msg.qty.toInt) := by
    have hpos := Int.mul_pos hprice hqty
    exact ⟨by omega, h.notional⟩
  have href := refPrice_exact h.midpoint
  have hband : ∀ ref ∈ exactRef r.bestBid.toInt r.bestAsk.toInt,
      Fits64 (ref * r.config.collarBps.toInt) := by
    intro ref hmem
    have hnonneg := Int.mul_nonneg (exactRef_pos hmem).le hbps
    exact ⟨by omega, h.band ref hmem⟩
  refine ⟨⟨?_, ?_⟩, hnotional, fun hb ha => ⟨by omega, h.midpoint hb ha⟩, hband,
    fun ref hmem => fits_deviation hprice (href ▸ hmem) (exactRef_pos hmem)⟩
  · rw [Ne, checkNotional_iff, forall_prop_of_true hlimit, Int64.le_iff_toInt_le, Int.not_le,
      Fits64.mul_iff.mpr hnotional]
  · rw [Ne, checkPriceCollar_iff, forall_prop_of_true hlimit, ← href]
    have heach : ∀ ref ∈ r.refPrice, ((ref * r.config.collarBps / 10000).toInt <
        (if msg.price > ref then msg.price - ref else ref - msg.price).toInt ↔
        ref.toInt * r.config.collarBps.toInt < 10000 * |msg.price.toInt - ref.toInt|) := by
      intro ref hmem
      have hexact : ref.toInt ∈ exactRef r.bestBid.toInt r.bestAsk.toInt :=
        href ▸ Option.mem_map_of_mem _ hmem
      have hpos := exactRef_pos hexact
      have hprod := Fits64.mul_iff.mpr (hband _ hexact)
      have hnonneg : 0 ≤ (ref * r.config.collarBps).toInt := hprod ▸ Int.mul_nonneg hpos.le hbps
      have hten : (10000 : Int64).toInt = 10000 := rfl
      rw [toInt_deviation hprice hpos, toInt_div_of_nonneg hnonneg, hprod, hten]
      exact lt_of_floor_iff (by decide)
    simp only [Int64.le_iff_toInt_le, not_forall, Int.not_le, exists_prop]
    constructor
    · rintro ⟨ref, hmem, hlt⟩
      exact ⟨ref.toInt, Option.mem_map_of_mem _ hmem, (heach ref hmem).mp hlt⟩
    · rintro ⟨n, hn, hlt⟩
      obtain ⟨ref, hmem, rfl⟩ := Option.map_eq_some_iff.mp hn
      exact ⟨ref, hmem, (heach ref hmem).mpr hlt⟩

theorem verdicts_exact_quoted :
    let r : RiskEngine := { config := {}, bestBid := 1490000, bestAsk := 1510000 }
    let msg : FixMessage := { msgType := byte 'D', side := byte '1', ordType := byte '2', qty := 100,
                              price := 1510000, clOrdID := [byte '1'], origClOrdID := [] }
    r.ExactVerdicts msg ∧ r.InRange msg := by
  intro r msg
  refine (verdicts_exact_iff (by decide) (by decide) (by decide)).mpr ⟨by decide, by decide, ?_⟩
  intro ref href
  have hmid : exactRef r.bestBid.toInt r.bestAsk.toInt = some 1500000 := by decide
  rw [hmid] at href
  obtain rfl := Option.some.inj href
  decide

def hugeOrder : FixMessage :=
  { msgType := byte 'D', side := byte '1', ordType := byte '2', qty := 4,
    price := 4611686018427387904, clOrdID := [byte '1'], origClOrdID := [] }

/-- Its notional is `2 ^ 64`, which wraps to 0: it passes all checks of an empty book. -/
theorem hugeOrder_passes :
    let r : RiskEngine := { config := {} }
    hugeOrder.ordType ≠ byte '1' ∧ checkValidity hugeOrder = .none ∧
      r.checkFatFingerSize hugeOrder = .none ∧ 0 ≤ r.bestBid ∧ 0 ≤ r.bestAsk ∧
      0 ≤ r.config.maxNotional ∧ 0 ≤ r.config.collarBps ∧ (r.checkOrder hugeOrder 1).1 = .none ∧
      r.config.maxNotional.toInt < hugeOrder.price.toInt * hugeOrder.qty.toInt ∧
      ¬ r.ExactVerdicts hugeOrder := by
  intro r
  have hpass : r.checkNotional hugeOrder = .none := by decide
  have hlarge : r.config.maxNotional.toInt < hugeOrder.price.toInt * hugeOrder.qty.toInt := by decide
  exact ⟨by decide, by decide, by decide, by decide, by decide, by decide, by decide, by decide,
    hlarge, fun h => h.notional.mpr hlarge hpass⟩

end RiskEngine
end LobCity
