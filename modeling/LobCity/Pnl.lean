import LobCity.FillRuns
import LobCity.Library.AverageCost
import LobCity.Library.Int64Range

/-! The market maker's profit and loss. Its position is kept by the average cost rules, the
quantities in 64 bits; over rationals, and as long as no position overflows, what it
reports is the exact account of its fills. -/
namespace LobCity
open Library

namespace MarketMaker
variable {D : Type} [Double D]
open Double (ofInt64)

def holding (m : MarketMaker D) : Holding Int64 D := ⟨m.netPosition, m.realizedPnl, m.avgEntryPrice⟩

theorem holding_updatePosition (m : MarketMaker D) (qtyChange : Int64) (fillPrice : D) :
    (m.updatePosition qtyChange fillPrice).holding = m.holding.update ofInt64 qtyChange fillPrice := by
  have hnet : m.holding.net = m.netPosition := rfl
  unfold updatePosition Holding.update
  rw [hnet]
  by_cases hflat : m.netPosition = 0
  · rw [if_pos hflat, if_pos hflat]
    rfl
  by_cases hdir : (0 < m.netPosition ∧ 0 < qtyChange) ∨ (m.netPosition < 0 ∧ qtyChange < 0)
  · rw [if_neg hflat, if_neg hflat, if_pos hdir, if_pos hdir]
    rfl
  · rw [if_neg hflat, if_neg hflat, if_neg hdir, if_neg hdir]
    rfl

theorem computeUnrealizedPnl_eq (m : MarketMaker D) (midPrice : Price) :
    m.computeUnrealizedPnl midPrice =
      m.holding.unrealized ofInt64 (ofInt64 midPrice / ofInt64 10000) := rfl

end MarketMaker

section Exact

def Library.Holding.exact (h : Holding Int64 ℚ) : Holding ℤ ℚ := ⟨h.net.toInt, h.realized, h.entry⟩

theorem toInt_magnitude {x : Int64} (hx : x ≠ Int64.minValue) :
    (Holding.magnitude x).toInt = Holding.magnitude x.toInt := by
  have hneg : x < 0 ↔ x.toInt < 0 := Int64.lt_iff_toInt_lt
  unfold Holding.magnitude
  simp only [hneg]
  split_ifs
  · exact Fits64.neg_iff.mpr (Fits64.neg_of_ne_min hx)
  · rfl

theorem toInt_min (x y : Int64) : (min x y).toInt = min x.toInt y.toInt := by
  have hmin : min x y = if x ≤ y then x else y := rfl
  rw [hmin]
  by_cases h : x ≤ y
  · rw [if_pos h, min_eq_left (Int64.le_iff_toInt_le.mp h)]
  · rw [if_neg h, min_eq_right (Int.le_of_lt (Int64.lt_iff_toInt_lt.mp (Int64.not_le.mp h)))]

/-- The integers a position may reach: those whose negative fits as well. -/
def InRange (n : ℤ) : Prop := -2 ^ 63 < n ∧ n < 2 ^ 63

instance (n : ℤ) : Decidable (InRange n) := inferInstanceAs (Decidable (_ ∧ _))

theorem InRange.ne_min {x : Int64} (h : InRange x.toInt) : x ≠ Int64.minValue := by
  intro hx
  rw [hx] at h
  exact absurd h.1 (by decide)

theorem exact_update {h : Holding Int64 ℚ} {qty : Int64} (price : ℚ) (hnet : InRange h.net.toInt)
    (hqty : InRange qty.toInt) (hsum : InRange (h.net.toInt + qty.toInt)) :
    (h.update Double.ofInt64 qty price).exact = h.exact.update Int.cast qty.toInt price := by
  have hadd : (h.net + qty).toInt = h.net.toInt + qty.toInt :=
    Fits64.add_iff.mpr ⟨Int.le_of_lt hsum.1, hsum.2⟩
  have hzero (x : Int64) : x = 0 ↔ x.toInt = 0 := Int64.toInt_inj.symm
  have hpos (x : Int64) : 0 < x ↔ 0 < x.toInt := Int64.lt_iff_toInt_lt
  have hneg (x : Int64) : x < 0 ↔ x.toInt < 0 := Int64.lt_iff_toInt_lt
  have hcast (x : Int64) : (Double.ofInt64 x : ℚ) = (x.toInt : ℚ) := rfl
  have hmagnitude (x : Int64) (hx : InRange x.toInt) :
      (Holding.magnitude x).toInt = Holding.magnitude x.toInt := toInt_magnitude hx.ne_min
  have hnew := hmagnitude (h.net + qty) (by rwa [hadd])
  rw [hadd] at hnew
  have hnet' : h.exact.net = h.net.toInt := rfl
  simp only [Holding.update, hnet', hzero, hpos, hneg, hadd, hcast, toInt_min, hmagnitude _ hnet,
    hmagnitude _ hqty, hnew]
  split_ifs <;> simp only [Holding.exact, hadd, Int64.toInt_zero]

theorem exact_unrealized {h : Holding Int64 ℚ} (mark : ℚ) (hnet : InRange h.net.toInt) :
    h.unrealized Double.ofInt64 mark = h.exact.unrealized Int.cast mark := by
  have hzero (x : Int64) : x = 0 ↔ x.toInt = 0 := Int64.toInt_inj.symm
  have hpos (x : Int64) : 0 < x ↔ 0 < x.toInt := Int64.lt_iff_toInt_lt
  have hcast (x : Int64) : (Double.ofInt64 x : ℚ) = (x.toInt : ℚ) := rfl
  have hnet' : h.exact.net = h.net.toInt := rfl
  simp only [Holding.unrealized, hnet', hzero, hpos, hcast, toInt_magnitude hnet.ne_min,
    Int64.toInt_zero]
  rfl

def exactFills (fills : List (Int64 × ℚ)) : List (ℤ × ℚ) := fills.map fun f => (f.1.toInt, f.2)

/-- No quantity, and no position on the way, is out of range. -/
def NoOverflow (net : ℤ) (fills : List (Int64 × ℚ)) : Prop :=
  (∀ f ∈ fills, InRange f.1.toInt) ∧
    ∀ reached, reached <+: fills → InRange (net + Holding.position (exactFills reached))

theorem NoOverflow.start {net : ℤ} {fills : List (Int64 × ℚ)} (h : NoOverflow net fills) :
    InRange net := by
  have hnil := h.2 [] List.nil_prefix
  rwa [exactFills, List.map_nil, Holding.position, List.map_nil, List.sum_nil, add_zero] at hnil

theorem NoOverflow.tail {net : ℤ} {f : Int64 × ℚ} {fills : List (Int64 × ℚ)}
    (h : NoOverflow net (f :: fills)) : NoOverflow (net + f.1.toInt) fills := by
  refine ⟨fun g hg => h.1 g (List.mem_cons_of_mem f hg), fun reached hreached => ?_⟩
  have hcons := h.2 (f :: reached) (List.prefix_cons_inj f |>.mpr hreached)
  rwa [exactFills, List.map_cons, Holding.position, List.map_cons, List.sum_cons, ← add_assoc] at hcons

namespace MarketMaker

def applyFills (m : MarketMaker ℚ) (fills : List (Int64 × ℚ)) : MarketMaker ℚ :=
  fills.foldl (fun m f => m.updatePosition f.1 f.2) m

theorem applyFills_exact (m : MarketMaker ℚ) {fills : List (Int64 × ℚ)}
    (h : NoOverflow m.netPosition.toInt fills) :
    (m.applyFills fills).holding.exact = m.holding.exact.run (exactFills fills) := by
  induction fills generalizing m with
  | nil => rfl
  | cons f fills ih =>
    have hnet : m.netPosition.toInt = m.holding.net.toInt := rfl
    have hstart := h.start
    have hnext := h.tail.start
    have hstep : (m.updatePosition f.1 f.2).holding.exact =
        m.holding.exact.update Int.cast f.1.toInt f.2 := by
      rw [holding_updatePosition]
      exact exact_update f.2 hstart (h.1 f (by simp)) hnext
    have hposition : (m.updatePosition f.1 f.2).netPosition.toInt =
        m.netPosition.toInt + f.1.toInt := by
      have hcongr := congrArg Holding.net hstep
      rwa [Holding.net_update] at hcongr
    have hrest := ih (m.updatePosition f.1 f.2) (by rw [hposition]; exact h.tail)
    rw [hstep] at hrest
    exact hrest

end MarketMaker

/-- The account of a sequence of fills, with the position marked at a price. -/
structure Balanced (fills : List (ℤ × ℚ)) (mark : ℚ) (net : ℤ) (realized unrealized : ℚ) : Prop where
  position : net = (fills.map Prod.fst).sum
  total : realized + unrealized = -(fills.map fun f => (f.1 : ℚ) * f.2).sum + net * mark
  flat : net = 0 → realized = -(fills.map fun f => (f.1 : ℚ) * f.2).sum

theorem run_balanced (fills : List (ℤ × ℚ)) (entry mark : ℚ) :
    Balanced fills mark ((Holding.mk 0 0 entry).run fills).net
      ((Holding.mk 0 0 entry).run fills).realized
      (((Holding.mk 0 0 entry).run fills).unrealized Int.cast mark) := by
  obtain ⟨hnet, htotal⟩ := Holding.run_total fills 0 entry mark
  obtain ⟨-, hbalance⟩ := Holding.run_balance (Holding.mk 0 0 entry) fills
  refine ⟨hnet, ?_, fun hflat => ?_⟩
  · rw [htotal, hnet, zero_add]
    rfl
  · rw [hflat] at hbalance
    simpa [Holding.cash] using hbalance

/-- In exact arithmetic the rules of `updatePosition` account for every sequence of fills
from a flat start; so does the market maker as long as no position overflows. -/
theorem MarketMaker.updatePosition_balanced :
    (∀ (fills : List (ℤ × ℚ)) (mark : ℚ),
      let h := (Holding.mk 0 0 0).run fills
      Balanced fills mark h.net h.realized (h.unrealized Int.cast mark)) ∧
    ∀ (m : MarketMaker ℚ) (fills : List (Int64 × ℚ)) (midPrice : Price),
      m.netPosition = 0 → m.realizedPnl = 0 → NoOverflow 0 fills →
      let m' := m.applyFills fills
      Balanced (exactFills fills) (midPrice.toInt / 10000) m'.netPosition.toInt m'.realizedPnl
        (m'.computeUnrealizedPnl midPrice) := by
  refine ⟨fun fills mark => run_balanced fills 0 mark, ?_⟩
  intro m fills midPrice hflat hrealized hrange m'
  have hnet : m.netPosition.toInt = 0 := by rw [hflat]; rfl
  have hstart : m.holding.exact = Holding.mk 0 0 m.avgEntryPrice := by
    rw [Holding.exact, holding, hflat, hrealized]
    rfl
  have hrun : m'.holding.exact = (Holding.mk 0 0 m.avgEntryPrice).run (exactFills fills) := by
    rw [m.applyFills_exact (by rwa [hnet]), hstart]
  have hposition : m'.netPosition.toInt = Holding.position (exactFills fills) :=
    (congrArg Holding.net hrun).trans (Holding.run_total _ 0 m.avgEntryPrice 0).1
  have hmark : (Double.ofInt64 midPrice / Double.ofInt64 10000 : ℚ) = midPrice.toInt / 10000 := by
    have hten : (10000 : Int64).toInt = 10000 := by decide
    have hcast : (Double.ofInt64 10000 : ℚ) = ((10000 : Int64).toInt : ℚ) := rfl
    rw [hcast, hten]
    rfl
  have hend : InRange m'.holding.net.toInt := by
    have hlast := hrange.2 fills (List.prefix_refl fills)
    rw [zero_add, ← hposition] at hlast
    exact hlast
  have hbalanced := run_balanced (exactFills fills) m.avgEntryPrice (midPrice.toInt / 10000)
  rw [← hrun, ← exact_unrealized _ hend, ← hmark, ← computeUnrealizedPnl_eq, hmark] at hbalanced
  exact hbalanced

/-- Ten bought at 100 and fifteen sold at 110: five short, and the first ten realized. -/
theorem MarketMaker.updatePosition_balanced_crossing :
    let m := (new quoteConfig : MarketMaker ℚ).applyFills [(10, 100), (-15, 110)]
    m.netPosition.toInt = -5 ∧ m.realizedPnl + m.computeUnrealizedPnl 1050000 = 125 := by
  intro m
  have hrange : NoOverflow 0 [(10, 100), (-15, 110)] := by
    refine ⟨by decide, fun reached hreached => ?_⟩
    have hmem : reached ∈ List.inits [((10 : Int64), (100 : ℚ)), (-15, 110)] :=
      (List.mem_inits _ _).mpr hreached
    simp only [List.inits, List.map_cons, List.map_nil, List.mem_cons, List.not_mem_nil, or_false] at hmem
    obtain rfl | rfl | rfl := hmem <;> decide
  have hbalanced := updatePosition_balanced.2 (new quoteConfig) [(10, 100), (-15, 110)] 1050000
    rfl rfl hrange
  have hnet : m.netPosition.toInt = -5 := hbalanced.position.trans (by decide)
  have hmark : (1050000 : Price).toInt = 1050000 := by decide
  have hten : (10 : Int64).toInt = 10 := by decide
  have hfifteen : (-15 : Int64).toInt = -15 := by decide
  refine ⟨hnet, hbalanced.total.trans ?_⟩
  rw [show ((new quoteConfig : MarketMaker ℚ).applyFills _).netPosition.toInt = -5 from hnet]
  norm_num [exactFills, hmark, hten, hfifteen]

end Exact
end LobCity
