import LobCity.Depth
import LobCity.Library.Offers
import LobCity.Session
import Mathlib.Algebra.Order.Group.Int

/-! Best execution. A submitted order gets as many shares as the orders within its limit offer
it, and no choice of makers would give it as many on better terms. -/
namespace LobCity
open Library

def Side.paid : Side → Price → ℤ
  | .buy, p => p.toInt
  | .sell, p => -p.toInt

def Resting.offer (s : Side) (r : Resting) : Offer ℤ := ⟨s.paid r.price, r.quantity.toNat⟩

def Fill.paid (s : Side) (f : Fill) : ℤ := f.quantity.toNat * s.paid f.maker.price

section Greedy
variable {s : Side} {reaches : Price → Bool} {L : List Resting} {q : Quantity}

theorem Book.Sorted.offers (hs : Book.Sorted s.opposite L) :
    (L.map (Resting.offer s)).Pairwise fun o o' => o.price ≤ o'.price := by
  rw [List.pairwise_map]
  refine hs.imp fun {x y} hxy => ?_
  cases s with
  | buy => exact Int64.le_iff_toInt_le.mp (Int64.not_lt.mp hxy)
  | sell => exact Int.neg_le_neg (Int64.le_iff_toInt_le.mp (Int64.not_lt.mp hxy))

/-- The shares and the price of an execution are those of a front stretch of offers. -/
theorem fillGreedily_takeFirst (s : Side) (reaches : Price → Bool) (L : List Resting) (q : Quantity) :
    ((fillGreedily reaches L q).fills.map (Fill.paid s)).sum =
      Offer.cost (L.map (Resting.offer s)) (Offer.takeFirst (L.map (Resting.offer s))
        ((fillGreedily reaches L q).fills.map fun f => f.quantity.toNat).sum) := by
  induction L generalizing q with
  | nil => rfl
  | cons r L ih =>
    by_cases hstop : q = 0 ∨ reaches r.price = false
    · rw [fillGreedily_stop hstop]
      exact (Offer.cost_takeFirst_zero _).symm
    by_cases hfull : min q r.quantity = r.quantity
    · rw [fillGreedily_full hstop hfull]
      simp only [List.map_cons, List.sum_cons, Offer.takeFirst, Offer.cost_cons]
      have hunits : (r.offer s).units = r.quantity.toNat := rfl
      rw [hunits, Nat.add_sub_cancel_left, Nat.min_eq_right (Nat.le_add_right _ _), ← ih]
      rw [nsmul_eq_mul]
      rfl
    · obtain ⟨hq, hlt⟩ := (Quantity.min_cases q r.quantity).resolve_left fun h => hfull h.1
      have hunits : (r.offer s).units = r.quantity.toNat := rfl
      have hle : q.toNat ≤ r.quantity.toNat := Nat.le_of_lt (UInt32.lt_iff_toNat_lt.mp hlt)
      rw [fillGreedily_outlasts hstop hfull]
      simp only [List.map_cons, List.map_nil, List.sum_cons, List.sum_nil, Offer.takeFirst,
        Offer.cost_cons, Nat.add_zero]
      rw [hunits, Nat.min_eq_left hle, Nat.sub_eq_zero_of_le hle, Offer.cost_takeFirst_zero,
        nsmul_eq_mul]
      rfl

theorem fillGreedily_quantity (reaches : Price → Bool) (L : List Resting) (q : Quantity) :
    ((fillGreedily reaches L q).fills.map fun f => f.quantity.toNat).sum +
      (fillGreedily reaches L q).left.toNat = q.toNat := by
  induction L generalizing q with
  | nil => exact Nat.zero_add _
  | cons r L ih =>
    by_cases hstop : q = 0 ∨ reaches r.price = false
    · rw [fillGreedily_stop hstop]
      exact Nat.zero_add _
    by_cases hfull : min q r.quantity = r.quantity
    · have hle : r.quantity ≤ q := by
        obtain ⟨-, h⟩ := (Quantity.min_cases q r.quantity).resolve_right fun h => by grind
        exact h
      have hnat := toNat_sub (UInt32.le_iff_toNat_le.mp hle)
      have hrest := ih (q - r.quantity)
      have hle' := UInt32.le_iff_toNat_le.mp hle
      rw [fillGreedily_full hstop hfull]
      simp only [List.map_cons, List.sum_cons]
      omega
    · rw [fillGreedily_outlasts hstop hfull]
      simp

end Greedy

namespace Book
variable {b : Book} {o : Incoming}

theorem reaches_front {p p' : Price} (hp : ¬ o.side.opposite.better p' p)
    (h : o.reaches p' = true) : o.reaches p = true := by
  unfold Incoming.reaches at *
  cases hm : o.isMarket with
  | true => rfl
  | false =>
    rw [hm, Bool.false_or, Bool.not_eq_true', decide_eq_false_iff_not] at h
    rw [Bool.false_or, Bool.not_eq_true', decide_eq_false_iff_not]
    intro hb
    cases hs : o.side <;> simp only [hs, Side.opposite, Side.better] at hp h hb <;> grind

/-- The orders within the limit are a front stretch. -/
theorem reached_eq_filter (hs : Sorted o.side.opposite (b.side o.side.opposite)) :
    b.reached o = (b.side o.side.opposite).filter fun r => o.reaches r.price := by
  unfold reached
  generalize b.side o.side.opposite = L at hs ⊢
  induction L with
  | nil => rfl
  | cons r L ih =>
    obtain ⟨hfirst, hs⟩ := List.pairwise_cons.mp hs
    rw [List.takeWhile_cons, List.filter_cons]
    by_cases hr : o.reaches r.price = true
    · simp only [hr, if_true, ih hs]
    · have hnone : L.filter (fun x => o.reaches x.price) = [] :=
        List.filter_eq_nil_iff.mpr fun x hx hreach => hr (reaches_front (hfirst x hx) hreach)
      simp only [hr, Bool.false_eq_true, if_false, hnone]

theorem sum_fills (b : Book) (o : Incoming) :
    ((b.execution o).fills.map fun f => f.quantity.toNat).sum =
      min o.quantity.toNat (depth (b.reached o)) := by
  have hsum := fillGreedily_quantity o.reaches (b.side o.side.opposite) o.quantity
  have hleft : (b.execution o).left.toNat = o.quantity.toNat - depth (b.reached o) := by
    by_cases hu : UsesUp o.quantity (b.reached o)
    · exact (execution_through hu).2
    · have hpos : ¬ 0 < (b.execution o).left :=
        fun h => hu (usesUp_of_lt (left_pos_iff.mp h))
      have hle : ¬ depth (b.reached o) < o.quantity.toNat := mt left_pos_iff.mpr hpos
      have hzero : (b.execution o).left = 0 := by grind
      rw [hzero]
      exact (Nat.sub_eq_zero_of_le (Nat.not_lt.mp hle)).symm
  have hleft : (fillGreedily o.reaches (b.side o.side.opposite) o.quantity).left.toNat =
      o.quantity.toNat - depth (b.reached o) := hleft
  rw [execution]
  omega

/-- No choice of makers is cheaper. -/
theorem execution_cheapest (hs : Sorted o.side.opposite (b.side o.side.opposite))
    (take : Resting → ℕ) (htake : ∀ r ∈ b.side o.side.opposite, take r ≤ r.quantity.toNat)
    (hsum : ((b.side o.side.opposite).map take).sum =
      ((b.execution o).fills.map fun f => f.quantity.toNat).sum) :
    ((b.execution o).fills.map (Fill.paid o.side)).sum ≤
      ((b.side o.side.opposite).map fun r => (take r : ℤ) * o.side.paid r.price).sum := by
  set L := b.side o.side.opposite with hL
  have hallocation : Offer.Allocation (L.map (Resting.offer o.side)) (L.map take) := by
    rw [Offer.Allocation, List.forall₂_map_left_iff, List.forall₂_map_right_iff, List.forall₂_same]
    exact htake
  have hcost : Offer.cost (L.map (Resting.offer o.side)) (L.map take) =
      (L.map fun r => (take r : ℤ) * o.side.paid r.price).sum := by
    rw [Offer.cost, List.zipWith_map, List.zipWith_self]
    simp only [nsmul_eq_mul]
    rfl
  have hpaid := fillGreedily_takeFirst o.side o.reaches L o.quantity
  calc ((b.execution o).fills.map (Fill.paid o.side)).sum
      = Offer.cost (L.map (Resting.offer o.side))
          (Offer.takeFirst (L.map (Resting.offer o.side)) (L.map take).sum) := by
        rw [hsum]
        exact hpaid
    _ ≤ Offer.cost (L.map (Resting.offer o.side)) (L.map take) :=
        Offer.takeFirst_cheapest hs.offers hallocation
    _ = (L.map fun r => (take r : ℤ) * o.side.paid r.price).sum := hcost

end Book

/-- The trades of an order in hands, on the engine as it was before the call. -/
structure BestExecution (e : Engine) (order : Addr) (trades : List Trade) : Prop where
  within : ∀ t ∈ trades, (e.incoming order).reaches t.price = true
  /-- as many shares as it wants, or else all there are within its limit -/
  executed : (trades.map fun t => t.quantity.toNat).sum = min (e.heap order).quantity.toNat
    (((e.orders (e.heap order).side.opposite).filter fun a =>
      (e.incoming order).reaches (e.heap a).price).map fun a => (e.heap a).quantity.toNat).sum
  /-- whatever it might take from each resting order instead -/
  cheapest : ∀ take : Addr → ℕ,
    (∀ a ∈ e.orders (e.heap order).side.opposite, take a ≤ (e.heap a).quantity.toNat) →
    ((e.orders (e.heap order).side.opposite).map take).sum =
      (trades.map fun t => t.quantity.toNat).sum →
    (trades.map fun t => (t.quantity.toNat : ℤ) * (e.heap order).side.paid t.price).sum ≤
      ((e.orders (e.heap order).side.opposite).map fun a =>
        (take a : ℤ) * (e.heap order).side.paid (e.heap a).price).sum

namespace Engine
variable {e : Engine} {hands : List Addr} {order : Addr}

theorem WellFormed.bestExecution (h : e.WellFormed hands) (ho : order ∈ hands) (time now : Timestamp) :
    ∃ e' trades, e.processOrder order time now = some e' ∧ e'.tradeLog = e.tradeLog ++ trades ∧
      BestExecution e order trades := by
  obtain ⟨e', he, -, hbook, -⟩ := h.processOrder ho time now
  have hlog : e'.tradeLog = e.tradeLog ++ _ :=
    (congrArg Book.trades hbook).trans (Book.trades_process_eq e.book (e.incoming order) time)
  have hs := h.represents.sorted (e.incoming order).side.opposite
  have hside (s : Side) : e.book.side s = (e.orders s).map e.resting := rfl
  refine ⟨e', _, he, hlog, ⟨fun t ht => ?_, ?_, fun take htake hsum => ?_⟩⟩
  · obtain ⟨f, hf, rfl⟩ := List.mem_map.mp ht
    exact (fillGreedily_reaches hf).2
  · have hsum := Book.sum_fills e.book (e.incoming order)
    rw [Book.reached_eq_filter hs, hside, List.filter_map, depth, total, List.map_map] at hsum
    rw [List.map_map]
    exact hsum
  · have hcheapest := Book.execution_cheapest (o := e.incoming order) hs fun r => take r.ref
    rw [hside, List.map_map, List.map_map] at hcheapest
    rw [List.map_map] at hsum ⊢
    refine hcheapest (fun r hr => ?_) hsum
    obtain ⟨a, ha, rfl⟩ := List.mem_map.mp hr
    exact htake a ha

end Engine

namespace Session

/-- In every reachable state, whatever ids and quantities the calls have carried, an order that
is submitted is executed as far as its limit allows, and as cheaply as the book allows. -/
theorem run_bestExecution {poolSize : Nat} {udpPub : Bool} {ops : List Op}
    (hok : Along Session.step Owned (Session.new poolSize udpPub) ops) :
    ∃ S, run Session.step (Session.new poolSize udpPub) ops = some S ∧
      ∀ order ∈ S.hands, ∀ time now, ∃ e' trades,
        S.engine.processOrder order time now = some e' ∧
        e'.tradeLog = S.engine.tradeLog ++ trades ∧ BestExecution S.engine order trades := by
  obtain ⟨S, hS, hsound⟩ := run_sound hok
  exact ⟨S, hS, fun order ho time now => hsound.wellFormed.bestExecution ho time now⟩

def twoAsksOps : List Op :=
  [.acquire 1 101 5 .sell false, .process 1 10 11, .acquire 2 100 6 .sell false, .process 0 12 13,
    .acquire 3 101 8 .buy false]

/-- It takes the 6 and 2 of the 5, and no 8 shares cost less than 802. -/
theorem run_bestExecution_twoAsks :
    ∃ S, run Session.step (Session.new 2 false) twoAsksOps = some S ∧
      ∀ take : Addr → ℕ, (∀ a ∈ S.engine.orders .sell, take a ≤ (S.engine.heap a).quantity.toNat) →
        ((S.engine.orders .sell).map take).sum = 8 →
        802 ≤ ((S.engine.orders .sell).map fun a => (take a : ℤ) * (S.engine.heap a).price.toInt).sum := by
  have hok : Along Session.step Owned (Session.new 2 false) twoAsksOps := by decide +kernel
  obtain ⟨S, hS, hbest⟩ := run_bestExecution hok
  have hstate : (run Session.step (Session.new 2 false) twoAsksOps).map (fun S =>
      (S.hands, (S.engine.heap 2).side, S.engine.tradeLog,
        (S.engine.processOrder 2 14 15).map fun e => e.tradeLog)) =
      some ([2], .buy, [], some [⟨3, 2, 100, 6, 14⟩, ⟨3, 1, 101, 2, 14⟩]) := by decide +kernel
  rw [hS] at hstate
  obtain ⟨hhands, hstate⟩ := Prod.mk.inj (Option.some.inj hstate)
  obtain ⟨hside, hstate⟩ := Prod.mk.inj hstate
  obtain ⟨hempty, hlog⟩ := Prod.mk.inj hstate
  obtain ⟨e', trades, he, htrades, hb⟩ := hbest 2 (by rw [hhands]; exact List.mem_singleton_self 2) 14 15
  rw [he, Option.map_some, htrades, hempty, List.nil_append] at hlog
  obtain rfl := Option.some.inj hlog
  obtain ⟨-, -, hcheapest⟩ := hb
  rw [hside] at hcheapest
  exact ⟨S, hS, hcheapest⟩

end Session
end LobCity
