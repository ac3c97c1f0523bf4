import LobCity.BookInvariant
import LobCity.Weight

/-! Share accounts over whole histories. A lineage is an order under all its names: the
id it was submitted with, and every id a modify gave it. Each lineage's shares are
accounted for at every point, and a name no resting order has is never traded again. -/
namespace LobCity
open Library

/-- A session with its accounts, one entry for each lineage, named by its first id. -/
structure Ledger where
  session : Session
  lineage : OrderId → Option OrderId
  submitted : OrderId → Nat
  increased : OrderId → Nat
  decreased : OrderId → Nat
  cancelled : OrderId → Nat
  discarded : OrderId → Nat

def tradedBy (lineage : OrderId → Option OrderId) (l : OrderId) (log : List Trade) : Nat :=
  (log.map fun t => if lineage t.buyOrderId = some l ∨ lineage t.sellOrderId = some l then
    t.quantity.toNat else 0).sum

def credit (account : OrderId → Nat) (l : Option OrderId) (n : Nat) : OrderId → Nat :=
  fun k => account k + if l = some k then n else 0

namespace Ledger

def new (poolSize : Nat) (udpPub : Bool) : Ledger where
  session := Session.new poolSize udpPub
  lineage := fun _ => none
  submitted := fun _ => 0
  increased := fun _ => 0
  decreased := fun _ => 0
  cancelled := fun _ => 0
  discarded := fun _ => 0

/-- Enter a call that led to `S`. A released market order's cell still holds what it could
not get. -/
def record (L : Ledger) (S : Session) : Op → Ledger
  | .acquire .. => { L with session := S }
  | .process order _ _ =>
    let o := L.session.engine.heap order
    { L with
      session := S
      lineage := Function.update L.lineage o.id (some o.id)
      submitted := credit L.submitted (some o.id) o.quantity.toNat
      discarded := credit L.discarded (some o.id)
        (if o.isMarket then (S.engine.heap order).quantity.toNat else 0) }
  | .cancel id _ =>
    match L.session.engine.orderMap id with
    | none => { L with session := S }
    | some order =>
      { L with
        session := S
        cancelled := credit L.cancelled (L.lineage id)
          (L.session.engine.heap order).quantity.toNat }
  | .modify origId newId _ newQty _ =>
    match L.session.engine.orderMap origId with
    | none => { L with session := S }
    | some order =>
      let oldQty := (L.session.engine.heap order).quantity
      { L with
        session := S
        lineage := Function.update L.lineage newId (L.lineage origId)
        increased := credit L.increased (L.lineage origId) (newQty.toNat - oldQty.toNat)
        decreased := credit L.decreased (L.lineage origId) (oldQty.toNat - newQty.toNat) }

def step (L : Ledger) (op : Op) : Option Ledger :=
  (L.session.step op).map fun S => L.record S op

def Fresh (L : Ledger) : Op → Prop
  | .acquire .. => True
  | .process order _ _ => order ∈ L.session.hands ∧ 0 < (L.session.engine.heap order).quantity ∧
      L.lineage (L.session.engine.heap order).id = none
  | .cancel .. => True
  | .modify origId newId _ newQty _ => 0 < newQty ∧ (newId = origId ∨ L.lineage newId = none)

instance (L : Ledger) : DecidablePred L.Fresh
  | .acquire .. => inferInstanceAs (Decidable True)
  | .process order _ _ => inferInstanceAs (Decidable (order ∈ L.session.hands ∧
      0 < (L.session.engine.heap order).quantity ∧
      L.lineage (L.session.engine.heap order).id = none))
  | .cancel .. => inferInstanceAs (Decidable True)
  | .modify origId newId _ newQty _ =>
    inferInstanceAs (Decidable (0 < newQty ∧ (newId = origId ∨ L.lineage newId = none)))

def traded (L : Ledger) (l : OrderId) : Nat :=
  tradedBy L.lineage l L.session.engine.tradeLog

def resting (L : Ledger) (l : OrderId) : Nat :=
  ((L.session.engine.orders .buy ++ L.session.engine.orders .sell).map fun a =>
    if L.lineage (L.session.engine.heap a).id = some l then
      (L.session.engine.heap a).quantity.toNat else 0).sum

def Balanced (L : Ledger) (l : OrderId) : Prop :=
  L.submitted l + L.increased l =
    L.decreased l + L.traded l + L.resting l + L.cancelled l + L.discarded l

/-- All of the lineage was traded, cancelled or discarded. -/
def Settled (L : Ledger) (l : OrderId) : Prop :=
  L.submitted l + L.increased l = L.decreased l + L.traded l + L.cancelled l + L.discarded l

def Dead (L : Ledger) (k : OrderId) : Prop :=
  L.lineage k ≠ none ∧ k ∉ L.session.engine.restingIds

theorem resting_eq (L : Ledger) (l : OrderId) :
    L.resting l = L.session.engine.book.total (shares fun k => L.lineage k = some l) := by
  simp only [resting, Book.total, total, Engine.book, List.map_append, List.sum_append, List.map_map]
  rfl

end Ledger

section Traded
variable {lineage lineage' : OrderId → Option OrderId} {l : OrderId}

theorem tradedBy_append (log new : List Trade) :
    tradedBy lineage l (log ++ new) = tradedBy lineage l log + tradedBy lineage l new := by
  simp [tradedBy]

theorem tradedBy_congr {log : List Trade}
    (h : ∀ t ∈ log, lineage' t.buyOrderId = lineage t.buyOrderId ∧
      lineage' t.sellOrderId = lineage t.sellOrderId) :
    tradedBy lineage' l log = tradedBy lineage l log := by
  refine congrArg List.sum (List.map_congr_left fun t ht => ?_)
  rw [(h t ht).1, (h t ht).2]

/-- The trades of one call, by lineage: the makers' shares, and all of them for the taker. -/
theorem tradedBy_fills (s : Side) (taker : OrderId) (time : Timestamp) {F : List Fill}
    (ht : lineage taker = some taker) (hm : ∀ f ∈ F, lineage f.maker.id ≠ some taker) :
    tradedBy lineage l (F.map (Fill.trade s taker time)) =
      taken (fun k => lineage k = some l) F +
        if l = taker then (F.map fun f => f.quantity.toNat).sum else 0 := by
  induction F with
  | nil => simp [tradedBy, taken]
  | cons f F ih =>
    have ih := ih fun g hg => hm g (by simp [hg])
    have hf := hm f (by simp)
    have hids : (lineage (Fill.trade s taker time f).buyOrderId = some l ∨
        lineage (Fill.trade s taker time f).sellOrderId = some l) ↔
        taker = l ∨ lineage f.maker.id = some l := by
      cases s <;> simp [Fill.trade, Side.tradeIds, ht, or_comm]
    simp only [tradedBy, taken, List.map_cons, List.sum_cons] at ih ⊢
    rw [ih, if_congr hids rfl rfl]
    by_cases hl : l = taker
    · subst hl
      simp only [hf, true_or, if_true, if_false]
      have hq : (Fill.trade s l time f).quantity = f.quantity := rfl
      rw [hq]
      omega
    · simp only [hl, Ne.symm hl, false_or, if_false]
      have hq : (Fill.trade s taker time f).quantity = f.quantity := rfl
      rw [hq]
      omega

end Traded
end LobCity
