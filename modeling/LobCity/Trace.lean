import LobCity.LevelSteps

/-! The matching loops with a record of their fills: the same recursion as `matchLevel`
and `matchOrder`, noting the state and the resting order each fill starts from. -/
namespace LobCity
open Library

namespace Engine
variable (s : Side) (stops : Price → Price → Bool) (names : OrderId → OrderId → OrderId × OrderId)
  (px : Price) (time : Timestamp) (order : Addr)

def traceLevel : Nat → Option Addr → Engine → Option (List (Engine × Addr) × Engine)
  | _, none, e => some ([], e)
  | 0, some _, _ => none
  | fuel + 1, some resting, e =>
    if (e.heap order).quantity > 0 then
      (traceLevel fuel (e.heap resting).next (fill s names px time order resting e)).map
        fun r => ((e, resting) :: r.1, r.2)
    else some ([], e)

def traceOrder : Nat → Engine → Option (List (Engine × Addr) × Engine)
  | 0, _ => none
  | fuel + 1, e =>
    if (e.heap order).quantity > 0 then
      match (e.levels s).first? with
      | none => some ([], e)
      | some (px, lvl) =>
        if !(e.heap order).isMarket && stops (e.heap order).price px then some ([], e)
        else do
          let r ← traceLevel s names px time order (e.allAllocated.length + 1) lvl.head e
          let r' ← traceOrder fuel (r.2.eraseIfEmpty s px)
          return (r.1 ++ r'.1, r'.2)
    else some ([], e)

def traceIncoming (e : Engine) (order : Addr) (time : Timestamp) :
    Option (List (Engine × Addr) × Engine) :=
  match (e.heap order).side with
  | .buy => traceOrder .sell (fun limit best => limit < best) (fun taker maker => (taker, maker))
      time order (e.allAllocated.length + 1) e
  | .sell => traceOrder .buy (fun limit best => limit > best) (fun taker maker => (maker, taker))
      time order (e.allAllocated.length + 1) e

def tradeOf (fill : Engine × Addr) : Trade :=
  let taker := fill.1.heap order
  let maker := fill.1.heap fill.2
  let ids := s.tradeIds taker.id maker.id
  ⟨ids.1, ids.2, maker.price, min taker.quantity maker.quantity, time⟩

variable {s stops names px time order}

theorem traceLevel_snd (fuel : Nat) (a : Option Addr) (e : Engine) :
    (traceLevel s names px time order fuel a e).map Prod.snd =
      matchLevel s names px time order fuel a e := by
  induction fuel generalizing a e with
  | zero => cases a <;> rfl
  | succ fuel ih =>
    cases a with
    | none => rfl
    | some resting =>
      rw [traceLevel, matchLevel]
      split_ifs
      · rw [Option.map_map, ← ih]
        rfl
      · rfl

theorem traceOrder_snd (fuel : Nat) (e : Engine) :
    (traceOrder s stops names time order fuel e).map Prod.snd =
      matchOrder s stops names time order fuel e := by
  induction fuel generalizing e with
  | zero => rfl
  | succ fuel ih =>
    rw [traceOrder, matchOrder]
    split_ifs
    · cases (e.levels s).first? with
      | none => rfl
      | some l =>
        dsimp only
        split_ifs
        · rfl
        · rw [← traceLevel_snd]
          cases traceLevel s names l.1 time order (e.allAllocated.length + 1) l.2.head e with
          | none => rfl
          | some r =>
            simp only [Option.map_some, Option.bind_eq_bind, Option.bind_some, ← ih]
            cases traceOrder s stops names time order fuel (r.2.eraseIfEmpty s l.1) <;> rfl
    · rfl

theorem traceIncoming_snd (e : Engine) (order : Addr) (time : Timestamp) :
    (e.traceIncoming order time).map Prod.snd = e.matchIncoming order time := by
  unfold traceIncoming matchIncoming matchBuyOrder matchSellOrder
  cases (e.heap order).side with
  | buy => exact traceOrder_snd _ e
  | sell => exact traceOrder_snd _ e

end Engine

/-- The orders of a side without their ids and quantities. -/
def keys (L : List Resting) : List (Addr × Price) := L.map fun r => (r.ref, r.price)

/-- A fill that takes the first of the orders still resting on side `s`, where only orders
in front were used up since the book was `b`. -/
def Takes (s : Side) (b : Book) (fill : Engine × Addr) : Prop :=
  ∃ hole hands b' r L, Represents hole fill.1 hands b' ∧ b'.side s = r :: L ∧ r.ref = fill.2 ∧
    keys (b'.side s) <:+ keys (b.side s)

/-- A stretch of a matching loop from `e`, at book `b`, to `e'`. -/
structure Traced (s : Side) (order : Addr) (time : Timestamp) (e : Engine) (b : Book)
    (fills : List (Engine × Addr)) (e' : Engine) : Prop where
  trades : e'.tradeLog = e.tradeLog ++ fills.map (Engine.tradeOf s time order)
  takes : ∀ f ∈ fills, Takes s b f

namespace Traced
variable {s : Side} {order : Addr} {time : Timestamp} {e e1 e2 : Engine} {b b1 : Book}
  {F G : List (Engine × Addr)}

theorem nil (h : e1.tradeLog = e.tradeLog) : Traced s order time e b [] e1 :=
  ⟨by simp [h], by simp⟩

theorem append (h : Traced s order time e b F e1) (h' : Traced s order time e1 b1 G e2)
    (hb : keys (b1.side s) <:+ keys (b.side s)) : Traced s order time e b (F ++ G) e2 := by
  refine ⟨by rw [h'.trades, h.trades, List.map_append, List.append_assoc], fun f hf => ?_⟩
  cases List.mem_append.mp hf with
  | inl hf =>
    exact h.takes f hf
  | inr hf =>
    obtain ⟨hole, hands, b', r, L, hr, hL, he, hk⟩ := h'.takes f hf
    exact ⟨hole, hands, b', r, L, hr, hL, he, hk.trans hb⟩

end Traced
end LobCity
