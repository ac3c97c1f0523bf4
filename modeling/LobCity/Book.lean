import LobCity.OrderBook

/-! What the engine is for, without pointers: each side is one sequence of resting
orders, best price first and first-in-first-out within a price, together with the id
index, the trade log and the pool's free cells. The operations are total. -/
namespace LobCity

/-- A resting order; `ref` is the cell that holds it. -/
structure Resting where
  ref : Addr
  id : OrderId
  price : Price
  quantity : Quantity
deriving DecidableEq, Repr

/-- An order in somebody's hands: acquired, and neither resting nor released. -/
structure Incoming where
  ref : Addr
  id : OrderId
  price : Price
  quantity : Quantity
  side : Side
  isMarket : Bool
deriving DecidableEq, Repr

def Incoming.order (o : Incoming) : Order :=
  Order.new o.id o.price o.quantity o.side o.isMarket

def Incoming.resting (o : Incoming) : Resting := ⟨o.ref, o.id, o.price, o.quantity⟩

def Incoming.reaches (o : Incoming) (p : Price) : Bool :=
  o.isMarket || !decide (o.side.opposite.better o.price p)

def Side.tradeIds (s : Side) (taker maker : OrderId) : OrderId × OrderId :=
  match s with
  | .sell => (taker, maker)
  | .buy => (maker, taker)

def refs (L : List Resting) : List Addr := L.map Resting.ref

def volume (L : List Resting) : Quantity := (L.map Resting.quantity).sum

structure Book where
  side : Side → List Resting
  index : OrderId → Option Addr
  trades : List Trade
  free : List Addr
  allocated : Nat

namespace Book

def new (poolSize : Nat) : Book where
  side := fun _ => []
  index := fun _ => none
  trades := []
  free := (List.range poolSize).reverse
  allocated := poolSize

def setSide (b : Book) (s : Side) (L : List Resting) : Book :=
  { b with side := Function.update b.side s L }

def queue (b : Book) (s : Side) (p : Price) : List Resting :=
  (b.side s).filter fun r => r.price = p

def cells (b : Book) (hands : List Incoming) : List Addr :=
  refs (b.side .buy) ++ refs (b.side .sell) ++ b.free ++ hands.map Incoming.ref

def acquire (b : Book) (id : OrderId) (p : Price) (q : Quantity) (s : Side) (m : Bool) :
    Incoming × Book :=
  match b.free with
  | [] => (⟨b.allocated, id, p, q, s, m⟩, { b with allocated := b.allocated + 1 })
  | a :: rest => (⟨a, id, p, q, s, m⟩, { b with free := rest })

def release (b : Book) (a : Addr) : Book := { b with free := a :: b.free }

def eraseId (b : Book) (id : OrderId) : Book :=
  { b with index := Function.update b.index id none }

def enqueue (s : Side) (r : Resting) (L : List Resting) : List Resting :=
  L.orderedInsert (fun x y => s.better x.price y.price) r

def rest (b : Book) (o : Incoming) : Book :=
  { b.setSide o.side (enqueue o.side o.resting (b.side o.side)) with
    index := Function.update b.index o.id (some o.ref) }

def drop (b : Book) (s : Side) (a : Addr) : Book :=
  b.setSide s ((b.side s).filter fun r => r.ref ≠ a)

def rewrite (b : Book) (s : Side) (a : Addr) (id : OrderId) (q : Quantity) : Book :=
  b.setSide s ((b.side s).map fun r => if r.ref = a then { r with id := id, quantity := q } else r)

def consume (s : Side) (time : Timestamp) (id : OrderId) (q : Quantity) (b : Book) : Book :=
  match b.side s with
  | [] => b
  | r :: L =>
    let f := min q r.quantity
    let ids := s.tradeIds id r.id
    let b1 : Book := { b with trades := b.trades ++ [⟨ids.1, ids.2, r.price, f, time⟩] }
    if r.quantity - f = 0 then
      ((b1.eraseId r.id).setSide s L).release r.ref
    else b1.setSide s ({ r with quantity := r.quantity - f } :: L)

/-- Consume along `L`, the orders of side `s`, while the taker wants more and reaches. -/
def sweep (s : Side) (reaches : Price → Bool) (time : Timestamp) (id : OrderId) :
    List Resting → Quantity → Book → Quantity × Book
  | [], q, b => (q, b)
  | r :: L, q, b =>
    if q = 0 ∨ reaches r.price = false then (q, b)
    else sweep s reaches time id L (q - min q r.quantity) (b.consume s time id q)

def process (b : Book) (o : Incoming) (time : Timestamp) : Book :=
  let s := o.side.opposite
  let (q, b1) := sweep s o.reaches time o.id (b.side s) o.quantity b
  if q > 0 then
    if o.isMarket then b1.release o.ref else b1.rest { o with quantity := q }
  else b1.release o.ref

def lookup (b : Book) (a : Addr) : Option (Side × Resting) :=
  match (b.side .buy).find? fun r => r.ref = a with
  | some r => some (.buy, r)
  | none => ((b.side .sell).find? fun r => r.ref = a).map fun r => (.sell, r)

def cancel (b : Book) (id : OrderId) : Book :=
  match (b.index id).bind b.lookup with
  | none => b
  | some (s, r) => ((b.eraseId id).drop s r.ref).release r.ref

def modify (b : Book) (origId newId : OrderId) (newPrice : Price) (newQty : Quantity) : Book :=
  match (b.index origId).bind b.lookup with
  | none => b
  | some (s, r) =>
    if newPrice = r.price ∧ newQty < r.quantity then
      let b1 := (b.rewrite s r.ref newId newQty).eraseId origId
      { b1 with index := Function.update b1.index newId (some r.ref) }
    else ((b.eraseId origId).drop s r.ref).rest ⟨r.ref, newId, newPrice, newQty, s, false⟩

def Indexed (b : Book) : Prop :=
  ∀ k a, b.index k = some a → ∃ s, ∃ r ∈ b.side s, r.ref = a ∧ r.id = k

structure Distinct (b : Book) : Prop where
  nodup : ∀ s, (refs (b.side s)).Nodup
  unique : ∀ {s s' : Side} {r r' : Resting}, r ∈ b.side s → r' ∈ b.side s' → r.ref = r'.ref →
    s = s' ∧ r = r'

section Lookup
variable {b : Book} {s : Side} {r : Resting}

theorem lookup_eq_some {a : Addr} (h : b.lookup a = some (s, r)) : r ∈ b.side s ∧ r.ref = a := by
  unfold lookup at h
  split at h
  · rename_i r' hf
    obtain ⟨rfl, rfl⟩ := Prod.mk.inj (Option.some.inj h)
    exact ⟨List.mem_of_find?_eq_some hf, by simpa using List.find?_some hf⟩
  · obtain ⟨r', hf, he⟩ := Option.map_eq_some_iff.mp h
    obtain ⟨rfl, rfl⟩ := Prod.mk.inj he
    exact ⟨List.mem_of_find?_eq_some hf, by simpa using List.find?_some hf⟩

theorem lookup_of_mem (hd : b.Distinct) (hr : r ∈ b.side s) : b.lookup r.ref = some (s, r) := by
  cases hl : b.lookup r.ref with
  | none =>
    unfold lookup at hl
    split at hl
    · simp at hl
    · rename_i hb
      rw [Option.map_eq_none_iff] at hl
      cases s
      · exact absurd (List.find?_eq_none.mp hb r hr) (by simp)
      · exact absurd (List.find?_eq_none.mp hl r hr) (by simp)
  | some sr =>
    obtain ⟨s', r'⟩ := sr
    obtain ⟨hr', he⟩ := lookup_eq_some hl
    obtain ⟨rfl, rfl⟩ := hd.unique hr' hr he
    rfl

end Lookup

section Enqueue
variable {s : Side} {r : Resting} {L : List Resting}

def Sorted (s : Side) (L : List Resting) : Prop :=
  L.Pairwise fun x y => ¬ s.better y.price x.price

theorem enqueue_perm : (enqueue s r L).Perm (r :: L) := List.perm_orderedInsert _ r L

theorem mem_enqueue {x : Resting} : x ∈ enqueue s r L ↔ x = r ∨ x ∈ L := by
  rw [enqueue_perm.mem_iff, List.mem_cons]

theorem enqueue_cons (x : Resting) :
    enqueue s r (x :: L) =
      if s.better r.price x.price then r :: x :: L else x :: enqueue s r L := rfl

/-- Once an order is worse than `p`, so is everything behind it. -/
theorem worse_behind {x : Resting} {p : Price} (h : Sorted s (x :: L))
    (hp : s.better p x.price) {y : Resting} (hy : y ∈ x :: L) : s.better p y.price := by
  cases List.mem_cons.mp hy with
  | inl h =>
    obtain rfl := h
    exact hp
  | inr hy =>
    have hn := (List.pairwise_cons.mp h).1 y hy
    cases s <;> simp only [Side.better] at hn hp ⊢ <;> grind

theorem enqueue_sorted (h : Sorted s L) : Sorted s (enqueue s r L) := by
  induction L with
  | nil => exact List.pairwise_singleton _ r
  | cons x L ih =>
    obtain ⟨hx, hL⟩ := List.pairwise_cons.mp h
    rw [enqueue_cons]
    split_ifs with hb
    · refine List.pairwise_cons.mpr ⟨fun y hy => ?_, h⟩
      have hy := worse_behind h hb hy
      exact fun hc => Std.Asymm.asymm _ _ hy hc
    · refine List.pairwise_cons.mpr ⟨fun y hy => ?_, ih hL⟩
      cases mem_enqueue.mp hy with
      | inl h =>
        obtain rfl := h
        exact hb
      | inr hy =>
        exact hx y hy

theorem enqueue_filter_self (h : Sorted s L) :
    (enqueue s r L).filter (fun x => x.price = r.price) =
      L.filter (fun x => x.price = r.price) ++ [r] := by
  induction L with
  | nil => simp [enqueue]
  | cons x L ih =>
    obtain ⟨-, hL⟩ := List.pairwise_cons.mp h
    rw [enqueue_cons]
    split_ifs with hb
    · have hnone : (x :: L).filter (fun x => x.price = r.price) = [] := by
        refine List.filter_eq_nil_iff.mpr fun y hy => ?_
        have hy := worse_behind h hb hy
        intro he
        rw [of_decide_eq_true he] at hy
        exact Std.Irrefl.irrefl _ hy
      rw [List.filter_cons_of_pos (by simp), hnone, List.nil_append]
    · rw [List.filter_cons, ih hL, List.filter_cons]
      split <;> rfl

theorem enqueue_filter_of_not {p : Resting → Bool} (hr : p r = false) (L : List Resting) :
    (enqueue s r L).filter p = L.filter p := by
  induction L with
  | nil => simp [enqueue, hr]
  | cons x L ih =>
    rw [enqueue_cons]
    split_ifs with hb
    · rw [List.filter_cons_of_neg (by simp [hr])]
    · rw [List.filter_cons, ih, List.filter_cons]

end Enqueue

section Fields
variable (b : Book) (s : Side) (L : List Resting) (a : Addr) (k : OrderId) (q : Quantity)

@[simp] theorem index_setSide : (b.setSide s L).index = b.index := rfl
@[simp] theorem trades_setSide : (b.setSide s L).trades = b.trades := rfl
@[simp] theorem free_setSide : (b.setSide s L).free = b.free := rfl
@[simp] theorem allocated_setSide : (b.setSide s L).allocated = b.allocated := rfl
@[simp] theorem index_rewrite : (b.rewrite s a k q).index = b.index := rfl
@[simp] theorem trades_rewrite : (b.rewrite s a k q).trades = b.trades := rfl
@[simp] theorem free_rewrite : (b.rewrite s a k q).free = b.free := rfl
@[simp] theorem allocated_rewrite : (b.rewrite s a k q).allocated = b.allocated := rfl
@[simp] theorem index_drop : (b.drop s a).index = b.index := rfl
@[simp] theorem trades_drop : (b.drop s a).trades = b.trades := rfl
@[simp] theorem free_drop : (b.drop s a).free = b.free := rfl
@[simp] theorem allocated_drop : (b.drop s a).allocated = b.allocated := rfl

@[simp] theorem side_acquire (p : Price) (m : Bool) : (b.acquire k p q s m).2.side = b.side := by
  unfold acquire; split <;> rfl
@[simp] theorem index_acquire (p : Price) (m : Bool) : (b.acquire k p q s m).2.index = b.index := by
  unfold acquire; split <;> rfl
@[simp] theorem trades_acquire (p : Price) (m : Bool) :
    (b.acquire k p q s m).2.trades = b.trades := by
  unfold acquire; split <;> rfl

end Fields

theorem trades_process (b : Book) (o : Incoming) (time : Timestamp) :
    (b.process o time).trades = (sweep o.side.opposite o.reaches time o.id
      (b.side o.side.opposite) o.quantity b).2.trades := by
  unfold process
  dsimp only
  split_ifs <;> rfl

theorem cancel_unknown {b : Book} {id : OrderId} (h : b.index id = none) : b.cancel id = b := by
  rw [cancel, h, Option.bind_none]

theorem modify_unknown {b : Book} {origId : OrderId} (h : b.index origId = none) (newId : OrderId)
    (newPrice : Price) (newQty : Quantity) : b.modify origId newId newPrice newQty = b := by
  rw [modify, h, Option.bind_none]

theorem trades_cancel (b : Book) (id : OrderId) : (b.cancel id).trades = b.trades := by
  unfold cancel
  split <;> rfl

theorem trades_modify (b : Book) (origId newId : OrderId) (newPrice : Price) (newQty : Quantity) :
    (b.modify origId newId newPrice newQty).trades = b.trades := by
  unfold modify
  split
  · rfl
  · dsimp only
    split_ifs <;> rfl

theorem setSide_self (b : Book) (s : Side) (L : List Resting) : (b.setSide s L).side s = L := by
  simp [setSide]

theorem setSide_of_ne (b : Book) {s s' : Side} (L : List Resting) (h : s' ≠ s) :
    (b.setSide s L).side s' = b.side s' := by
  simp [setSide, h]

end Book
end LobCity
