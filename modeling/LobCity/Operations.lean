import LobCity.Simulation

/-! Whole calls: `processOrder`, `cancelOrder` and `modifyOrder` compute what the
sequence book does, and `processOrder` returns for every input. -/
namespace LobCity
open Library

namespace Represents
variable {hole : Option (Side × Price)} {e : Engine} {hands : List Incoming} {b : Book}
  {o : Incoming}

theorem new (poolSize : Nat) (udpPub : Bool) :
    Represents none (Engine.new poolSize udpPub) [] (Book.new poolSize) where
  sorted _ := List.Pairwise.nil
  cell _ _ hr := by simp [Book.new] at hr
  hand _ ho := by simp at ho
  level s p lvl hl := by
    have hn : (Engine.new poolSize udpPub).level? s p = none := by cases s <;> rfl
    rw [hn] at hl
    simp at hl
  empty _ _ _ := rfl
  index := rfl
  trades := rfl
  free := rfl
  allocated := rfl
  owned := by simp [Book.cells, Book.new, refs]

theorem publishIfMoved (before : Engine) (h : Represents hole e hands b) (now : Timestamp) :
    Represents hole (Engine.publishIfMoved before e now) hands b := by
  unfold Engine.publishIfMoved Engine.publishBBO
  split_ifs
  · exact h.publish _
  · exact h
  · exact h

/-- The matching part of a call, whichever side the order is on. -/
theorem traceIncoming (h : Represents none e (o :: hands) b) (time : Timestamp) :
    ∃ F e', e.traceIncoming o.ref time = some (F, e') ∧
      Represents none e'
        ({ o with quantity := (Book.sweep o.side.opposite o.reaches time o.id
            (b.side o.side.opposite) o.quantity b).1 } :: hands)
        (Book.sweep o.side.opposite o.reaches time o.id (b.side o.side.opposite)
          o.quantity b).2 ∧ Traced o.side.opposite o.ref time e b F e' := by
  have hside : (e.heap o.ref).side = o.side := by rw [h.hand o (by simp)]; rfl
  have hlen : (b.side o.side.opposite).length < e.allAllocated.length + 1 := by
    have hl := h.owned.length_eq
    rw [h.allocated]
    simp only [Book.cells, refs, List.length_append, List.length_map] at hl
    cases o.side <;> simp only [Side.opposite] <;> omega
  obtain ⟨F, e', he, hr, ht⟩ := traceOrder (o := o) (q := o.quantity) time h hlen rfl
  refine ⟨F, e', ?_, hr, ht⟩
  rw [Engine.traceIncoming, hside, ← he]
  cases o.side <;> rfl

theorem matchIncoming (h : Represents none e (o :: hands) b) (time : Timestamp) :
    ∃ e', e.matchIncoming o.ref time = some e' ∧
      Represents none e'
        ({ o with quantity := (Book.sweep o.side.opposite o.reaches time o.id
            (b.side o.side.opposite) o.quantity b).1 } :: hands)
        (Book.sweep o.side.opposite o.reaches time o.id (b.side o.side.opposite)
          o.quantity b).2 := by
  obtain ⟨F, e', he, hr, -⟩ := h.traceIncoming time
  exact ⟨e', by rw [← Engine.traceIncoming_snd, he]; rfl, hr⟩

/-- A submitted order is processed as the sequence book says, and leaves the hands. -/
theorem processOrder (h : Represents none e (o :: hands) b) (time now : Timestamp) :
    ∃ e', e.processOrder o.ref time now = some e' ∧
      Represents none e' hands (b.process o time) := by
  obtain ⟨e1, h1, hr⟩ := h.matchIncoming time
  unfold Engine.processOrder Book.process
  rw [h1]
  simp only [Option.bind_eq_bind, Option.bind_some]
  set q := (Book.sweep o.side.opposite o.reaches time o.id (b.side o.side.opposite)
    o.quantity b).1
  have hcell := hr.hand _ List.mem_cons_self
  have hq : (e1.heap o.ref).quantity = q := by rw [hcell]; rfl
  have hm : (e1.heap o.ref).isMarket = o.isMarket := by rw [hcell]; rfl
  rw [hq, hm]
  refine ⟨_, rfl, publishIfMoved _ ?_ _⟩
  split_ifs with hpos hmarket
  · exact hr.release _
  · exact hr.rest (by simpa using hmarket)
  · exact hr.release _

theorem processOrder_left (h : Represents none e (o :: hands) b) (hm : o.isMarket = true)
    {time now : Timestamp} {e' : Engine} (he : e.processOrder o.ref time now = some e') :
    (e'.heap o.ref).quantity = (Book.sweep o.side.opposite o.reaches time o.id
      (b.side o.side.opposite) o.quantity b).1 := by
  obtain ⟨e1, h1, hr⟩ := h.matchIncoming time
  have hcell := hr.hand _ List.mem_cons_self
  have hm1 : (e1.heap o.ref).isMarket = true := by rw [hcell]; exact hm
  have hrel : (if (e1.heap o.ref).quantity > 0 then
      if (e1.heap o.ref).isMarket then e1.release o.ref else e1.addOrder o.ref
      else e1.release o.ref) = e1.release o.ref := by
    rw [if_pos hm1, ite_self]
  have hpub : ∀ e2 : Engine, (Engine.publishIfMoved e e2 now).heap = e2.heap := fun e2 => by
    unfold Engine.publishIfMoved Engine.publishBBO
    split_ifs <;> rfl
  rw [Engine.processOrder, h1] at he
  simp only [Option.bind_eq_bind, Option.bind_some, hrel] at he
  obtain rfl := Option.some.inj he
  rw [hpub, Engine.release, OrderPool.release]
  simp only [Heap.quantity_setPrev, Heap.quantity_setNext, hcell]
  rfl

theorem indexed (h : Represents hole e hands b) (hi : b.Indexed) {k : OrderId} {a : Addr}
    (hk : e.orderMap k = some a) :
    ∃ s, ∃ r ∈ b.side s, r.ref = a ∧ r.id = k ∧ b.lookup a = some (s, r) := by
  rw [h.index] at hk
  obtain ⟨s, r, hr, rfl, hid⟩ := hi k a hk
  exact ⟨s, r, hr, rfl, hid, Book.lookup_of_mem h.distinct hr⟩

theorem cancelOrder (h : Represents none e hands b) (hi : b.Indexed) (id : OrderId)
    (now : Timestamp) : Represents none (e.cancelOrder id now) hands (b.cancel id) := by
  unfold Engine.cancelOrder Book.cancel
  cases hk : e.orderMap id with
  | none =>
    rw [← h.index, hk]
    exact h
  | some a =>
    obtain ⟨s, r, hr, rfl, -, hl⟩ := h.indexed hi hk
    rw [← h.index, hk, Option.bind_some, hl]
    have hs : ((e.eraseId id).heap r.ref).side = s := h.heap_side hr
    have hp : ((e.eraseId id).heap r.ref).price = r.price := h.heap_price hr
    dsimp only
    rw [hs, hp]
    have h1 := (h.eraseId id).remove (s := s) (r := r) hr (Or.inl rfl)
    have h2 := h1.eraseIfEmpty.release _
    unfold Engine.publishBBO
    split_ifs
    · exact h2.publish _
    · exact h2

theorem modifyOrder (h : Represents none e hands b) (hi : b.Indexed) (origId newId : OrderId)
    (newPrice : Price) (newQty : Quantity) (now : Timestamp) :
    Represents none (e.modifyOrder origId newId newPrice newQty now) hands
      (b.modify origId newId newPrice newQty) := by
  unfold Engine.modifyOrder Book.modify
  cases hk : e.orderMap origId with
  | none =>
    rw [← h.index, hk]
    exact h
  | some a =>
    obtain ⟨s, r, hr, rfl, -, hl⟩ := h.indexed hi hk
    rw [← h.index, hk, Option.bind_some, hl]
    have hs : (e.heap r.ref).side = s := h.heap_side hr
    have hp : (e.heap r.ref).price = r.price := h.heap_price hr
    have hq : (e.heap r.ref).quantity = r.quantity := h.heap_quantity hr
    dsimp only
    rw [hs, hp, hq]
    refine publishIfMoved _ ?_ _
    split_ifs with hcase
    · -- in place
      have hg : (e.heap.setQuantity r.ref newQty).setId r.ref newId =
          Function.update e.heap r.ref { e.heap r.ref with id := newId, quantity := newQty } := by
        funext x
        by_cases hx : x = r.ref <;> simp [Heap.setQuantity, Heap.setId, hx]
      have hp' : (((e.heap.setQuantity r.ref newQty).setId r.ref newId) r.ref).price = r.price := by
        simp [hg, hp]
      rw [hp']
      exact ((h.rewrite hr newId newQty hg).eraseId origId).setId newId r.ref
    · -- off the old level, then at the tail of the new one
      have h1 := ((h.eraseId origId).remove (s := s) (r := r) hr (Or.inl rfl)).eraseIfEmpty
      set e1 := ((e.eraseId origId).removeFrom s r.price r.ref).eraseIfEmpty s r.price
      have hcell : e1.heap r.ref = _ := h1.hand _ List.mem_cons_self
      have hg : ((((e1.heap.setId r.ref newId).setPrice r.ref newPrice).setQuantity r.ref
          newQty).setNext r.ref none).setPrev r.ref none = Function.update e1.heap r.ref
            (⟨r.ref, newId, newPrice, newQty, s, false⟩ : Incoming).order := by
        funext x
        by_cases hx : x = r.ref
        · simp [Heap.setId, Heap.setPrice, Heap.setQuantity, Heap.setNext, Heap.setPrev, hx, hcell,
            Incoming.order, Order.new]
        · simp [Heap.setId, Heap.setPrice, Heap.setQuantity, Heap.setNext, Heap.setPrev, hx]
      rw [hg]
      exact (h1.updateHand _ ⟨r.ref, newId, newPrice, newQty, s, false⟩ rfl).rest rfl

end Represents
end LobCity
