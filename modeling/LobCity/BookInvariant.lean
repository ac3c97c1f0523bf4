import LobCity.Ownership

/-! The representation invariant of the book, over histories in which resting ids are
unique and quantities positive: non-empty, well-linked levels under their own price, and
an index that is exactly the map from ids to resting orders. -/
namespace LobCity
open Library

structure DoublyLinked (h : Heap) (lvl : PriceLevel) (L : List Addr) : Prop where
  head : lvl.head = L.head?
  tail : lvl.tail = L.getLast?
  head_prev : ∀ a, lvl.head = some a → (h a).prev = none
  tail_next : ∀ a, lvl.tail = some a → (h a).next = none
  next_prev : ∀ a ∈ L, ∀ c, (h a).next = some c → c ∈ L ∧ (h c).prev = some a
  prev_next : ∀ a ∈ L, ∀ c, (h a).prev = some c → c ∈ L ∧ (h c).next = some a
  acyclic : L.Nodup

theorem Chained.doublyLinked {h : Heap} {lvl : PriceLevel} {L : List Addr}
    (hc : Chained h lvl L) : DoublyLinked h lvl L where
  head := hc.head
  tail := hc.tail
  head_prev a ha := by
    rw [hc.head] at ha
    obtain ⟨B, rfl⟩ := List.head?_eq_some_iff.mp ha
    exact (Chained.around (A := []) hc).1
  tail_next a ha := by
    rw [hc.tail] at ha
    obtain ⟨A, rfl⟩ := List.getLast?_eq_some_iff.mp ha
    exact (Chained.around (B := []) hc).2.1
  next_prev a ha c hn := by
    obtain ⟨A, B, rfl⟩ := List.append_of_mem ha
    rw [hc.around.2.1] at hn
    obtain ⟨B, rfl⟩ := List.head?_eq_some_iff.mp hn
    have hsplit : A ++ a :: c :: B = (A ++ [a]) ++ c :: B := by simp
    rw [hsplit] at hc
    exact ⟨by simp, by simpa using hc.around.1⟩
  prev_next a ha c hp := by
    obtain ⟨A, B, rfl⟩ := List.append_of_mem ha
    rw [hc.around.1] at hp
    obtain ⟨A, rfl⟩ := List.getLast?_eq_some_iff.mp hp
    have hsplit : A ++ [c] ++ a :: B = A ++ c :: (a :: B) := by simp
    rw [hsplit] at hc
    exact ⟨by simp, by simpa using hc.around.2.1⟩
  acyclic := hc.nodup

def Engine.restingIds (e : Engine) : List OrderId :=
  (e.orders .buy ++ e.orders .sell).map fun a => (e.heap a).id

theorem Engine.mem_restingIds {e : Engine} {id : OrderId} :
    id ∈ e.restingIds ↔ e.book.Rests id := by
  simp only [restingIds, List.map_append, List.mem_append, List.mem_map, Book.Rests, book]
  constructor
  · rintro (⟨a, ha, rfl⟩ | ⟨a, ha, rfl⟩)
    · exact ⟨.buy, e.resting a, ⟨a, ha, rfl⟩, rfl⟩
    · exact ⟨.sell, e.resting a, ⟨a, ha, rfl⟩, rfl⟩
  · rintro ⟨s, r, ⟨a, ha, rfl⟩, rfl⟩
    cases s
    · exact Or.inl ⟨a, ha, rfl⟩
    · exact Or.inr ⟨a, ha, rfl⟩

structure Engine.BookInvariant (e : Engine) : Prop where
  level : ∀ s p lvl, e.level? s p = some lvl →
    lvl.price = p ∧ e.queue lvl ≠ [] ∧ DoublyLinked e.heap lvl (e.queue lvl) ∧
      lvl.totalVolume = ((e.queue lvl).map fun a => (e.heap a).quantity).sum
  order : ∀ s p lvl, e.level? s p = some lvl → ∀ a ∈ e.queue lvl,
    (e.heap a).price = p ∧ (e.heap a).side = s ∧ 0 < (e.heap a).quantity ∧
      (e.heap a).isMarket = false
  disjoint : (e.orders .buy ++ e.orders .sell).Nodup
  index : ∀ k a, e.orderMap k = some a ↔
    a ∈ e.orders .buy ++ e.orders .sell ∧ (e.heap a).id = k

namespace Session

/-- The calls of a well-behaved client: an order is submitted once, with a positive
quantity and an id that no resting order has, and a modify keeps both. -/
def Admissible (S : Session) : Op → Prop
  | .acquire .. => True
  | .process order _ _ => order ∈ S.hands ∧ 0 < (S.engine.heap order).quantity ∧
      (S.engine.heap order).id ∉ S.engine.restingIds
  | .cancel .. => True
  | .modify origId newId _ newQty _ =>
      0 < newQty ∧ (newId = origId ∨ newId ∉ S.engine.restingIds)

instance (S : Session) : DecidablePred S.Admissible
  | .acquire .. => inferInstanceAs (Decidable True)
  | .process order _ _ => inferInstanceAs (Decidable (order ∈ S.hands ∧
      0 < (S.engine.heap order).quantity ∧ (S.engine.heap order).id ∉ S.engine.restingIds))
  | .cancel .. => inferInstanceAs (Decidable True)
  | .modify origId newId _ newQty _ =>
    inferInstanceAs (Decidable (0 < newQty ∧ (newId = origId ∨ newId ∉ S.engine.restingIds)))

theorem Admissible.owned {S : Session} {op : Op} (h : S.Admissible op) : S.Owned op := by
  cases op <;> first | exact h.1 | trivial

/-- The invariant of well-behaved histories. -/
structure Regular (S : Session) : Prop extends S.Sound where
  exact : S.engine.book.Exact
  positive : S.engine.book.Positive

variable {S : Session}

theorem new_regular (poolSize : Nat) (udpPub : Bool) : (new poolSize udpPub).Regular := by
  refine ⟨new_sound poolSize udpPub, ?_, ?_⟩
  all_goals
    obtain ⟨-, hb⟩ := Engine.new_wellFormed poolSize udpPub
  · show (Engine.new poolSize udpPub).book.Exact
    rw [hb]
    simp [Book.Exact, Book.new]
  · show (Engine.new poolSize udpPub).book.Positive
    rw [hb]
    simp [Book.Positive, Book.new]

theorem Regular.step (h : S.Regular) {op : Op} (hok : S.Admissible op) :
    ∃ S', S.step op = some S' ∧ S'.Regular ∧ S'.engine.book = S.bookAfter op ∧
      ∀ c ∈ S.hands, c ∈ S'.hands → S'.engine.incoming c = S.engine.incoming c := by
  obtain ⟨S', hs, hS', hb, hk⟩ := h.toSound.step hok.owned
  have hd := h.toSound.distinct
  refine ⟨S', hs, ⟨hS', ?_, ?_⟩, hb, hk⟩
  · rw [hb]
    cases op with
    | acquire id p q s m => exact h.exact.acquire id p q s m
    | process order time now =>
      exact h.exact.process hd (fun hr => hok.2.2 (Engine.mem_restingIds.mpr hr)) time
    | cancel id now => exact h.exact.cancel hd id
    | modify origId newId newPrice newQty now =>
      exact h.exact.modify hd (hok.2.imp id fun hr => mt Engine.mem_restingIds.mpr hr) newPrice newQty
  · rw [hb]
    cases op with
    | acquire id p q s m => exact h.positive.acquire id p q s m
    | process order time now => exact h.positive.process _ time
    | cancel id now => exact h.positive.cancel hd h.indexed id
    | modify origId newId newPrice newQty now =>
      exact h.positive.modify hd h.indexed origId newId newPrice hok.1

theorem run_regular {poolSize : Nat} {udpPub : Bool} {ops : List Op}
    (hok : Along step Admissible (new poolSize udpPub) ops) :
    ∃ S, run step (new poolSize udpPub) ops = some S ∧ S.Regular :=
  run_invariant (fun S op h hop => by
    obtain ⟨S', hs, h', -⟩ := h.step hop
    exact ⟨S', hs, h'⟩) (new_regular poolSize udpPub) hok

theorem Regular.bookInvariant (h : S.Regular) : S.engine.BookInvariant where
  level s p lvl hl := by
    obtain ⟨hp, hh, hc, hv⟩ := h.wellFormed.level s p lvl hl
    refine ⟨hp, fun hnil => ?_, hc.doublyLinked, hv⟩
    rw [hnil] at hc
    exact hh hc.head
  order s p lvl hl a ha := by
    obtain ⟨hp, hs, hm⟩ := h.wellFormed.order s p lvl hl a ha
    exact ⟨hp, hs, h.positive s _ (List.mem_map_of_mem (Engine.mem_orders.mpr ⟨p, lvl, hl, ha⟩)), hm⟩
  disjoint := by
    have hn : S.engine.allAllocated.Nodup := h.wellFormed.allocated ▸ List.nodup_range
    have hn := h.wellFormed.owned.nodup_iff.mpr hn
    rw [List.append_assoc] at hn
    exact (List.nodup_append.mp hn).1
  index k a := by
    rw [List.mem_append]
    constructor
    · exact h.toSound.index
    · rintro ⟨ha | ha, rfl⟩
      · exact (h.exact _ a).mpr ⟨.buy, S.engine.resting a, List.mem_map_of_mem ha, rfl, rfl⟩
      · exact (h.exact _ a).mpr ⟨.sell, S.engine.resting a, List.mem_map_of_mem ha, rfl, rfl⟩

/-- Every reachable state of a well-behaved history satisfies the representation
invariant, and every such history runs to its end. -/
theorem run_bookInvariant {poolSize : Nat} {udpPub : Bool} {ops : List Op}
    (hok : Along step Admissible (new poolSize udpPub) ops) :
    ∃ S, run step (new poolSize udpPub) ops = some S ∧ S.engine.BookInvariant := by
  obtain ⟨S, hS, h⟩ := run_regular hok
  exact ⟨S, hS, h.bookInvariant⟩

theorem run_bookInvariant_partial_fill :
    ∃ S, run step (new 3 false) [.acquire 1 100 5 .sell false, .process 2 10 11,
      .acquire 2 100 4 .sell false, .process 1 12 13, .acquire 3 101 7 .buy false, .process 0 14 15,
      .modify 2 2 100 1 16, .modify 2 5 99 6 17, .cancel 9 18] = some S ∧
      S.engine.BookInvariant :=
  run_bookInvariant (by decide)

end Session
end LobCity
