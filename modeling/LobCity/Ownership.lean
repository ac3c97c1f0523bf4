import LobCity.Session

/-! Ownership of pooled orders: whatever ids and quantities the calls carry, every
allocated cell is free, resting, or in the caller's hands, and in one of these once. -/
namespace LobCity
open Library

namespace Session

structure Partitioned (S : Session) : Prop where
  /-- the lists of the levels are complete -/
  listed : ∀ s p lvl, S.engine.level? s p = some lvl →
    Chained S.engine.heap lvl (S.engine.queue lvl)
  once : ∀ a, S.engine.freeList.count a + (S.engine.orders .buy).count a +
    (S.engine.orders .sell).count a + S.hands.count a = if a ∈ S.engine.allAllocated then 1 else 0
  fresh : ∀ id p q s m, let a := (S.engine.acquire id p q s m).1
    a ∉ S.engine.orders .buy ∧ a ∉ S.engine.orders .sell ∧ a ∉ S.hands
  index : ∀ k a, S.engine.orderMap k = some a →
    (a ∈ S.engine.orders .buy ∨ a ∈ S.engine.orders .sell) ∧ (S.engine.heap a).id = k

variable {S : Session}

theorem Sound.once (h : S.Sound) (a : Addr) :
    S.engine.freeList.count a + (S.engine.orders .buy).count a +
      (S.engine.orders .sell).count a + S.hands.count a =
        if a ∈ S.engine.allAllocated then 1 else 0 := by
  have hc := h.wellFormed.owned.count_eq a
  have hn : S.engine.allAllocated.Nodup := h.wellFormed.allocated ▸ List.nodup_range
  simp only [List.count_append] at hc
  rw [hn.count] at hc
  omega

theorem Sound.fresh (h : S.Sound) (id : OrderId) (p : Price) (q : Quantity) (s : Side) (m : Bool) :
    let a := (S.engine.acquire id p q s m).1
    a ∉ S.engine.orders .buy ∧ a ∉ S.engine.orders .sell ∧ a ∉ S.hands := by
  intro a
  have hc := h.once a
  suffices hzero : (S.engine.orders .buy).count a + (S.engine.orders .sell).count a +
      S.hands.count a = 0 by
    simp only [← List.count_eq_zero]
    omega
  cases hf : S.engine.freeList with
  | nil =>
    -- a cell that was never allocated
    have ha : a = S.engine.allAllocated.length := by
      simp [a, Engine.acquire, OrderPool.acquire, hf]
    have hout : a ∉ S.engine.allAllocated := by
      rw [h.wellFormed.allocated, ha]
      simp
    rw [if_neg hout] at hc
    omega
  | cons x rest =>
    have ha : a = x := by simp [a, Engine.acquire, OrderPool.acquire, hf]
    have hpos : 0 < S.engine.freeList.count a := by simp [hf, ha]
    split at hc <;> omega

theorem Sound.index (h : S.Sound) {k : OrderId} {a : Addr} (hk : S.engine.orderMap k = some a) :
    (a ∈ S.engine.orders .buy ∨ a ∈ S.engine.orders .sell) ∧ (S.engine.heap a).id = k := by
  obtain ⟨s, r, hr, rfl, rfl⟩ := h.indexed k a hk
  obtain ⟨x, hx, rfl⟩ := List.mem_map.mp hr
  refine ⟨?_, rfl⟩
  cases s
  · exact Or.inl hx
  · exact Or.inr hx

theorem Sound.partitioned (h : S.Sound) : S.Partitioned :=
  ⟨fun s p lvl hl => (h.wellFormed.level s p lvl hl).2.2.1, h.once, h.fresh, fun _ _ => h.index⟩

/-- In every reachable state the cells are partitioned, whatever the ids. -/
theorem run_partitioned {poolSize : Nat} {udpPub : Bool} {ops : List Op}
    (hok : Along step Owned (new poolSize udpPub) ops) :
    ∃ S, run step (new poolSize udpPub) ops = some S ∧ S.Partitioned := by
  obtain ⟨S, hS, h⟩ := run_sound hok
  exact ⟨S, hS, h.partitioned⟩

theorem run_partitioned_duplicate_ids :
    ∃ S, run step (new 2 false) [.acquire 7 100 5 .buy false, .acquire 7 101 3 .buy false,
      .process 1 10 11, .process 0 12 13, .modify 7 7 102 0 14, .cancel 7 15,
      .acquire 8 90 9 .sell true, .process 0 16 17] = some S ∧ S.Partitioned :=
  run_partitioned (by decide)

end Session
end LobCity
