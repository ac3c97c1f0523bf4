import LobCity.Book
import LobCity.LevelList
import Mathlib.Data.List.Perm.Basic

/-! The representation relation between the pointer engine and the sequence book, and
its preservation by each primitive step of the engine. While a matching loop runs, one
level may be empty and still in its map: the `hole`. -/
namespace LobCity
open Library

namespace Engine
variable (e : Engine) (s s' : Side) (p p' : Price) (lvl : PriceLevel) (m : LevelMap s)

section Fields

@[simp] theorem heap_setLevels : (e.setLevels s m).heap = e.heap := by cases s <;> rfl
@[simp] theorem orderMap_setLevels : (e.setLevels s m).orderMap = e.orderMap := by
  cases s <;> rfl
@[simp] theorem tradeLog_setLevels : (e.setLevels s m).tradeLog = e.tradeLog := by
  cases s <;> rfl
@[simp] theorem pool_setLevels : (e.setLevels s m).toOrderPool = e.toOrderPool := by
  cases s <;> rfl

theorem levels_setLevels_self : (e.setLevels s m).levels s = m := by cases s <;> rfl

theorem levels_setLevels_of_ne (h : s' ≠ s) : (e.setLevels s m).levels s' = e.levels s' := by
  cases s <;> cases s' <;> first | rfl | exact absurd rfl h

theorem level?_putLevel :
    (e.putLevel s p lvl).level? s' p' = if s' = s ∧ p' = p then some lvl else e.level? s' p' := by
  unfold putLevel level?
  by_cases hs : s' = s
  · subst hs; simp [levels_setLevels_self]
  · simp [levels_setLevels_of_ne _ _ _ _ hs, hs]

theorem level?_eraseLevel :
    (e.eraseLevel s p).level? s' p' = if s' = s ∧ p' = p then none else e.level? s' p' := by
  unfold eraseLevel level?
  by_cases hs : s' = s
  · subst hs; simp [levels_setLevels_self]
  · simp [levels_setLevels_of_ne _ _ _ _ hs, hs]

@[simp] theorem heap_putLevel : (e.putLevel s p lvl).heap = e.heap := by simp [putLevel]
@[simp] theorem orderMap_putLevel : (e.putLevel s p lvl).orderMap = e.orderMap := by
  simp [putLevel]
@[simp] theorem tradeLog_putLevel : (e.putLevel s p lvl).tradeLog = e.tradeLog := by
  simp [putLevel]
@[simp] theorem pool_putLevel : (e.putLevel s p lvl).toOrderPool = e.toOrderPool := by
  simp [putLevel]
@[simp] theorem heap_eraseLevel : (e.eraseLevel s p).heap = e.heap := by simp [eraseLevel]
@[simp] theorem orderMap_eraseLevel : (e.eraseLevel s p).orderMap = e.orderMap := by
  simp [eraseLevel]
@[simp] theorem tradeLog_eraseLevel : (e.eraseLevel s p).tradeLog = e.tradeLog := by
  simp [eraseLevel]
@[simp] theorem pool_eraseLevel : (e.eraseLevel s p).toOrderPool = e.toOrderPool := by
  simp [eraseLevel]

end Fields
end Engine

structure LevelRep (h : Heap) (p : Price) (Q : List Resting) (lvl : PriceLevel) : Prop where
  price : lvl.price = p
  chained : Chained h lvl (refs Q)
  totalVolume : lvl.totalVolume = volume Q

def Resting.data (r : Resting) (s : Side) : Order := Order.new r.id r.price r.quantity s false

structure Represents (hole : Option (Side × Price)) (e : Engine) (hands : List Incoming)
    (b : Book) : Prop where
  sorted : ∀ s, Book.Sorted s (b.side s)
  cell : ∀ s, ∀ r ∈ b.side s, (e.heap r.ref).unlink = r.data s
  hand : ∀ o ∈ hands, e.heap o.ref = o.order
  level : ∀ s p lvl, e.level? s p = some lvl →
    LevelRep e.heap p (b.queue s p) lvl ∧ (b.queue s p ≠ [] ∨ hole = some (s, p))
  empty : ∀ s p, e.level? s p = none → b.queue s p = []
  index : e.orderMap = b.index
  trades : e.tradeLog = b.trades
  free : e.freeList = b.free
  allocated : e.allAllocated = List.range b.allocated
  owned : (b.cells hands).Perm (List.range b.allocated)

namespace Represents
variable {hole : Option (Side × Price)} {e : Engine} {hands : List Incoming} {b : Book}

theorem mem_cells_of_side {s : Side} {r : Resting} (hr : r ∈ b.side s) :
    r.ref ∈ b.cells hands := by
  have hm : r.ref ∈ refs (b.side s) := List.mem_map_of_mem hr
  cases s <;> simp [Book.cells, hm]

theorem count_cells (h : Represents hole e hands b) (a : Addr) :
    (refs (b.side .buy)).count a + (refs (b.side .sell)).count a + b.free.count a +
      (hands.map Incoming.ref).count a = if a < b.allocated then 1 else 0 := by
  have hc := h.owned.count_eq a
  simp only [Book.cells, List.count_append] at hc
  rw [hc, List.Nodup.count List.nodup_range]
  simp

theorem side_nodup (h : Represents hole e hands b) (s : Side) : (refs (b.side s)).Nodup := by
  rw [List.nodup_iff_count_le_one]
  intro a
  have hc := h.count_cells a
  cases s <;> split at hc <;> omega

/-- A cell rests on one side only. -/
theorem side_unique (h : Represents hole e hands b) {s s' : Side} {r r' : Resting}
    (hr : r ∈ b.side s) (hr' : r' ∈ b.side s') (he : r.ref = r'.ref) : s = s' ∧ r = r' := by
  have hm : ∀ (t : Side) (x : Resting), x ∈ b.side t → 0 < (refs (b.side t)).count x.ref :=
    fun t x hx => List.count_pos_iff.mpr (List.mem_map_of_mem hx)
  have h1 := hm s r hr
  have h2 := hm s' r' hr'
  have hc := h.count_cells r.ref
  have hs : s = s' := by
    rw [← he] at h2
    cases s <;> cases s' <;> first | rfl | (split at hc <;> omega)
  subst hs
  exact ⟨rfl, List.inj_on_of_nodup_map (h.side_nodup s) hr hr' he⟩

theorem distinct (h : Represents hole e hands b) : b.Distinct :=
  ⟨h.side_nodup, fun hr hr' he => h.side_unique hr hr' he⟩

theorem side_ne_hand (h : Represents hole e hands b) {s : Side} {r : Resting} {o : Incoming}
    (hr : r ∈ b.side s) (ho : o ∈ hands) : r.ref ≠ o.ref := by
  intro he
  have h1 : 0 < (refs (b.side s)).count r.ref := List.count_pos_iff.mpr (List.mem_map_of_mem hr)
  have h2 : 0 < (hands.map Incoming.ref).count r.ref :=
    List.count_pos_iff.mpr (he ▸ List.mem_map_of_mem ho)
  have hc := h.count_cells r.ref
  cases s <;> split at hc <;> omega

theorem hand_unique (h : Represents hole e hands b) : (hands.map Incoming.ref).Nodup := by
  rw [List.nodup_iff_count_le_one]
  intro a
  have hc := h.count_cells a
  split at hc <;> omega

end Represents
end LobCity
