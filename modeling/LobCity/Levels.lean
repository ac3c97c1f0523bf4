import LobCity.WellFormed
import Mathlib.Data.List.Dedup

/-! The pointers say nothing that the sequence book does not: the two price maps and the
links of the resting cells are functions of the sequences. So engines of the same book
hold the same levels, queues and orders. -/
namespace LobCity
open Library

namespace Book
variable (b : Book) (s : Side)

def level (p : Price) : PriceLevel :=
  ⟨p, (refs (b.queue s p)).head?, (refs (b.queue s p)).getLast?, volume (b.queue s p)⟩

def prices : List Price := ((b.side s).map Resting.price).dedup

def levels : List (Price × PriceLevel) := (b.prices s).map fun p => (p, b.level s p)

variable {b s}

theorem mem_prices {p : Price} : p ∈ b.prices s ↔ b.queue s p ≠ [] := by
  rw [prices, List.mem_dedup, List.mem_map, Book.queue, Ne, List.filter_eq_nil_iff]
  simp

theorem prices_sorted (h : Sorted s (b.side s)) : (b.prices s).Pairwise s.better := by
  have hall : ((b.side s).map Resting.price).Pairwise fun p q => ¬ s.better q p :=
    List.pairwise_map.mpr h
  have hle : (b.prices s).Pairwise fun p q => ¬ s.better q p :=
    hall.sublist (List.dedup_sublist _)
  have hne : (b.prices s).Pairwise (· ≠ ·) := List.nodup_dedup _
  refine (hle.and hne).imp fun {p q} hpq => ?_
  have htri := trichotomous_of s.better p q
  exact htri.resolve_right (not_or.mpr ⟨hpq.2, hpq.1⟩)

end Book

namespace Represents
variable {hole hole' : Option (Side × Price)} {e e' : Engine} {hands hands' : List Incoming}
  {b b' : Book}

/-- A stored level is the one its queue determines. -/
theorem level_eq (h : Represents hole e hands b) {s : Side} {p : Price} {lvl : PriceLevel}
    (hl : e.level? s p = some lvl) : lvl = b.level s p := by
  obtain ⟨hrep, -⟩ := h.level s p lvl hl
  obtain ⟨px, head, tail, total⟩ := lvl
  rw [Book.level, PriceLevel.mk.injEq]
  exact ⟨hrep.price, hrep.chained.head, hrep.chained.tail, hrep.totalVolume⟩

theorem levels_eq (h : Represents none e hands b) (s : Side) :
    (e.levels s).entries = b.levels s := by
  refine SortedMap.entries_eq_map _ (Book.prices_sorted (h.sorted s)) fun p lvl => ?_
  rw [Book.mem_prices]
  constructor
  · intro hl
    exact ⟨(h.level s p lvl hl).2.resolve_right (by simp), h.level_eq hl⟩
  · intro hq
    cases hl : (e.levels s).find? p with
    | none => exact absurd (h.empty s p hl) hq.1
    | some l => rw [hq.2, h.level_eq (show e.level? s p = some l from hl)]

theorem level?_eq_none (h : Represents none e hands b) {s : Side} {p : Price} :
    e.level? s p = none ↔ b.queue s p = [] := by
  constructor
  · exact h.empty s p
  · intro hq
    cases hl : e.level? s p with
    | none => rfl
    | some lvl =>
      have hne := (h.level s p lvl hl).2.resolve_right (by simp)
      exact absurd hq hne

/-- The queue of a price fixes the links of its orders. -/
theorem links_eq (h : Represents hole e hands b) (h' : Represents hole' e' hands' b')
    {s s' : Side} {r r' : Resting} (hr : r ∈ b.side s) (hr' : r' ∈ b'.side s')
    (hq : refs (b'.queue s' r'.price) = refs (b.queue s r.price)) :
    (e'.heap r.ref).next = (e.heap r.ref).next ∧ (e'.heap r.ref).prev = (e.heap r.ref).prev := by
  obtain ⟨lvl, -, -, hrep⟩ := h.level_of_mem hr
  obtain ⟨lvl', -, -, hrep'⟩ := h'.level_of_mem hr'
  have hmem : r.ref ∈ refs (b.queue s r.price) := List.mem_map_of_mem (mem_queue hr)
  have hlinks' := hrep'.chained.links
  rw [hq] at hlinks'
  exact hrep.chained.links.unique hlinks' hmem

end Represents

namespace Engine

def queueAt (e : Engine) (s : Side) (p : Price) : List Addr := (e.level? s p).elim [] e.queue

theorem WellFormed.queueAt_eq {e : Engine} {hands : List Addr} (h : e.WellFormed hands) (s : Side)
    (p : Price) : e.queueAt s p = refs (e.book.queue s p) := by
  unfold queueAt
  cases hl : e.level? s p with
  | none => rw [h.represents.empty s p hl]; rfl
  | some lvl => exact h.represents.queue_eq hl

/-- Two engines show the same levels, queues, resting orders, index and trades. -/
structure SameBook (e e' : Engine) : Prop where
  levels : ∀ s, e'.levels s = e.levels s
  queue : ∀ s, ∀ l ∈ (e.levels s).entries, e'.queue l.2 = e.queue l.2
  cell : ∀ s, ∀ a ∈ e.orders s, e'.heap a = e.heap a
  index : e'.orderMap = e.orderMap
  trades : e'.tradeLog = e.tradeLog

theorem WellFormed.mem_orders {e : Engine} {hands : List Addr} (h : e.WellFormed hands) {s : Side}
    {a : Addr} : a ∈ e.orders s ↔ ∃ r ∈ e.book.side s, r.ref = a := by
  rw [h.represents.orders_eq, refs, List.mem_map]

/-- The sequences, the index and the trade log are all there is to compare. -/
theorem WellFormed.sameBook {e e' : Engine} {hands hands' : List Addr} (h : e.WellFormed hands)
    (h' : e'.WellFormed hands') (hs : e'.book.side = e.book.side)
    (hi : e'.book.index = e.book.index) (ht : e'.book.trades = e.book.trades) : SameBook e e' := by
  have hq : ∀ s p, e'.book.queue s p = e.book.queue s p := fun s p => by
    rw [Book.queue, hs, Book.queue]
  have hlevels : ∀ s, e'.levels s = e.levels s := fun s => by
    refine SortedMap.ext ?_
    rw [h.represents.levels_eq, h'.represents.levels_eq]
    simp only [Book.levels, Book.prices, Book.level, hs, hq]
  refine ⟨hlevels, fun s l hl => ?_, fun s a ha => ?_, hi, ht⟩
  · have hfind : e.level? s l.1 = some l.2 := (SortedMap.mem_entries_iff _ _ _).mp hl
    have hfind' : e'.level? s l.1 = some l.2 := by rw [level?, hlevels]; exact hfind
    rw [h.represents.queue_eq hfind, h'.represents.queue_eq hfind', hq]
  · obtain ⟨r, hr, rfl⟩ := h.mem_orders.mp ha
    have hr' : r ∈ e'.book.side s := by rwa [hs]
    obtain ⟨hn, hp⟩ := h.represents.links_eq h'.represents hr hr' (by rw [hq])
    exact Heap.cell_ext hn hp ((h'.represents.cell s r hr').trans (h.represents.cell s r hr).symm)

theorem WellFormed.sameBook_of_eq {e e' : Engine} {hands hands' : List Addr} (h : e.WellFormed hands)
    (h' : e'.WellFormed hands') (hb : e'.book = e.book) :
    SameBook e e' ∧ e'.toOrderPool = e.toOrderPool := by
  refine ⟨h.sameBook h' (by rw [hb]) (by rw [hb]) (by rw [hb]), ?_⟩
  have hfree : e'.freeList = e.freeList := congrArg Book.free hb
  have hlen : e'.allAllocated.length = e.allAllocated.length := congrArg Book.allocated hb
  have hall : e'.allAllocated = e.allAllocated := by rw [h'.allocated, hlen, ← h.allocated]
  cases hp' : e'.toOrderPool
  cases hp : e.toOrderPool
  simp_all

end Engine
end LobCity
