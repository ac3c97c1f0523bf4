import LobCity.Operations
import Mathlib.Data.List.Flatten

/-! Reading the sequence book off the engine: a level is walked along `next`, a side is
its levels in map order. `WellFormed` says on the engine itself what `Represents` says
of this reading. -/
namespace LobCity
open Library

/-- The list behind a head pointer, at most `fuel` cells of it. -/
def Heap.walk (h : Heap) : Nat → Option Addr → List Addr
  | 0, _ => []
  | _ + 1, none => []
  | fuel + 1, some a => a :: h.walk fuel (h a).next

theorem Heap.walk_segment {h : Heap} {p : Option Addr} {L : List Addr} {fuel : Nat}
    (hs : Segment h.next h.prev p L none) (hf : L.length ≤ fuel) :
    h.walk fuel L.head? = L := by
  induction L generalizing p fuel with
  | nil => cases fuel <;> rfl
  | cons a L ih =>
    obtain ⟨fuel, rfl⟩ : ∃ n, fuel = n + 1 := ⟨fuel - 1, by simp at hf; omega⟩
    obtain ⟨-, hn, hs⟩ := hs
    have hn : (h a).next = L.head? := by simpa [Heap.next] using hn
    rw [List.head?_cons, walk, hn, ih hs (by simpa using hf)]

namespace Engine

def queue (e : Engine) (lvl : PriceLevel) : List Addr :=
  e.heap.walk e.allAllocated.length lvl.head

def orders (e : Engine) (s : Side) : List Addr :=
  (e.levels s).entries.flatMap fun l => e.queue l.2

def resting (e : Engine) (a : Addr) : Resting :=
  ⟨a, (e.heap a).id, (e.heap a).price, (e.heap a).quantity⟩

def incoming (e : Engine) (a : Addr) : Incoming :=
  ⟨a, (e.heap a).id, (e.heap a).price, (e.heap a).quantity, (e.heap a).side, (e.heap a).isMarket⟩

def book (e : Engine) : Book where
  side s := (e.orders s).map e.resting
  index := e.orderMap
  trades := e.tradeLog
  free := e.freeList
  allocated := e.allAllocated.length

theorem mem_orders {e : Engine} {s : Side} {a : Addr} :
    a ∈ e.orders s ↔ ∃ p lvl, e.level? s p = some lvl ∧ a ∈ e.queue lvl := by
  unfold orders
  rw [List.mem_flatMap]
  constructor
  · rintro ⟨⟨p, lvl⟩, hl, ha⟩
    exact ⟨p, lvl, (SortedMap.mem_entries_iff _ _ _).mp hl, ha⟩
  · rintro ⟨p, lvl, hl, ha⟩
    exact ⟨(p, lvl), (SortedMap.mem_entries_iff _ _ _).mpr hl, ha⟩

/-- The data structures agree: every stored level is a non-empty list of limit orders of
its side and price, and every allocated cell is on one side, free, or one of `hands`. -/
structure WellFormed (e : Engine) (hands : List Addr) : Prop where
  level : ∀ s p lvl, e.level? s p = some lvl →
    lvl.price = p ∧ lvl.head ≠ none ∧ Chained e.heap lvl (e.queue lvl) ∧
      lvl.totalVolume = ((e.queue lvl).map fun a => (e.heap a).quantity).sum
  order : ∀ s p lvl, e.level? s p = some lvl → ∀ a ∈ e.queue lvl,
    (e.heap a).price = p ∧ (e.heap a).side = s ∧ (e.heap a).isMarket = false
  hand : ∀ a ∈ hands, (e.heap a).next = none ∧ (e.heap a).prev = none
  allocated : e.allAllocated = List.range e.allAllocated.length
  owned : (e.orders .buy ++ e.orders .sell ++ e.freeList ++ hands).Perm e.allAllocated

end Engine

section Blocks
variable {s : Side}

/-- A sorted side is its queues, put together in the order of their prices. -/
theorem flatMap_queue {K : List Price} (hK : K.Pairwise s.better) {L : List Resting}
    (hL : Book.Sorted s L) (hm : ∀ r ∈ L, r.price ∈ K) :
    (K.flatMap fun p => L.filter fun r => r.price = p) = L := by
  induction K generalizing L with
  | nil =>
    cases L with
    | nil => rfl
    | cons r L => simpa using hm r (by simp)
  | cons p K ih =>
    obtain ⟨hp, hK⟩ := List.pairwise_cons.mp hK
    have hsplit := Book.sorted_split (p := p) hL fun r hr => by
      cases List.mem_cons.mp (hm r hr) with
      | inl h =>
        exact Or.inl h
      | inr h =>
        exact Or.inr (hp _ h)
    have hrest := ih hK (L := L.filter fun r => r.price ≠ p) (hL.filter _) fun r hr => by
      obtain ⟨hr, hne⟩ := List.mem_filter.mp hr
      exact (List.mem_cons.mp (hm r hr)).resolve_left (by simpa using hne)
    have hsame : (K.flatMap fun q => L.filter fun r => r.price = q) =
        K.flatMap fun q => (L.filter fun r => r.price ≠ p).filter fun r => r.price = q := by
      refine List.flatMap_congr fun q hq => ?_
      rw [List.filter_filter]
      refine List.filter_congr fun r _ => ?_
      have hqp : q ≠ p := fun h => Std.Irrefl.irrefl p (h ▸ hp q hq)
      by_cases hr : r.price = q <;> simp [hr, hqp]
    rw [List.flatMap_cons, hsame, hrest]
    exact hsplit.symm

theorem filter_flatMap_block {α : Type*} {K : List (Price × α)} (hK : (K.map Prod.fst).Nodup)
    {f : α → List Resting} (hf : ∀ k ∈ K, ∀ r ∈ f k.2, r.price = k.1) {p : Price} {x : α}
    (hx : (p, x) ∈ K) : ((K.flatMap fun k => f k.2).filter fun r => r.price = p) = f x := by
  induction K with
  | nil => simp at hx
  | cons k K ih =>
    obtain ⟨hk, hK⟩ := List.nodup_cons.mp hK
    rw [List.flatMap_cons, List.filter_append]
    cases List.mem_cons.mp hx with
    | inl h =>
      obtain rfl := h
      have hrest : ((K.flatMap fun k => f k.2).filter fun r => r.price = p) = [] := by
        refine List.filter_eq_nil_iff.mpr fun r hr hp => ?_
        obtain ⟨k, hkK, hr⟩ := List.mem_flatMap.mp hr
        have he : k.1 = p := (hf k (by simp [hkK]) r hr).symm.trans (of_decide_eq_true hp)
        exact hk (List.mem_map.mpr ⟨k, hkK, he⟩)
      rw [hrest, List.append_nil, List.filter_eq_self]
      exact fun r hr => decide_eq_true (hf (p, x) (by simp) r hr)
    | inr hx =>
      have hhead : (f k.2).filter (fun r => r.price = p) = [] := by
        refine List.filter_eq_nil_iff.mpr fun r hr hp => ?_
        have he : k.1 = p := (hf k (by simp) r hr).symm.trans (of_decide_eq_true hp)
        exact hk (he ▸ List.mem_map_of_mem (f := Prod.fst) hx)
      rw [hhead, List.nil_append]
      exact ih hK (fun k' hk' => hf k' (by simp [hk'])) hx

end Blocks

namespace Represents
variable {hole : Option (Side × Price)} {e : Engine} {hands : List Incoming} {b : Book}

theorem length_le_allocated (h : Represents hole e hands b) {s : Side} {L : List Resting}
    (hL : L.Sublist (b.side s)) : L.length ≤ e.allAllocated.length := by
  have h1 := hL.length_le
  have h2 := h.owned.length_eq
  rw [h.allocated]
  simp only [Book.cells, refs, List.length_append, List.length_map] at h2
  cases s <;> omega

theorem queue_eq (h : Represents hole e hands b) {s : Side} {p : Price} {lvl : PriceLevel}
    (hl : e.level? s p = some lvl) : e.queue lvl = refs (b.queue s p) := by
  have hc := (h.level s p lvl hl).1.chained
  rw [Engine.queue, hc.head]
  refine Heap.walk_segment hc.links ?_
  rw [refs, List.length_map]
  exact h.length_le_allocated List.filter_sublist

/-- The engine lists a side in the order of the sequence book. -/
theorem orders_eq (h : Represents hole e hands b) (s : Side) : e.orders s = refs (b.side s) := by
  have hq : ∀ l ∈ (e.levels s).entries, e.queue l.2 = refs (b.queue s l.1) := fun l hl =>
    h.queue_eq ((SortedMap.mem_entries_iff _ _ _).mp hl)
  have hflat := flatMap_queue (K := (e.levels s).entries.map Prod.fst)
    (List.pairwise_map.mpr (e.levels s).sorted) (h.sorted s) fun r hr => by
      obtain ⟨lvl, hl, -, -⟩ := h.level_of_mem hr
      exact List.mem_map_of_mem (f := Prod.fst) ((SortedMap.mem_entries_iff _ _ _).mpr hl)
  calc e.orders s = (e.levels s).entries.flatMap fun l => refs (b.queue s l.1) :=
        List.flatMap_congr hq
    _ = refs (((e.levels s).entries.map Prod.fst).flatMap fun p => b.queue s p) := by
        rw [refs, List.map_flatMap, List.flatMap_map]; rfl
    _ = refs (b.side s) := congrArg refs hflat

theorem resting_ref (h : Represents hole e hands b) {s : Side} {r : Resting} (hr : r ∈ b.side s) :
    e.resting r.ref = r := by
  simp only [Engine.resting, h.heap_id hr, h.heap_price hr, h.heap_quantity hr]

theorem incoming_ref (h : Represents hole e hands b) {o : Incoming} (ho : o ∈ hands) :
    e.incoming o.ref = o := by
  simp only [Engine.incoming, h.hand o ho]
  rfl

/-- The best price of a side is that of its first order. -/
theorem best?_eq (h : Represents none e hands b) (s : Side) :
    e.best? s = (b.side s).head?.map Resting.price := by
  unfold Engine.best?
  cases hf : (e.levels s).first? with
  | none => rw [h.side_of_first?_none hf]; rfl
  | some l =>
    obtain ⟨p, lvl⟩ := l
    obtain ⟨hsplit, -, hne⟩ := h.side_of_first? hf
    obtain ⟨r, Q, hQ⟩ := List.exists_cons_of_ne_nil (hne rfl)
    have hr : r ∈ b.queue s p := by rw [hQ]; simp
    have hp : r.price = p := of_decide_eq_true (List.mem_filter.mp hr).2
    rw [hsplit, hQ]
    simp [hp]

/-- The book an engine represents is the one read off it. -/
theorem book_eq (h : Represents hole e hands b) : e.book = b := by
  have hside : (fun s => (e.orders s).map e.resting) = b.side := by
    funext s
    rw [h.orders_eq, refs, List.map_map]
    exact (List.map_congr_left fun r hr => h.resting_ref hr).trans (List.map_id _)
  have hlen : e.allAllocated.length = b.allocated := by rw [h.allocated, List.length_range]
  rw [Engine.book, hside, h.index, h.trades, h.free, hlen]

theorem wellFormed (h : Represents none e hands b) : e.WellFormed (hands.map Incoming.ref) where
  level s p lvl hl := by
    obtain ⟨hrep, hne⟩ := h.level s p lvl hl
    have hne := hne.resolve_right (by simp)
    rw [h.queue_eq hl]
    refine ⟨hrep.price, ?_, hrep.chained, ?_⟩
    · rw [hrep.chained.head]
      simpa [refs] using hne
    · rw [hrep.totalVolume, refs, List.map_map, volume]
      refine congrArg List.sum (List.map_congr_left fun r hr => ?_)
      exact (h.heap_quantity (List.mem_filter.mp hr).1).symm
  order s p lvl hl a ha := by
    rw [h.queue_eq hl] at ha
    obtain ⟨r, hr, rfl⟩ := List.mem_map.mp ha
    obtain ⟨hr, hp⟩ := List.mem_filter.mp hr
    exact ⟨(h.heap_price hr).trans (of_decide_eq_true hp), h.heap_side hr,
      congrArg Order.isMarket (h.cell s r hr)⟩
  hand a ha := by
    obtain ⟨o, ho, rfl⟩ := List.mem_map.mp ha
    rw [h.hand o ho]
    exact ⟨rfl, rfl⟩
  allocated := by rw [h.allocated, List.length_range]
  owned := by
    rw [h.orders_eq, h.orders_eq, h.free, h.allocated]
    exact h.owned

end Represents

namespace Engine.WellFormed
variable {e : Engine} {hands : List Addr}

theorem side_price (s : Side) (h : e.WellFormed hands) :
    ∀ l ∈ (e.levels s).entries, ∀ r ∈ (e.queue l.2).map e.resting, r.price = l.1 := by
  intro l hl r hr
  obtain ⟨a, ha, rfl⟩ := List.mem_map.mp hr
  exact (h.order s l.1 l.2 ((SortedMap.mem_entries_iff _ _ _).mp hl) a ha).1

theorem keys_nodup (s : Side) : ((e.levels s).entries.map Prod.fst).Nodup :=
  List.pairwise_map.mpr ((e.levels s).sorted.imp fun {k k'} h he => by
    rw [he] at h
    exact Std.Irrefl.irrefl k'.1 h)

theorem side_flatMap (s : Side) :
    e.book.side s = (e.levels s).entries.flatMap fun l => (e.queue l.2).map e.resting := by
  simp only [book, orders, List.map_flatMap]

theorem book_queue (h : e.WellFormed hands) {s : Side} {p : Price} {lvl : PriceLevel}
    (hl : e.level? s p = some lvl) : e.book.queue s p = (e.queue lvl).map e.resting := by
  unfold Book.queue
  rw [side_flatMap]
  exact filter_flatMap_block (f := fun l => (e.queue l).map e.resting) (keys_nodup s)
    (h.side_price s) ((SortedMap.mem_entries_iff _ _ _).mpr hl)

theorem represents (h : e.WellFormed hands) :
    Represents none e (hands.map e.incoming) e.book where
  sorted s := by
    rw [side_flatMap]
    refine List.pairwise_flatMap.mpr ⟨fun l hl => ?_, ?_⟩
    · refine List.pairwise_of_forall_mem_list fun r hr r' hr' => ?_
      rw [h.side_price s l hl r hr, h.side_price s l hl r' hr']
      exact Std.Irrefl.irrefl l.1
    · refine (e.levels s).sorted.imp_of_mem fun {l l'} hl hl' hlt r hr r' hr' => ?_
      rw [h.side_price s l hl r hr, h.side_price s l' hl' r' hr']
      exact fun hc => Std.Asymm.asymm _ _ hc hlt
  cell s r hr := by
    obtain ⟨a, ha, rfl⟩ := List.mem_map.mp hr
    obtain ⟨l, hl, ha⟩ := List.mem_flatMap.mp ha
    obtain ⟨-, hs, hm⟩ := h.order s l.1 l.2 ((SortedMap.mem_entries_iff _ _ _).mp hl) a ha
    simp [resting, Resting.data, Order.unlink, Order.new, hs, hm]
  hand o ho := by
    obtain ⟨a, ha, rfl⟩ := List.mem_map.mp ho
    obtain ⟨hn, hp⟩ := h.hand a ha
    have hcell : e.heap a = { (e.heap a).unlink with next := (e.heap a).next, prev := (e.heap a).prev } :=
      rfl
    rw [hn, hp] at hcell
    exact hcell
  level s p lvl hl := by
    obtain ⟨hp, hh, hc, hv⟩ := h.level s p lvl hl
    have hrefs : refs ((e.queue lvl).map e.resting) = e.queue lvl := by
      rw [refs, List.map_map]
      exact List.map_id _
    rw [h.book_queue hl]
    refine ⟨⟨hp, by rwa [hrefs], ?_⟩, Or.inl fun hnil => ?_⟩
    · rw [hv, volume, List.map_map]
      rfl
    · rw [List.map_eq_nil_iff.mp hnil] at hc
      exact hh hc.head
  empty s p hl := by
    refine List.filter_eq_nil_iff.mpr fun r hr hp => ?_
    rw [side_flatMap] at hr
    obtain ⟨l, hlm, hr⟩ := List.mem_flatMap.mp hr
    have he := (h.side_price s l hlm r hr).symm.trans (of_decide_eq_true hp)
    have hlm := (SortedMap.mem_entries_iff _ _ _).mp hlm
    rw [he] at hlm
    exact absurd (hl.symm.trans hlm) (by simp)
  index := rfl
  trades := rfl
  free := rfl
  allocated := h.allocated
  owned := by
    have hmap : ∀ s, refs (e.book.side s) = e.orders s := fun s => by
      rw [book, refs, List.map_map]
      exact List.map_id _
    have hhands : (hands.map e.incoming).map Incoming.ref = hands := by
      rw [List.map_map]
      exact List.map_id _
    rw [Book.cells, hmap, hmap, hhands]
    exact h.allocated ▸ h.owned

theorem best?_eq (h : e.WellFormed hands) (s : Side) :
    e.best? s = (e.book.side s).head?.map Resting.price := h.represents.best?_eq s

theorem map_incoming_ref (e : Engine) (L : List Addr) : (L.map e.incoming).map Incoming.ref = L := by
  rw [List.map_map]
  exact List.map_id _

/-- What the represented state says, read back off the engine. -/
theorem of_represents {e' : Engine} {b' : Book} {L : List Addr}
    (h : Represents none e' (L.map e.incoming) b') :
    e'.WellFormed L ∧ e'.book = b' ∧ ∀ c ∈ L, e'.incoming c = e.incoming c := by
  refine ⟨?_, h.book_eq, fun c hc => ?_⟩
  · simpa only [map_incoming_ref] using h.wellFormed
  · exact h.incoming_ref (o := e.incoming c) (List.mem_map_of_mem hc)

theorem acquire_order (h : e.WellFormed hands) (id : OrderId) (p : Price) (q : Quantity) (s : Side)
    (m : Bool) {a : Addr} {e' : Engine} (ha : e.acquire id p q s m = (a, e')) :
    (e.book.acquire id p q s m).1 = ⟨a, id, p, q, s, m⟩ := by
  obtain ⟨href, -⟩ := h.represents.acquire id p q s m
  rw [ha] at href
  rw [show a = _ from href]
  unfold Book.acquire
  split <;> rfl

theorem acquire (h : e.WellFormed hands) (id : OrderId) (p : Price) (q : Quantity) (s : Side)
    (m : Bool) {a : Addr} {e' : Engine} (ha : e.acquire id p q s m = (a, e')) :
    e'.WellFormed (a :: hands) ∧ e'.book = (e.book.acquire id p q s m).2 ∧
      e'.incoming a = ⟨a, id, p, q, s, m⟩ ∧ ∀ c ∈ hands, e'.incoming c = e.incoming c := by
  obtain ⟨-, hr⟩ := h.represents.acquire id p q s m
  rw [ha] at hr
  have hin := h.acquire_order id p q s m ha
  rw [hin] at hr
  have hwf := hr.wellFormed
  rw [List.map_cons, map_incoming_ref] at hwf
  refine ⟨hwf, hr.book_eq, hr.incoming_ref (o := ⟨a, id, p, q, s, m⟩) (by simp), fun c hc => ?_⟩
  exact hr.incoming_ref (o := e.incoming c) (List.mem_cons_of_mem _ (List.mem_map_of_mem hc))

theorem processOrder (h : e.WellFormed hands) {a : Addr} (ha : a ∈ hands) (time now : Timestamp) :
    ∃ e', e.processOrder a time now = some e' ∧ e'.WellFormed (hands.erase a) ∧
      e'.book = e.book.process (e.incoming a) time ∧
      ∀ c ∈ hands.erase a, e'.incoming c = e.incoming c := by
  have hperm := (List.perm_cons_erase ha).map e.incoming
  obtain ⟨e', he, hr⟩ := (h.represents.perm_hands hperm).processOrder time now
  exact ⟨e', he, of_represents hr⟩

theorem traceIncoming (h : e.WellFormed hands) {a : Addr} (ha : a ∈ hands) (time now : Timestamp) :
    ∃ F e1 e', e.traceIncoming a time = some (F, e1) ∧ e.processOrder a time now = some e' ∧
      e'.tradeLog = e.tradeLog ++ F.map (tradeOf (e.heap a).side.opposite time a) ∧
      ∀ f ∈ F, Takes (e.heap a).side.opposite e.book f := by
  have hperm := (List.perm_cons_erase ha).map e.incoming
  have hr := h.represents.perm_hands hperm
  obtain ⟨F, e1, hF, hr1, ht⟩ := Represents.traceIncoming (o := e.incoming a) hr time
  obtain ⟨e', he, hr'⟩ := Represents.processOrder (o := e.incoming a) hr time now
  refine ⟨F, e1, e', hF, he, ?_, ht.takes⟩
  rw [hr'.trades, Book.trades_process, ← hr1.trades, ht.trades]
  rfl

theorem cancelOrder (h : e.WellFormed hands) (hi : e.book.Indexed) (id : OrderId)
    (now : Timestamp) :
    (e.cancelOrder id now).WellFormed hands ∧ (e.cancelOrder id now).book = e.book.cancel id ∧
      ∀ c ∈ hands, (e.cancelOrder id now).incoming c = e.incoming c :=
  of_represents (h.represents.cancelOrder hi id now)

theorem modifyOrder (h : e.WellFormed hands) (hi : e.book.Indexed) (origId newId : OrderId)
    (newPrice : Price) (newQty : Quantity) (now : Timestamp) :
    (e.modifyOrder origId newId newPrice newQty now).WellFormed hands ∧
      (e.modifyOrder origId newId newPrice newQty now).book =
        e.book.modify origId newId newPrice newQty ∧
      ∀ c ∈ hands, (e.modifyOrder origId newId newPrice newQty now).incoming c = e.incoming c :=
  of_represents (h.represents.modifyOrder hi origId newId newPrice newQty now)

end Engine.WellFormed

theorem Engine.new_wellFormed (poolSize : Nat) (udpPub : Bool) :
    (Engine.new poolSize udpPub).WellFormed [] ∧
      (Engine.new poolSize udpPub).book = Book.new poolSize :=
  ⟨(Represents.new poolSize udpPub).wellFormed, (Represents.new poolSize udpPub).book_eq⟩

end LobCity
