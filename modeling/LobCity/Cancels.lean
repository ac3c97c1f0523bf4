import LobCity.BookInvariant
import LobCity.Levels

/-! A cancel is a deletion: it takes one order out of its side and out of the index, so
cancels commute, and a cancel right behind a call that only rested its order undoes it,
unless the index entry of the id was taken over. -/
namespace LobCity
open Library

theorem refs_filter_ref {L : List Resting} (hn : (refs L).Nodup) (a : Addr) :
    refs (L.filter fun x => x.ref ≠ a) = (refs L).erase a := by
  rw [hn.erase_eq_filter, refs, refs, List.filter_map]
  refine congrArg _ (List.filter_congr fun x _ => ?_)
  by_cases hx : x.ref = a <;> simp [hx]

theorem filter_ref_eq_nil_iff {L : List Resting} (hn : (refs L).Nodup) (a : Addr) :
    L.filter (fun x => x.ref ≠ a) = [] ↔ L = [] ∨ refs L = [a] := by
  constructor
  · intro hnil
    have hall : ∀ x ∈ L, x.ref = a := by simpa using List.filter_eq_nil_iff.mp hnil
    cases L with
    | nil => exact Or.inl rfl
    | cons y L =>
      refine Or.inr ?_
      cases L with
      | nil => rw [← hall y (by simp)]; rfl
      | cons z L =>
        -- two orders in one cell
        have hyz := (hall y (by simp)).trans (hall z (by simp)).symm
        exact absurd (hyz ▸ List.mem_map_of_mem (List.mem_cons_self ..)) (List.nodup_cons.mp hn).1
  · intro hor
    refine List.filter_eq_nil_iff.mpr fun x hx => ?_
    cases hor with
    | inl hnil => simp [hnil] at hx
    | inr hsole =>
      have hxa : x.ref ∈ [a] := hsole ▸ List.mem_map_of_mem hx
      simpa using hxa

namespace Book
variable {b : Book} {s : Side} {r : Resting} {o : Incoming}

theorem side_removed (hd : b.Distinct) (hr : r ∈ b.side s) (t : Side) :
    ((b.eraseId r.id).drop s r.ref).side t = (b.side t).filter fun x => x.ref ≠ r.ref := by
  unfold drop
  by_cases ht : t = s
  · subst ht
    exact setSide_self _ _ _
  · rw [setSide_of_ne _ _ ht]
    refine (List.filter_eq_self.mpr fun x hx => ?_).symm
    exact decide_eq_true fun he => ht (hd.unique hx hr he).1

theorem side_cancel (he : b.Exact) (hd : b.Distinct) (id : OrderId) (t : Side) :
    (b.cancel id).side t = (b.side t).filter fun x => x.id ≠ id := by
  cases cancel_cases hd he.indexed id with
  | inl h =>
    rw [h.2]
    have hnone : ∀ x ∈ b.side t, x.id ≠ id := by
      intro x hx hid
      have hk : b.index id = some x.ref := (he _ _).mpr ⟨t, x, hx, rfl, hid⟩
      exact absurd (h.1.symm.trans hk) (by simp)
    exact (List.filter_eq_self.mpr (by simpa using hnone)).symm
  | inr h =>
    obtain ⟨s, r, hr, rfl, -, hb⟩ := h
    rw [hb]
    refine (side_removed hd hr t).trans (List.filter_congr fun x hx => decide_eq_decide.mpr ?_)
    refine not_congr ⟨fun href => ?_, fun hid => ?_⟩
    · rw [(hd.unique hx hr href).2]
    · rw [(he.unique hd hx hr hid).2]

theorem index_cancel (hd : b.Distinct) (hi : b.Indexed) (id : OrderId) :
    (b.cancel id).index = Function.update b.index id none := by
  cases cancel_cases hd hi id with
  | inl h => rw [h.2, ← h.1, Function.update_eq_self]
  | inr h =>
    obtain ⟨s, r, -, rfl, -, hb⟩ := h
    rw [hb]
    rfl

theorem matched_of_no_trade {time : Timestamp} (h : (b.matched o time).trades = b.trades) :
    b.matched o time = b ∧ (b.execution o).left = o.quantity := by
  have hfills : (b.execution o).fills = [] := by
    have hlog : b.trades ++ (b.execution o).fills.map (Fill.trade o.side.opposite o.id time) = b.trades := h
    simpa using hlog
  have hx : b.execution o = ⟨[], b.side o.side.opposite, o.quantity⟩ := by
    unfold execution at hfills ⊢
    cases hL : b.side o.side.opposite with
    | nil => rfl
    | cons r L =>
      rw [hL] at hfills
      by_cases hstop : o.quantity = 0 ∨ o.reaches r.price = false
      · exact fillGreedily_stop hstop
      · by_cases hfull : min o.quantity r.quantity = r.quantity
        · rw [fillGreedily_full hstop hfull] at hfills
          simp at hfills
        · rw [fillGreedily_outlasts hstop hfull] at hfills
          simp at hfills
  refine ⟨?_, by rw [hx]⟩
  rw [matched, hx]
  exact settle_nil rfl

end Book

namespace Engine

/-- The engine `e'` is `e` without the order in cell `order`: every other order stands as it
stood, and a level goes exactly when that order was all it held. -/
structure Deletes (e e' : Engine) (order : Addr) : Prop where
  orders : ∀ s, e'.orders s = (e.orders s).erase order
  kept : ∀ s, ∀ a ∈ e'.orders s, (e'.heap a).unlink = (e.heap a).unlink
  level : ∀ s p, e'.level? s p = none ↔ e.level? s p = none ∨ e.queueAt s p = [order]
  trades : e'.tradeLog = e.tradeLog

def RestedQuietly (e e' : Engine) (order : Addr) : Prop :=
  order ∈ e'.orders (e.heap order).side ∧ e'.tradeLog = e.tradeLog

section Delete
variable {e e' : Engine} {hands : List Addr}

theorem WellFormed.deletes (h : e.WellFormed hands) (he : e.book.Exact) {s : Side} {a : Addr}
    (ha : a ∈ e.orders s) (now : Timestamp) : Deletes e (e.cancelOrder (e.heap a).id now) a := by
  obtain ⟨h', hb, -⟩ := h.cancelOrder he.indexed (e.heap a).id now
  have hd := h.represents.distinct
  obtain ⟨r, hr, rfl⟩ := h.mem_orders.mp ha
  have hid : (e.heap r.ref).id = r.id := h.represents.heap_id hr
  have hk : e.book.index (e.heap r.ref).id = some r.ref := (he _ _).mpr ⟨s, r, hr, rfl, hid.symm⟩
  have hside : ∀ t, (e.cancelOrder (e.heap r.ref).id now).book.side t =
      (e.book.side t).filter fun x => x.ref ≠ r.ref := by
    intro t
    rw [hb, Book.cancel_entry hd hr hk]
    exact Book.side_removed hd hr t
  refine ⟨fun t => ?_, fun t c hc => ?_, fun t p => ?_, ?_⟩
  · rw [h'.represents.orders_eq, hside, h.represents.orders_eq,
      refs_filter_ref (h.represents.side_nodup t)]
  · obtain ⟨x, hx, rfl⟩ := h'.mem_orders.mp hc
    have hx0 : x ∈ e.book.side t := by
      rw [hside] at hx
      exact (List.mem_filter.mp hx).1
    exact (h'.represents.cell t x hx).trans (h.represents.cell t x hx0).symm
  · rw [h'.represents.level?_eq_none, h.represents.level?_eq_none, h.queueAt_eq]
    have hq : (e.cancelOrder (e.heap r.ref).id now).book.queue t p =
        (e.book.queue t p).filter fun x => x.ref ≠ r.ref := by
      rw [Book.queue, hside, Book.queue, List.filter_comm]
    rw [hq]
    exact filter_ref_eq_nil_iff (h.represents.queue_nodup t p) r.ref
  · exact (congrArg Book.trades hb).trans (Book.trades_cancel _ _)

theorem WellFormed.cancels_commute (h : e.WellFormed hands) (he : e.book.Exact) (id id' : OrderId)
    (now now' : Timestamp) : SameBook ((e.cancelOrder id now).cancelOrder id' now')
      ((e.cancelOrder id' now').cancelOrder id now) := by
  have hd := h.represents.distinct
  obtain ⟨h1, hb1, -⟩ := h.cancelOrder he.indexed id now
  obtain ⟨h2, hb2, -⟩ := h.cancelOrder he.indexed id' now'
  have he1 : (e.cancelOrder id now).book.Exact := hb1 ▸ he.cancel hd id
  have he2 : (e.cancelOrder id' now').book.Exact := hb2 ▸ he.cancel hd id'
  have hd1 := h1.represents.distinct
  have hd2 := h2.represents.distinct
  obtain ⟨h12, hb12, -⟩ := h1.cancelOrder he1.indexed id' now'
  obtain ⟨h21, hb21, -⟩ := h2.cancelOrder he2.indexed id now
  refine h12.sameBook h21 ?_ ?_ ?_
  · funext t
    rw [hb21, hb12, Book.side_cancel he2 hd2, Book.side_cancel he1 hd1, hb1, hb2,
      Book.side_cancel he hd, Book.side_cancel he hd, List.filter_comm]
  · rw [hb21, hb12, Book.index_cancel hd2 he2.indexed, Book.index_cancel hd1 he1.indexed, hb1, hb2,
      Book.index_cancel hd he.indexed, Book.index_cancel hd he.indexed]
    by_cases hne : id = id'
    · rw [hne]
    · exact (Function.update_comm hne none none e.book.index).symm
  · rw [hb21, hb12, Book.trades_cancel, Book.trades_cancel, hb1, hb2, Book.trades_cancel,
      Book.trades_cancel]

theorem WellFormed.book_of_rested (h : e.WellFormed hands) {a : Addr} (ha : a ∈ hands)
    {time now : Timestamp} (hp : e.processOrder a time now = some e') (hq : RestedQuietly e e' a) :
    e'.WellFormed (hands.erase a) ∧ e'.book = e.book.rest (e.incoming a) := by
  obtain ⟨e1, he1, h', hb, -⟩ := h.processOrder ha time now
  obtain rfl : e' = e1 := Option.some.inj (hp.symm.trans he1)
  refine ⟨h', ?_⟩
  cases Book.process_cases e.book (e.incoming a) time with
  | inl hcase =>
    obtain ⟨-, -, hproc⟩ := hcase
    have htrades : (e.book.matched (e.incoming a) time).trades = e.book.trades := by
      have hlog := congrArg Book.trades (hb.trans hproc)
      exact hlog.symm.trans hq.2
    obtain ⟨hsame, hleft⟩ := Book.matched_of_no_trade htrades
    rw [hb, hproc, hsame, hleft]
  | inr hcase =>
    -- a released order does not rest
    obtain ⟨x, hx, hxa⟩ := h'.mem_orders.mp hq.1
    have hx : x ∈ (e.book.matched (e.incoming a) time).side (e.heap a).side := by
      rw [hb, hcase.2] at hx
      exact hx
    have hout := Book.not_mem_matched (h.represents.not_mem_refs (o := e.incoming a)
      (List.mem_map_of_mem ha) (e.heap a).side) (e.incoming a) time
    exact absurd (List.mem_map.mpr ⟨x, hx, hxa⟩) hout

/-- The cancel of an order that has just come to rest without a trade: the sequences and the
log are back, and so is the index exactly when it had no entry for the id. -/
theorem WellFormed.undoes_iff (h : e.WellFormed hands) (he : e.book.Exact) {a : Addr} (ha : a ∈ hands)
    {time now : Timestamp} (hp : e.processOrder a time now = some e') (hq : RestedQuietly e e' a)
    (now' : Timestamp) :
    SameBook e (e'.cancelOrder (e.heap a).id now') ↔ e.orderMap (e.heap a).id = none := by
  obtain ⟨h', hrest⟩ := h.book_of_rested ha hp hq
  set o := e.incoming a with ho
  have hfresh : ∀ t, a ∉ refs (e.book.side t) := fun t =>
    h.represents.not_mem_refs (o := o) (List.mem_map_of_mem ha) t
  have hi' : e'.book.Indexed := hrest ▸ he.indexed.rest o
  have hd' := h'.represents.distinct
  obtain ⟨h2, hb2, -⟩ := h'.cancelOrder hi' o.id now'
  have hindex : (e'.cancelOrder o.id now').orderMap = Function.update e.orderMap o.id none := by
    have hk := (congrArg Book.index hb2).trans (Book.index_cancel hd' hi' o.id)
    rw [hrest] at hk
    exact hk.trans (Function.update_idem _ _ _)
  have hsides : ∀ t, (e'.cancelOrder o.id now').book.side t = e.book.side t := by
    intro t
    have hmem : o.resting ∈ e'.book.side o.side := hrest ▸ Represents.mem_rest.mpr (Or.inl ⟨rfl, rfl⟩)
    have hk : e'.book.index o.id = some a := by
      rw [hrest]
      exact Function.update_self _ _ _
    have hrem : (e'.book.cancel o.id).side t = (e'.book.side t).filter fun x => x.ref ≠ a := by
      rw [Book.cancel_entry hd' hmem hk]
      exact Book.side_removed hd' hmem t
    rw [hb2, hrem, hrest, Book.filter_rest (by simp [Incoming.resting, ho, Engine.incoming])]
    exact List.filter_eq_self.mpr fun x hx =>
      decide_eq_true fun hxa => hfresh t (List.mem_map.mpr ⟨x, hx, hxa⟩)
  constructor
  · intro hsame
    rw [← hsame.index]
    exact (congrFun hindex o.id).trans (Function.update_self _ _ _)
  · intro hnone
    refine h.sameBook h2 (funext hsides) ?_ ?_
    · show (e'.cancelOrder o.id now').orderMap = e.orderMap
      have hnone : e.orderMap o.id = none := hnone
      rw [hindex, ← hnone, Function.update_eq_self]
    · exact (congrArg Book.trades hb2).trans ((Book.trades_cancel _ _).trans hq.2)

end Delete

/-- A cancel of an id that does not rest changes nothing; that of a resting order deletes
it, and nothing else; two cancels commute. The cancel of an order that has just come to
rest without a trade restores sequences, index and trade log exactly when no order of its
id rested before. -/
theorem cancelOrder_exact {e : Engine} {hands : List Addr} (h : e.WellFormed hands)
    (he : e.book.Exact) :
    (∀ id now, id ∉ e.restingIds → e.cancelOrder id now = e) ∧
      (∀ s, ∀ a ∈ e.orders s, ∀ now, Deletes e (e.cancelOrder (e.heap a).id now) a) ∧
      (∀ id id' now now', SameBook ((e.cancelOrder id now).cancelOrder id' now')
        ((e.cancelOrder id' now').cancelOrder id now)) ∧
      ∀ a ∈ hands, ∀ time now e', e.processOrder a time now = some e' → RestedQuietly e e' a →
        ∀ now', SameBook e (e'.cancelOrder (e.heap a).id now') ↔ (e.heap a).id ∉ e.restingIds := by
  have hfree : ∀ id, e.orderMap id = none ↔ id ∉ e.restingIds := by
    intro id
    rw [mem_restingIds, Option.eq_none_iff_forall_ne_some]
    constructor
    · intro hnone hrests
      obtain ⟨s, r, hr, hid⟩ := hrests
      exact hnone r.ref ((he id r.ref).mpr ⟨s, r, hr, rfl, hid⟩)
    · intro hout a hk
      obtain ⟨s, r, hr, -, hid⟩ := (he id a).mp hk
      exact hout ⟨s, r, hr, hid⟩
  refine ⟨fun id now hid => cancelOrder_unknown ((hfree id).mpr hid) now,
    fun s a ha now => h.deletes he ha now,
    fun id id' now now' => h.cancels_commute he id id' now now', ?_⟩
  intro a ha time now e' hp hq now'
  rw [← hfree]
  exact h.undoes_iff he ha hp hq now'

end Engine

namespace Session

/-- A buy rests under id 7 at 100, and another order is acquired under id 7 or 8. -/
def acquiredOps (id : OrderId) : List Op :=
  [.acquire 7 100 10 .buy false, .process 1 10 11, .acquire id 99 10 .buy false]

theorem cancelOrder_exact_fresh_id :
    ∃ S, run step (new 2 false) (acquiredOps 8) = some S ∧
      ∃ e', S.engine.processOrder 0 12 13 = some e' ∧
        Engine.SameBook S.engine (e'.cancelOrder 8 14) := by
  have hok : Along step Admissible (new 2 false) (acquiredOps 8) := by decide
  obtain ⟨S, hS, h⟩ := run_regular hok
  have hstart : (run step (new 2 false) (acquiredOps 8)).map (fun S =>
      (S.hands, (S.engine.heap 0).id, (S.engine.heap 0).side, S.engine.restingIds)) =
        some ([0], 8, .buy, [7]) := by decide
  have hrests : (run step (new 2 false) (acquiredOps 8)).bind (fun S =>
      (S.engine.processOrder 0 12 13).map fun e' => (e'.orders .buy, e'.tradeLog == S.engine.tradeLog)) =
        some ([1, 0], true) := by decide
  rw [hS] at hstart hrests
  simp only [Option.map_some, Option.some.injEq, Prod.mk.injEq] at hstart
  obtain ⟨hhands, hid, hside, hids⟩ := hstart
  obtain ⟨e', he', hrested⟩ := Option.map_eq_some_iff.mp hrests
  obtain ⟨horders, hlog⟩ := Prod.mk.inj hrested
  refine ⟨S, hS, e', he', ?_⟩
  have hq : Engine.RestedQuietly S.engine e' 0 :=
    ⟨by rw [hside, horders]; decide, eq_of_beq hlog⟩
  have hexact := (Engine.cancelOrder_exact h.wellFormed h.exact).2.2.2 0 (by simp [hhands]) 12 13 e'
    he' hq 14
  rw [hid] at hexact
  exact hexact.mpr (by simp [hids])

/-- Under id 7 again, the call overwrites the index entry of the order at 100 and the cancel
erases it: that order rests on without an entry. -/
theorem acquiredOps_not_undone :
    ∃ S, run step (new 2 false) (acquiredOps 7) = some S ∧ S.engine.WellFormed S.hands ∧
      S.engine.book.Exact ∧ ∃ e', S.engine.processOrder 0 12 13 = some e' ∧
        Engine.RestedQuietly S.engine e' 0 ∧ (S.engine.heap 0).id = 7 ∧
        S.engine.orderMap 7 = some 1 ∧ (e'.cancelOrder 7 14).orders .buy = [1] ∧
        (e'.cancelOrder 7 14).orderMap 7 = none ∧
        ¬ Engine.SameBook S.engine (e'.cancelOrder 7 14) := by
  have hok : Along step Admissible (new 2 false) (acquiredOps 7) := by decide
  obtain ⟨S, hS, h⟩ := run_regular hok
  have hstart : (run step (new 2 false) (acquiredOps 7)).map (fun S =>
      ((S.engine.heap 0).id, (S.engine.heap 0).side, S.engine.orderMap 7)) =
        some (7, .buy, some 1) := by decide
  have hrests : (run step (new 2 false) (acquiredOps 7)).bind (fun S =>
      (S.engine.processOrder 0 12 13).map fun e' => (e'.orders .buy, e'.tradeLog == S.engine.tradeLog,
        (e'.cancelOrder 7 14).orders .buy, (e'.cancelOrder 7 14).orderMap 7)) =
        some ([1, 0], true, [1], none) := by decide
  rw [hS] at hstart hrests
  simp only [Option.map_some, Option.some.injEq, Prod.mk.injEq] at hstart
  obtain ⟨hid, hside, hindex⟩ := hstart
  obtain ⟨e', he', hrested⟩ := Option.map_eq_some_iff.mp hrests
  simp only [Prod.mk.injEq] at hrested
  obtain ⟨horders, hlog, hafter, hgone⟩ := hrested
  refine ⟨S, hS, h.wellFormed, h.exact, e', he', ⟨by rw [hside, horders]; decide, eq_of_beq hlog⟩,
    hid, hindex, hafter, hgone, fun hsame => ?_⟩
  have hk := congrFun hsame.index 7
  rw [hgone, hindex] at hk
  simp at hk

end Session
end LobCity
