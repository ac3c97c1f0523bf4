import LobCity.BookInvariant
import LobCity.Depth
import LobCity.Gateway

/-! Cancelling by id, over histories with arbitrary ids. An order that comes to rest under
the id of another one takes over its index entry, and the other can no longer be named. -/
namespace LobCity
open Library

namespace Book
variable {b : Book} {o : Incoming}

def Shadows (b : Book) (o : Incoming) : Prop :=
  o.isMarket = false ∧ depth (b.reached o) < o.quantity.toNat ∧
    ((∃ r ∈ b.side o.side, r.id = o.id) ∨ ∃ r ∈ b.beyond o, r.id = o.id)

theorem exact_rest_iff (he : b.Exact) (ho : ∀ s, o.ref ∉ refs (b.side s)) :
    (b.rest o).Exact ↔ ¬ b.Rests o.id := by
  refine ⟨?_, he.rest⟩
  rintro hrest ⟨s, r, hr, hid⟩
  have hold := (hrest o.id r.ref).mpr ⟨s, r, Represents.mem_rest.mpr (Or.inr hr), rfl, hid⟩
  have hnew : (b.rest o).index o.id = some o.ref := Function.update_self ..
  have href : o.ref = r.ref := Option.some.inj (hnew.symm.trans hold)
  exact ho s (href ▸ List.mem_map_of_mem hr)

theorem rests_matched_iff (h : depth (b.reached o) < o.quantity.toNat) (time : Timestamp)
    (k : OrderId) :
    (b.matched o time).Rests k ↔ (∃ r ∈ b.side o.side, r.id = k) ∨ ∃ r ∈ b.beyond o, r.id = k := by
  have hown : (b.matched o time).side o.side = b.side o.side := by
    rw [side_matched, if_neg (side_opposite_ne o.side)]
  have hopp : (b.matched o time).side o.side.opposite = b.beyond o := by
    rw [side_matched, if_pos rfl]
    exact (execution_through (usesUp_of_lt h)).1
  rw [← hown, ← hopp]
  constructor
  · rintro ⟨s, hs⟩
    cases s <;> cases ho : o.side <;> first | exact Or.inl hs | exact Or.inr hs
  · intro hs
    cases hs with
    | inl hs => exact ⟨_, hs⟩
    | inr hs => exact ⟨_, hs⟩

theorem exact_process_iff (he : b.Exact) (hd : b.Distinct) (ho : ∀ s, o.ref ∉ refs (b.side s))
    (time : Timestamp) : (b.process o time).Exact ↔ ¬ b.Shadows o := by
  have hm := he.matched hd o time
  cases process_cases b o time with
  | inl h =>
    obtain ⟨hmarket, hleft, hb⟩ := h
    have hthrough := left_pos_iff.mp hleft
    have hiff := rests_matched_iff hthrough time o.id
    have hrest := exact_rest_iff (o := { o with quantity := (b.execution o).left }) hm
      fun s => not_mem_matched (ho s) o time
    rw [hb, hrest, hiff]
    simp [Shadows, hmarket, hthrough]
  | inr h =>
    obtain ⟨hdone, hb⟩ := h
    rw [hb]
    refine iff_of_true hm ?_
    rintro ⟨hmarket, hthrough, -⟩
    have hleft := left_pos_iff.mpr hthrough
    cases hdone with
    | inl h => simp [hmarket] at h
    | inr h =>
      rw [h] at hleft
      exact absurd hleft (by decide)

/-- A rename keeps the index exact unless it takes the id of another resting order. -/
theorem exact_modify_iff (he : b.Exact) (hd : b.Distinct) (origId newId : OrderId)
    (newPrice : Price) (newQty : Quantity) :
    (b.modify origId newId newPrice newQty).Exact ↔
      ¬ (newId ≠ origId ∧ b.Rests origId ∧ b.Rests newId) := by
  constructor
  · rintro hafter ⟨hne, ⟨s, r, hr, hid⟩, t, x, hx, hxid⟩
    have hk : b.index origId = some r.ref := (he _ _).mpr ⟨s, r, hr, rfl, hid⟩
    have hxr : x.ref ≠ r.ref := by
      intro href
      obtain ⟨-, rfl⟩ := hd.unique hx hr href
      exact hne (hxid.symm.trans hid)
    have hmem (t : Side) (y : Resting) :
        y ∈ (b.modify origId newId newPrice newQty).side t ↔ _ := mem_modify hd he.indexed hr hk
    have hself := (hafter newId r.ref).mpr ⟨s, _, (hmem s _).mpr (Or.inl ⟨rfl, rfl⟩), rfl, rfl⟩
    have hother := (hafter newId x.ref).mpr ⟨t, x, (hmem t x).mpr (Or.inr ⟨hx, hxr⟩), rfl, hxid⟩
    exact hxr (Option.some.inj (hother.symm.trans hself))
  · intro hfree
    by_cases hne : newId = origId
    · exact he.modify hd (Or.inl hne) newPrice newQty
    by_cases horig : b.Rests origId
    · exact he.modify hd (Or.inr fun hnew => hfree ⟨hne, horig, hnew⟩) newPrice newQty
    · cases modify_cases hd he.indexed origId newId newPrice newQty with
      | inl h =>
        rw [h.2]
        exact he
      | inr h =>
        obtain ⟨s, r, hr, hid, -⟩ := h
        exact absurd ⟨s, r, hr, hid⟩ horig

theorem not_rests_cancel (he : b.Exact) (hd : b.Distinct) {s : Side} {r : Resting}
    (hr : r ∈ b.side s) :
    ¬ (b.cancel r.id).Rests r.id ∧ ∀ t, r.ref ∉ refs ((b.cancel r.id).side t) := by
  have hk : b.index r.id = some r.ref := (he _ _).mpr ⟨s, r, hr, rfl, rfl⟩
  rw [cancel_entry hd hr hk]
  exact ⟨not_rests_removed he hd hr (Or.inl rfl), not_mem_removed hd hr⟩

end Book

namespace OrderEntryGateway
variable {g : OrderEntryGateway}

/-- Every resting order is the one the index holds under its id, and a cancel request with
that id takes it off the book and leaves none of that id. -/
def Cancellable (g : OrderEntryGateway) : Prop :=
  ∀ s, ∀ order ∈ g.engine.orders s, let id := (g.engine.heap order).id
    g.engine.orderMap id = some order ∧
      ∀ msg clock, msg.msgType = byte 'F' → numericId msg.clOrdID = id →
        ∃ g', g.onParsedMessage msg clock = some g' ∧ id ∉ g'.engine.restingIds ∧
          ∀ t, order ∉ g'.engine.orders t

theorem refs_book (e : Engine) (s : Side) : refs (e.book.side s) = e.orders s := by
  show ((e.orders s).map e.resting).map Resting.ref = e.orders s
  rw [List.map_map]
  exact List.map_id _

theorem Sound.cancellable_iff (h : g.Sound) : g.Cancellable ↔ g.engine.book.Exact := by
  have hd := h.distinct
  constructor
  · refine fun hall k a => ⟨h.indexed k a, ?_⟩
    rintro ⟨s, r, hr, rfl, rfl⟩
    obtain ⟨order, horder, rfl⟩ := List.mem_map.mp hr
    exact (hall s order horder).1
  · intro he s order horder id
    have hr : g.engine.resting order ∈ g.engine.book.side s := List.mem_map_of_mem horder
    refine ⟨(he id order).mpr ⟨s, _, hr, rfl, rfl⟩, fun msg clock hF hid => ?_⟩
    obtain ⟨g', hg, -, hb, -⟩ := h.onParsedMessage msg clock
    have hcancel : g'.engine.book = g.engine.book.cancel id := by
      have hD : msg.msgType ≠ byte 'D' := by
        rw [hF]
        decide
      rw [hb, bookAfter, if_neg hD, if_pos hF, hid]
    obtain ⟨hnone, hgone⟩ := Book.not_rests_cancel he hd hr
    refine ⟨g', hg, ?_, fun t => ?_⟩
    · rw [Engine.mem_restingIds, hcancel]
      exact hnone
    · rw [← refs_book, hcancel]
      exact hgone t

/-- The message gives an order that will rest the id of another one: a new limit order
that is not filled at once, or a replacement that changes the id. -/
def Reuses (g : OrderEntryGateway) (m : FixMessage × Clock) : Prop :=
  let b := g.engine.book
  g.verdict m.1 m.2 = .none ∧
    (m.1.msgType = byte 'D' ∧ b.Shadows (b.newOrder m.1).1 ∨
      m.1.msgType = byte 'G' ∧ numericId m.1.clOrdID ≠ numericId m.1.origClOrdID ∧
        b.Rests (numericId m.1.origClOrdID) ∧ b.Rests (numericId m.1.clOrdID))

theorem Sound.exact_newOrder_iff (h : g.Sound) (he : g.engine.book.Exact) (msg : FixMessage)
    (time : Timestamp) :
    ((g.engine.book.newOrder msg).2.process (g.engine.book.newOrder msg).1 time).Exact ↔
      ¬ g.engine.book.Shadows (g.engine.book.newOrder msg).1 := by
  obtain ⟨a, -, -, -, -, -, -, rfl, hfresh⟩ := h.newOrder msg time time
  have hside : (g.engine.book.newOrder msg).2.side = g.engine.book.side := Book.side_acquire ..
  have hd : (g.engine.book.newOrder msg).2.Distinct := by
    refine ⟨?_, ?_⟩
    · rw [hside]
      exact h.distinct.nodup
    · rw [hside]
      exact h.distinct.unique
  have he : (g.engine.book.newOrder msg).2.Exact := by
    rw [Book.newOrder]
    exact he.acquire _ _ _ _ _
  have hiff := Book.exact_process_iff he hd (o := (g.engine.book.newOrder msg).1)
    (by rwa [hside]) time
  rw [hiff]
  simp only [Book.Shadows, Book.reached, Book.beyond, hside]

/-- One message on a gateway whose orders can all be cancelled. -/
theorem Sound.cancellable_step (h : g.Sound) (hc : g.Cancellable) (m : FixMessage × Clock) :
    ∃ g', g.step m = some g' ∧ g'.Sound ∧ (g'.Cancellable ↔ ¬ g.Reuses m) := by
  obtain ⟨g', hg, h', hb, -⟩ := h.onParsedMessage m.1 m.2
  refine ⟨g', hg, h', ?_⟩
  have he := h.cancellable_iff.mp hc
  rw [h'.cancellable_iff, hb]
  unfold Reuses
  cases g.bookAfter_cases m.1 m.2 with
  | inl h1 =>
    obtain ⟨hD, hv, hbook⟩ := h1
    have hG : m.1.msgType ≠ byte 'G' := by
      rw [hD]
      decide
    rw [hbook, h.exact_newOrder_iff he m.1 m.2.time]
    simp only [hv, hG, true_and, false_and, or_false]
    simp only [hD, true_and]
  | inr h1 =>
    cases h1 with
    | inl h2 =>
      obtain ⟨hF, hbook⟩ := h2
      rw [hbook]
      refine iff_of_true (he.cancel h.distinct _) ?_
      rw [hF]
      simp [byte]
    | inr h2 =>
      cases h2 with
      | inl h3 =>
        obtain ⟨hG, hv, hbook⟩ := h3
        have hD : m.1.msgType ≠ byte 'D' := by
          rw [hG]
          decide
        rw [hbook, Book.exact_modify_iff he h.distinct]
        simp only [hv, hD, true_and, false_and, false_or]
        simp only [hG, true_and]
      | inr h3 =>
        obtain ⟨-, hnone, hbook⟩ := h3
        rw [hbook]
        refine iff_of_true he ?_
        rintro ⟨hv, hD | hG⟩
        · exact hnone ⟨hv, Or.inl hD.1⟩
        · exact hnone ⟨hv, Or.inr hG.1⟩

/-- Over every history of messages: after each of them every resting order can be cancelled
by its id, exactly when no message of the history reuses the id of a resting order. -/
theorem run_cancellable_iff (poolSize : Nat) (udpPub : Bool) (cfg : RiskConfig)
    (msgs : List (FixMessage × Clock)) :
    (∀ n g, run step (new poolSize udpPub cfg) (msgs.take n) = some g → g.Cancellable) ↔
      Along step (fun g m => ¬ g.Reuses m) (new poolSize udpPub cfg) msgs := by
  have hnew : (new poolSize udpPub cfg).Cancellable := by
    rw [(new_sound poolSize udpPub cfg).cancellable_iff]
    show (Engine.new poolSize udpPub).book.Exact
    rw [(Engine.new_wellFormed poolSize udpPub).2]
    simp [Book.Exact, Book.new]
  have hstep : ∀ (g : OrderEntryGateway) (m : FixMessage × Clock), g.Sound → True →
      g.Cancellable → ∃ g', g.step m = some g' ∧ g'.Sound ∧ (g'.Cancellable ↔ ¬ g.Reuses m) :=
    fun g m h _ hc => h.cancellable_step hc m
  exact forall_prefix_iff hstep (new_sound poolSize udpPub cfg) hnew
    (along_of_forall fun _ _ => trivial)

/-- Two limit buys under one id. -/
def reusedMsgs : List (FixMessage × Clock) :=
  [100, 99].map fun price =>
    ({ msgType := byte 'D', side := byte '1', ordType := byte '2', qty := 10, price,
       clOrdID := [byte '7'], origClOrdID := [] }, ⟨5, 6, 7⟩)

/-- Both rest, the index holds the second, and the first can no longer be cancelled. -/
theorem reusedMsgs_not_cancellable :
    ∃ g, run step (new 2 false {}) reusedMsgs = some g ∧ g.engine.orders .buy = [1, 0] ∧
      g.engine.restingIds = [7, 7] ∧ g.engine.orderMap 7 = some 0 ∧ ¬ g.Cancellable := by
  have hrun : (run step (new 2 false {}) reusedMsgs).map (fun g =>
      (g.engine.orders .buy, g.engine.restingIds, g.engine.orderMap 7, (g.engine.heap 1).id)) =
        some ([1, 0], [7, 7], some 0, 7) := by
    decide +kernel
  obtain ⟨g, hg, heq⟩ := Option.map_eq_some_iff.mp hrun
  obtain ⟨horders, heq⟩ := Prod.mk.inj heq
  obtain ⟨hids, heq⟩ := Prod.mk.inj heq
  obtain ⟨hindex, hid⟩ := Prod.mk.inj heq
  refine ⟨g, hg, horders, hids, hindex, fun hc => ?_⟩
  have hfirst := (hc .buy 1 (by rw [horders]; simp)).1
  rw [hid, hindex] at hfirst
  exact absurd hfirst (by decide)

end OrderEntryGateway
end LobCity
