import LobCity.Ledger

/-! Conservation of shares, one call at a time and then over whole histories, and the end
of a name: once no resting order has it, nothing that uses it has an effect. -/
namespace LobCity
open Library

namespace Book

theorem total_modify {b : Book} (hd : b.Distinct) {s : Side} {r : Resting} (hr : r ∈ b.side s)
    (hk : b.index r.id = some r.ref) (newId : OrderId) (newPrice : Price) (newQty : Quantity)
    {f : Resting → Nat} (hf : ∀ x p, f { x with price := p } = f x) :
    (b.modify r.id newId newPrice newQty).total f + f r =
      b.total f + f { r with id := newId, quantity := newQty } := by
  rw [modify_entry hd hr hk]
  split_ifs
  · exact total_inPlace hd hr newId newQty
  · have hremoved := total_removed (f := f) hd hr
    have hrest := total_rest (b := (b.eraseId r.id).drop s r.ref) (f := f)
      ⟨r.ref, newId, newPrice, newQty, s, false⟩
    have hprice : f (Incoming.resting ⟨r.ref, newId, newPrice, newQty, s, false⟩) =
        f { r with id := newId, quantity := newQty } :=
      hf { r with id := newId, quantity := newQty } newPrice
    rw [requeue]
    omega

/-- What rests after a call, the taker's part and the makers' part. -/
theorem total_process (b : Book) (o : Incoming) (time : Timestamp) (picked : OrderId → Prop)
    [DecidablePred picked] :
    (b.process o time).total (shares picked) + taken picked (b.execution o).fills =
      b.total (shares picked) +
        if picked o.id ∧ o.isMarket = false then (b.execution o).left.toNat else 0 := by
  have hm := total_matched (b := b) (f := shares picked) o time
  have hx := execution_makers picked o.reaches (b.side o.side.opposite) o.quantity
  change LobCity.total _ _ = LobCity.total _ (b.execution o).rest +
    taken picked (b.execution o).fills at hx
  cases process_cases b o time with
  | inl h =>
    obtain ⟨hmk, -, h⟩ := h
    have hr := total_rest (b := b.matched o time) (f := shares picked)
      { o with quantity := (b.execution o).left }
    have hs : shares picked (Incoming.resting { o with quantity := (b.execution o).left }) =
        if picked o.id ∧ o.isMarket = false then (b.execution o).left.toNat else 0 := by
      by_cases hp : picked o.id <;> simp [shares, Incoming.resting, hmk, hp]
    rw [h]
    omega
  | inr h =>
    obtain ⟨hend, h⟩ := h
    have hr : ((b.matched o time).release o.ref).total (shares picked) =
        (b.matched o time).total (shares picked) := rfl
    have hz : (if picked o.id ∧ o.isMarket = false then (b.execution o).left.toNat else 0) = 0 := by
      cases hend with
      | inl hmk =>
        simp [hmk]
      | inr hz =>
        simp [hz]
    rw [h]
    omega

end Book

namespace Ledger
variable {L : Ledger}

/-- The invariant of the accounts: names of orders and of trades were all used, and the
lineage of a name is itself a used name. -/
structure Kept (L : Ledger) : Prop where
  regular : L.session.Regular
  named : ∀ k, L.session.engine.book.Rests k → L.lineage k ≠ none
  logged : ∀ t ∈ L.session.engine.tradeLog,
    L.lineage t.buyOrderId ≠ none ∧ L.lineage t.sellOrderId ≠ none
  root : ∀ k l, L.lineage k = some l → L.lineage l ≠ none
  balanced : ∀ l, L.Balanced l

theorem new_kept (poolSize : Nat) (udpPub : Bool) : (new poolSize udpPub).Kept := by
  obtain ⟨-, hb⟩ := Engine.new_wellFormed poolSize udpPub
  refine ⟨Session.new_regular poolSize udpPub, fun k hk => ?_, fun t ht => ?_,
    fun k l h => by simp [new] at h, fun l => ?_⟩
  · change (Engine.new poolSize udpPub).book.Rests k at hk
    simp [hb, Book.Rests, Book.new] at hk
  · simp [new, Session.new, Engine.new] at ht
  · have hb' : (new poolSize udpPub).session.engine.book = Book.new poolSize := hb
    unfold Balanced
    rw [resting_eq, hb']
    simp [new, traded, tradedBy, Session.new, Engine.new, Book.total, total, Book.new]

theorem Kept.admissible (h : L.Kept) {op : Op} (hok : L.Fresh op) : L.session.Admissible op := by
  have hused : ∀ k, L.lineage k = none → k ∉ L.session.engine.restingIds := fun k hk hr => by
    exact h.named k (Engine.mem_restingIds.mp hr) hk
  cases op with
  | acquire id p q s m => trivial
  | process order time now => exact ⟨hok.1, hok.2.1, hused _ hok.2.2⟩
  | cancel id now => trivial
  | modify origId newId newPrice newQty now => exact ⟨hok.1, hok.2.imp id (hused newId)⟩

theorem total_shares_congr {b : Book} {lineage lineage' : OrderId → Option OrderId}
    (h : ∀ s, ∀ r ∈ b.side s, lineage' r.id = lineage r.id) (l : OrderId) :
    b.total (shares fun k => lineage' k = some l) = b.total (shares fun k => lineage k = some l) := by
  have hs : ∀ s, total (shares fun k => lineage' k = some l) (b.side s) =
      total (shares fun k => lineage k = some l) (b.side s) := fun s =>
    total_congr fun r hr => by simp only [shares, h s r hr]
  rw [Book.total, Book.total, hs, hs]

section Extends
variable {lineage lineage' : OrderId → Option OrderId}

def Extends (lineage lineage' : OrderId → Option OrderId) : Prop :=
  ∀ k, lineage k ≠ none → lineage' k = lineage k

theorem Extends.used (h : Extends lineage lineage') {k : OrderId} (hk : lineage k ≠ none) :
    lineage' k ≠ none := by
  rwa [h k hk]

theorem extends_update {x : OrderId} {v : Option OrderId} (h : lineage x = none ∨ lineage x = v) :
    Extends lineage (Function.update lineage x v) := by
  intro k hk
  by_cases hkx : k = x
  · rw [hkx, Function.update_self]
    exact (h.resolve_left (hkx ▸ hk)).symm
  · exact Function.update_of_ne hkx _ _

theorem Kept.traded_extends (h : L.Kept) (hext : Extends L.lineage lineage') (l : OrderId) :
    tradedBy lineage' l L.session.engine.tradeLog = L.traded l :=
  tradedBy_congr fun t ht => ⟨hext _ (h.logged t ht).1, hext _ (h.logged t ht).2⟩

theorem Kept.total_extends (h : L.Kept) (hext : Extends L.lineage lineage') (l : OrderId) :
    L.session.engine.book.total (shares fun k => lineage' k = some l) = L.resting l := by
  rw [resting_eq]
  exact total_shares_congr (fun s r hr => hext _ (h.named _ ⟨s, r, hr, rfl⟩)) l

end Extends

/-- The cell of a market order holds what it could not get. -/
theorem Kept.market_left (h : L.Kept) {order : Addr} (hmem : order ∈ L.session.hands)
    {time now : Timestamp} {S : Session} (hs : L.session.step (.process order time now) = some S)
    (hm : (L.session.engine.incoming order).isMarket = true) :
    (S.engine.heap order).quantity =
      (L.session.engine.book.execution (L.session.engine.incoming order)).left := by
  obtain ⟨e', he, rfl⟩ := Option.map_eq_some_iff.mp hs
  have hrep := h.regular.wellFormed.represents.perm_hands
    ((List.perm_cons_erase hmem).map L.session.engine.incoming)
  have hl := Represents.processOrder_left (o := L.session.engine.incoming order) hrep hm he
  rwa [Book.sweep_eq_settle rfl] at hl

theorem Kept.process (h : L.Kept) {order : Addr} {time now : Timestamp}
    (hok : L.Fresh (.process order time now)) {S : Session} (hS : S.Regular)
    (hs : L.session.step (.process order time now) = some S)
    (hb : S.engine.book = L.session.engine.book.process (L.session.engine.incoming order) time) :
    (L.record S (.process order time now)).Kept := by
  obtain ⟨hmem, hpos, hnone⟩ := hok
  set b := L.session.engine.book with hbook
  set o := L.session.engine.incoming order with ho
  have hnone : L.lineage o.id = none := hnone
  set lineage' := Function.update L.lineage o.id (some o.id) with hlin
  have hself : lineage' o.id = some o.id := by simp [hlin]
  have hext : Extends L.lineage lineage' := extends_update (Or.inl hnone)
  have hmaker : ∀ f ∈ (b.execution o).fills, L.lineage f.maker.id ≠ none := fun f hf =>
    h.named _ ⟨_, f.maker, (fillGreedily_reaches hf).1, rfl⟩
  have hlog : S.engine.tradeLog = L.session.engine.tradeLog ++
      (b.execution o).fills.map (Fill.trade o.side.opposite o.id time) := by
    have ht : S.engine.tradeLog = S.engine.book.trades := rfl
    rw [ht, hb, Book.trades_process_eq]
    rfl
  refine ⟨hS, fun k hk => ?_, fun t ht => ?_, fun k l hk => ?_, fun l => ?_⟩
  · -- the remainder is the only new resting order
    change S.engine.book.Rests k at hk
    rw [hb] at hk
    cases Book.rests_process hk with
    | inl h =>
      obtain rfl := h
      change lineage' o.id ≠ none
      simp [hself]
    | inr hk =>
      exact hext.used (h.named k hk)
  · change t ∈ S.engine.tradeLog at ht
    rw [hlog] at ht
    cases List.mem_append.mp ht with
    | inl ht =>
      exact ⟨hext.used (h.logged t ht).1, hext.used (h.logged t ht).2⟩
    | inr ht =>
      obtain ⟨f, hf, rfl⟩ := List.mem_map.mp ht
      have hm := hext.used (hmaker f hf)
      change lineage' _ ≠ none ∧ lineage' _ ≠ none
      cases hside : o.side <;>
        simp [Fill.trade, Side.tradeIds, Side.opposite, hm, hself]
  · change lineage' k = some l at hk
    change lineage' l ≠ none
    by_cases hl : l = o.id
    · simp [hl, hself]
    · by_cases hko : k = o.id
      · rw [hko, hself] at hk
        exact absurd (Option.some.inj hk).symm hl
      · have hk : L.lineage k = some l := by simpa [hlin, hko] using hk
        exact hext.used (h.root k l hk)
  · have hbal := h.balanced l
    have hnew : tradedBy lineage' l ((b.execution o).fills.map
        (Fill.trade o.side.opposite o.id time)) = _ :=
      tradedBy_fills _ _ _ hself fun f hf he =>
        h.root _ _ ((hext _ (hmaker f hf)).symm.trans he) hnone
    have hrest := Book.total_process b o time fun k => lineage' k = some l
    have htaker : o.quantity.toNat = (b.execution o).left.toNat +
        ((b.execution o).fills.map fun f => f.quantity.toNat).sum :=
      execution_taker o.reaches _ o.quantity
    have hdisc : (if o.isMarket then (S.engine.heap order).quantity.toNat else 0) +
        (if o.isMarket = false then (b.execution o).left.toNat else 0) = (b.execution o).left.toNat := by
      cases hm : o.isMarket
      · simp
      · simp [h.market_left hmem hs hm, hbook, ho]
    unfold Balanced at hbal ⊢
    rw [resting_eq _ l]
    change credit L.submitted (some o.id) o.quantity.toNat l + L.increased l =
      L.decreased l + tradedBy lineage' l S.engine.tradeLog +
        S.engine.book.total (shares fun k => lineage' k = some l) + L.cancelled l +
        credit L.discarded (some o.id)
          (if o.isMarket then (S.engine.heap order).quantity.toNat else 0) l
    rw [hb, hlog, tradedBy_append, h.traded_extends hext, hnew]
    rw [h.total_extends hext] at hrest
    simp only [credit, hself, Option.some.injEq] at hrest ⊢
    by_cases hl : l = o.id
    · simp only [hl, true_and, if_true] at hrest hbal ⊢
      omega
    · simp only [hl, Ne.symm hl, false_and, if_false] at hrest ⊢
      omega

/-- Calls that leave every lineage, the index of names and the trade log as they are. -/
theorem Kept.untouched (h : L.Kept) {S : Session} (hS : S.Regular)
    (hside : S.engine.book.side = L.session.engine.book.side)
    (hlog : S.engine.tradeLog = L.session.engine.tradeLog) : Kept { L with session := S } := by
  have htotal : ∀ f, S.engine.book.total f = L.session.engine.book.total f := fun f => by
    rw [Book.total, Book.total, hside]
  refine ⟨hS, fun k hk => h.named k ?_, fun t ht => h.logged t (hlog ▸ ht), h.root, fun l => ?_⟩
  · simpa only [Book.Rests, hside] using hk
  · have hbal := h.balanced l
    unfold Balanced at hbal ⊢
    rw [resting_eq] at hbal ⊢
    simpa only [traded, hlog, htotal] using hbal

theorem Kept.cancel (h : L.Kept) {id : OrderId} {now : Timestamp} {S : Session} (hS : S.Regular)
    (hb : S.engine.book = L.session.engine.book.cancel id) :
    (L.record S (.cancel id now)).Kept := by
  have hd := h.regular.toSound.distinct
  have hlog : S.engine.tradeLog = L.session.engine.tradeLog := by
    have ht : S.engine.tradeLog = S.engine.book.trades := rfl
    rw [ht, hb, Book.trades_cancel]
    rfl
  cases Book.cancel_cases hd h.regular.indexed id with
  | inl hcase =>
    obtain ⟨hn, hc⟩ := hcase
    have hrec : L.record S (.cancel id now) = { L with session := S } := by
      rw [record, show L.session.engine.orderMap id = none from hn]
    rw [hrec]
    exact h.untouched hS (by rw [hb, hc]) hlog
  | inr hcase =>
    obtain ⟨s, r, hr, rfl, hk, hc⟩ := hcase
    have hrec : L.record S (.cancel r.id now) = { L with
        session := S
        cancelled := credit L.cancelled (L.lineage r.id) r.quantity.toNat } := by
      rw [record, show L.session.engine.orderMap r.id = some r.ref from hk]
      simp only [h.regular.wellFormed.represents.heap_quantity hr]
    rw [hrec]
    refine ⟨hS, fun k hk => h.named k ?_, fun t ht => h.logged t (hlog ▸ ht), h.root, fun l => ?_⟩
    · change S.engine.book.Rests k at hk
      rw [hb] at hk
      exact Book.rests_cancel hd h.regular.indexed hk
    · have hbal := h.balanced l
      have ht := Book.total_removed (f := shares fun k => L.lineage k = some l) hd hr
      have hS' : S.engine.book.total (shares fun k => L.lineage k = some l) =
          ((L.session.engine.book.eraseId r.id).drop s r.ref).total
            (shares fun k => L.lineage k = some l) := by rw [hb, hc]; rfl
      unfold Balanced at hbal ⊢
      rw [resting_eq] at hbal ⊢
      simp only [traded, hlog, hS', credit, shares] at hbal ht ⊢
      omega

theorem Kept.modify (h : L.Kept) {origId newId : OrderId} {newPrice : Price} {newQty : Quantity}
    {now : Timestamp} (hok : L.Fresh (.modify origId newId newPrice newQty now)) {S : Session}
    (hS : S.Regular)
    (hb : S.engine.book = L.session.engine.book.modify origId newId newPrice newQty) :
    (L.record S (.modify origId newId newPrice newQty now)).Kept := by
  have hd := h.regular.toSound.distinct
  have hlog : S.engine.tradeLog = L.session.engine.tradeLog := by
    have ht : S.engine.tradeLog = S.engine.book.trades := rfl
    rw [ht, hb, Book.trades_modify]
    rfl
  rcases Book.modify_cases hd h.regular.indexed origId newId newPrice newQty with
    ⟨hn, hm⟩ | ⟨s, r, hr, rfl, hk, -⟩
  · have hrec : L.record S (.modify origId newId newPrice newQty now) = { L with session := S } := by
      rw [record, show L.session.engine.orderMap origId = none from hn]
    rw [hrec]
    exact h.untouched hS (by rw [hb, hm]) hlog
  set b := L.session.engine.book with hbook
  set lineage' := Function.update L.lineage newId (L.lineage r.id) with hlin
  have hrec : L.record S (.modify r.id newId newPrice newQty now) = { L with
      session := S
      lineage := lineage'
      increased := credit L.increased (L.lineage r.id) (newQty.toNat - r.quantity.toNat)
      decreased := credit L.decreased (L.lineage r.id) (r.quantity.toNat - newQty.toNat) } := by
    rw [record, show L.session.engine.orderMap r.id = some r.ref from hk]
    simp only [h.regular.wellFormed.represents.heap_quantity hr, hlin]
  rw [hrec]
  have hused0 : L.lineage r.id ≠ none := h.named _ ⟨s, r, hr, rfl⟩
  have hself : lineage' newId = L.lineage r.id := by simp [hlin]
  have hext : Extends L.lineage lineage' :=
    extends_update (hok.2.symm.imp id fun he => by rw [he])
  refine ⟨hS, fun k hk => ?_, fun t ht => ?_, fun k l hk => ?_, fun l => ?_⟩
  · change S.engine.book.Rests k at hk
    change lineage' k ≠ none
    rw [hb] at hk
    cases Book.rests_modify hd h.regular.indexed hk with
    | inl h =>
      obtain ⟨rfl, -⟩ := h
      rwa [hself]
    | inr hk =>
      exact hext.used (h.named k hk)
  · have ht := h.logged t (hlog ▸ ht)
    exact ⟨hext.used ht.1, hext.used ht.2⟩
  · change lineage' k = some l at hk
    refine hext.used ?_
    by_cases hnew : k = newId
    · rw [hnew, hself] at hk
      exact h.root _ l hk
    · exact h.root k l (by simpa [hlin, hnew] using hk)
  · have hbal := h.balanced l
    have ht := Book.total_modify hd hr hk newId newPrice newQty
      (f := shares fun k => lineage' k = some l) fun _ _ => rfl
    rw [← hb] at ht
    unfold Balanced at hbal ⊢
    rw [resting_eq _ l]
    change L.submitted l + credit L.increased (L.lineage r.id) (newQty.toNat - r.quantity.toNat) l =
      credit L.decreased (L.lineage r.id) (r.quantity.toNat - newQty.toNat) l +
        tradedBy lineage' l S.engine.tradeLog +
        S.engine.book.total (shares fun k => lineage' k = some l) + L.cancelled l + L.discarded l
    rw [hlog, h.traded_extends hext]
    rw [h.total_extends hext] at ht
    simp only [shares, hself, hext _ hused0] at ht
    simp only [credit]
    by_cases hl : L.lineage r.id = some l
    · simp only [hl, if_true] at ht ⊢
      omega
    · simp only [hl, if_false] at ht ⊢
      omega

theorem Kept.step (h : L.Kept) {op : Op} (hok : L.Fresh op) :
    ∃ L', L.step op = some L' ∧ L'.Kept := by
  obtain ⟨S, hs, hS, hb, -⟩ := h.regular.step (h.admissible hok)
  refine ⟨L.record S op, by rw [Ledger.step, hs]; rfl, ?_⟩
  cases op with
  | acquire id p q s m =>
    refine h.untouched hS ?_ ?_
    · rw [hb]
      exact Book.side_acquire _ _ _ _ _ _
    · have ht : S.engine.tradeLog = S.engine.book.trades := rfl
      rw [ht, hb]
      exact Book.trades_acquire _ _ _ _ _ _
  | process order time now => exact h.process hok hS hs hb
  | cancel id now => exact h.cancel hS hb
  | modify origId newId newPrice newQty now => exact h.modify hok hS hb

section Dead
variable {k : OrderId} {op : Op} {S : Session}

theorem session_record : (L.record S op).session = S := by
  cases op with
  | acquire id p q s m => rfl
  | process order time now => rfl
  | cancel id now =>
    rw [record]
    split <;> rfl
  | modify origId newId newPrice newQty now =>
    rw [record]
    split <;> rfl

theorem lineage_record (hok : L.Fresh op) (hk : L.lineage k ≠ none) :
    (L.record S op).lineage k = L.lineage k := by
  cases op with
  | acquire id p q s m => rfl
  | process order time now => exact extends_update (Or.inl hok.2.2) k hk
  | cancel id now =>
    rw [record]
    split <;> rfl
  | modify origId newId newPrice newQty now =>
    rw [record]
    split
    · rfl
    · exact extends_update (hok.2.symm.imp id fun he => by rw [he]) k hk

theorem Kept.rests_record (h : L.Kept) (hok : L.Fresh op) (hb : S.engine.book = L.session.bookAfter op)
    (hk : S.engine.book.Rests k) : L.lineage k = none ∨ L.session.engine.book.Rests k := by
  have hd := h.regular.toSound.distinct
  rw [hb] at hk
  cases op with
  | acquire id p q s m =>
    simp only [Session.bookAfter, Book.Rests, Book.side_acquire] at hk
    exact Or.inr hk
  | process order time now =>
    cases Book.rests_process hk with
    | inl h =>
      obtain rfl := h
      exact Or.inl hok.2.2
    | inr hk =>
      exact Or.inr hk
  | cancel id now => exact Or.inr (Book.rests_cancel hd h.regular.indexed hk)
  | modify origId newId newPrice newQty now =>
    cases Book.rests_modify hd h.regular.indexed hk with
    | inl ho =>
      obtain ⟨rfl, ho⟩ := ho
      cases hok.2 with
      | inl h =>
        obtain rfl := h
        exact Or.inr ho
      | inr hnone =>
        exact Or.inl hnone
    | inr hk =>
      exact Or.inr hk

/-- A dead name stays dead, and the trades of the call do not name it. -/
theorem Kept.dead_step (h : L.Kept) (hok : L.Fresh op) {L' : Ledger} (hs : L.step op = some L')
    (hk : L.Dead k) :
    L'.Dead k ∧ ∃ new, L'.session.engine.tradeLog = L.session.engine.tradeLog ++ new ∧
      ∀ t ∈ new, t.buyOrderId ≠ k ∧ t.sellOrderId ≠ k := by
  obtain ⟨S, hS, hR, hb, -⟩ := h.regular.step (h.admissible hok)
  have hL : L.record S op = L' := by
    rw [Ledger.step, hS] at hs
    exact Option.some.inj hs
  subst hL
  obtain ⟨hused, hnot⟩ := hk
  rw [Engine.mem_restingIds] at hnot
  refine ⟨⟨by rwa [lineage_record hok hused], ?_⟩, ?_⟩
  · rw [session_record, Engine.mem_restingIds]
    exact fun hr => (h.rests_record hok hb hr).elim hused hnot
  · have hlog : (L.record S op).session.engine.tradeLog = S.engine.book.trades := by
      rw [session_record]
      rfl
    rw [hlog, hb]
    cases op with
    | acquire id p q s m => exact ⟨[], by simp [Session.bookAfter]; rfl, by simp⟩
    | process order time now =>
      set o := L.session.engine.incoming order
      refine ⟨_, Book.trades_process_eq _ _ _, fun t ht => ?_⟩
      obtain ⟨f, hf, rfl⟩ := List.mem_map.mp ht
      have hmaker : f.maker.id ≠ k := fun he =>
        hnot ⟨_, f.maker, (fillGreedily_reaches hf).1, he⟩
      have htaker : o.id ≠ k := fun he => hused (he ▸ hok.2.2)
      cases o.side
      · exact ⟨htaker, hmaker⟩
      · exact ⟨hmaker, htaker⟩
    | cancel id now => exact ⟨[], by simp [Session.bookAfter, Book.trades_cancel]; rfl, by simp⟩
    | modify origId newId newPrice newQty now =>
      exact ⟨[], by simp [Session.bookAfter, Book.trades_modify]; rfl, by simp⟩

theorem Kept.inert (h : L.Kept) (hk : L.Dead k) :
    (∀ now, L.session.engine.cancelOrder k now = L.session.engine) ∧
      ∀ newId newPrice newQty now,
        L.session.engine.modifyOrder k newId newPrice newQty now = L.session.engine := by
  have hn : L.session.engine.orderMap k = none := by
    cases hi : L.session.engine.orderMap k with
    | none => rfl
    | some a =>
      obtain ⟨s, r, hr, -, hid⟩ := h.regular.indexed k a hi
      exact absurd (Engine.mem_restingIds.mpr ⟨s, r, hr, hid⟩) hk.2
  exact ⟨Engine.cancelOrder_unknown hn, Engine.modifyOrder_unknown hn⟩

theorem Kept.dead_run (h : L.Kept) (hk : L.Dead k) {ops : List Op} (hok : Along Ledger.step Fresh L ops) :
    ∃ L', run Ledger.step L ops = some L' ∧ L'.Kept ∧ L'.Dead k ∧
      ∃ new, L'.session.engine.tradeLog = L.session.engine.tradeLog ++ new ∧
        ∀ t ∈ new, t.buyOrderId ≠ k ∧ t.sellOrderId ≠ k := by
  induction ops generalizing L with
  | nil => exact ⟨L, rfl, h, hk, [], by simp, by simp⟩
  | cons op ops ih =>
    obtain ⟨L1, h1, hkept⟩ := h.step hok.1
    obtain ⟨hdead, new1, hlog1, hnew1⟩ := h.dead_step hok.1 h1 hk
    obtain ⟨L2, h2, hkept2, hdead2, new2, hlog2, hnew2⟩ := ih hkept hdead (hok.2 L1 h1)
    refine ⟨L2, by simp [run, h1, h2], hkept2, hdead2, new1 ++ new2, ?_, fun t ht => ?_⟩
    · rw [hlog2, hlog1, List.append_assoc]
    · exact (List.mem_append.mp ht).elim (hnew1 t) (hnew2 t)

/-- A settled lineage has no resting order, so all its names are dead. -/
theorem Kept.dead_of_settled (h : L.Kept) {l : OrderId} (hl : L.Settled l) (hk : L.lineage k = some l) :
    L.Dead k := by
  refine ⟨by simp [hk], fun hrests => ?_⟩
  obtain ⟨s, r, hr, rfl⟩ := Engine.mem_restingIds.mp hrests
  have hbal := h.balanced l
  unfold Balanced at hbal
  unfold Settled at hl
  have hzero : L.session.engine.book.total (shares fun k => L.lineage k = some l) = 0 := by
    rw [← resting_eq]
    omega
  have hpos : 0 < r.quantity.toNat := UInt32.lt_iff_toNat_lt.mp (h.regular.positive s r hr)
  have hmem := total_drop (f := shares fun k => L.lineage k = some l)
    (h.regular.toSound.distinct.nodup s) hr
  have hshare : shares (fun k => L.lineage k = some l) r = r.quantity.toNat := by simp [shares, hk]
  unfold Book.total at hzero
  cases s <;> omega

/-- A modify that gives an order a new name leaves the old one dead. -/
theorem Kept.dead_of_renamed (h : L.Kept) {origId newId : OrderId} {newPrice : Price}
    {newQty : Quantity} {now : Timestamp} (hok : L.Fresh (.modify origId newId newPrice newQty now))
    {L' : Ledger} (hs : L.step (.modify origId newId newPrice newQty now) = some L')
    (hne : newId ≠ origId) (hused : L.lineage origId ≠ none) : L'.Dead origId := by
  obtain ⟨S, hS, -, hb, -⟩ := h.regular.step (h.admissible hok)
  have hL : L.record S (.modify origId newId newPrice newQty now) = L' := by
    rw [Ledger.step, hS] at hs
    exact Option.some.inj hs
  subst hL
  refine ⟨by rwa [lineage_record hok hused], ?_⟩
  rw [session_record, Engine.mem_restingIds, hb]
  exact Book.not_rests_renamed h.regular.exact h.regular.toSound.distinct hne newPrice newQty

end Dead

/-- Over every history with fresh ids and positive quantities the shares of each lineage
are accounted for, the names of a settled lineage and the old name of a renamed order are
dead, and a dead name stays so: no later trade names it, and no call on it does anything. -/
theorem run_conserves {poolSize : Nat} {udpPub : Bool} {ops : List Op}
    (hok : Along step Fresh (new poolSize udpPub) ops) :
    ∃ L, run step (new poolSize udpPub) ops = some L ∧ (∀ l, L.Balanced l) ∧
      (∀ l, L.Settled l → ∀ k, L.lineage k = some l → L.Dead k) ∧
      (∀ origId newId newPrice newQty now L', L.Fresh (.modify origId newId newPrice newQty now) →
        L.step (.modify origId newId newPrice newQty now) = some L' → newId ≠ origId →
        L.lineage origId ≠ none → L'.Dead origId) ∧
      ∀ k, L.Dead k → ∀ later, Along step Fresh L later →
        ∃ L' new, run step L later = some L' ∧ L'.Dead k ∧
          L'.session.engine.tradeLog = L.session.engine.tradeLog ++ new ∧
          (∀ t ∈ new, t.buyOrderId ≠ k ∧ t.sellOrderId ≠ k) ∧
          (∀ now, L'.session.engine.cancelOrder k now = L'.session.engine) ∧
          ∀ newId newPrice newQty now,
            L'.session.engine.modifyOrder k newId newPrice newQty now = L'.session.engine := by
  obtain ⟨L, hL, h⟩ := run_invariant (fun L op h hop => h.step hop) (new_kept poolSize udpPub) hok
  refine ⟨L, hL, h.balanced, fun l hl k hk => h.dead_of_settled hl hk,
    fun _ _ _ _ _ _ hfresh hs hne hused => h.dead_of_renamed hfresh hs hne hused,
    fun k hk later hlater => ?_⟩
  obtain ⟨L', hL', h', hdead, new, hlog, hnew⟩ := h.dead_run hk hlater
  exact ⟨L', new, hL', hdead, hlog, hnew, h'.inert hdead⟩

theorem run_conserves_renamed :
    ∃ L, run step (new 3 false) [.acquire 1 100 5 .sell false, .process 2 10 11,
      .acquire 2 100 2 .buy false, .process 1 12 13, .modify 1 7 101 9 14,
      .acquire 3 0 20 .buy true, .process 1 15 16, .acquire 4 99 6 .sell false, .process 1 17 18,
      .cancel 4 19] = some L ∧ (∀ l, L.Balanced l) ∧
      ∀ l, L.Settled l → ∀ k, L.lineage k = some l → L.Dead k := by
  obtain ⟨L, hL, hb, hs, -⟩ := run_conserves (show Along step Fresh (new 3 false)
    [.acquire 1 100 5 .sell false, .process 2 10 11, .acquire 2 100 2 .buy false, .process 1 12 13,
      .modify 1 7 101 9 14, .acquire 3 0 20 .buy true, .process 1 15 16,
      .acquire 4 99 6 .sell false, .process 1 17 18, .cancel 4 19] by decide)
  exact ⟨L, hL, hb, hs⟩

end Ledger
end LobCity
