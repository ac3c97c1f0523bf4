import LobCity.Levels
import LobCity.Session
import LobCity.Library.Int64Range

/-! Buying and selling mirrored: prices negated, sides exchanged. Every operation of the
sequence book commutes with the mirror, so mirrored histories end in mirrored engines.
`INT64_MIN` is left out: it has no negative. -/
namespace LobCity
open Library

def Order.mirror (o : Order) : Order := { o with price := -o.price, side := o.side.opposite }

def PriceLevel.mirror (lvl : PriceLevel) : PriceLevel := { lvl with price := -lvl.price }

def Trade.mirror (t : Trade) : Trade :=
  { t with buyOrderId := t.sellOrderId, sellOrderId := t.buyOrderId, price := -t.price }

def Resting.mirror (r : Resting) : Resting := { r with price := -r.price }

def Incoming.mirror (o : Incoming) : Incoming :=
  { o with price := -o.price, side := o.side.opposite }

def Fill.mirror (f : Fill) : Fill := { f with maker := f.maker.mirror }

def Execution.mirror (x : Execution) : Execution :=
  ⟨x.fills.map Fill.mirror, x.rest.map Resting.mirror, x.left⟩

def Book.mirror (b : Book) : Book :=
  { b with
    side := fun s => (b.side s.opposite).map Resting.mirror
    trades := b.trades.map Trade.mirror }

theorem Side.better_neg {s : Side} {p q : Price} (hp : p ≠ Int64.minValue) (hq : q ≠ Int64.minValue) :
    s.opposite.better (-p) (-q) ↔ s.better p q := by
  cases s with
  | buy => exact Fits64.neg_lt_neg_iff hp hq
  | sell => exact Fits64.neg_lt_neg_iff hq hp

theorem refs_mirror (L : List Resting) : refs (L.map Resting.mirror) = refs L := by
  rw [refs, List.map_map]
  rfl

theorem volume_mirror (L : List Resting) : volume (L.map Resting.mirror) = volume L := by
  rw [volume, List.map_map]
  rfl

theorem Incoming.reaches_mirror {o : Incoming} {p : Price} (ho : o.price ≠ Int64.minValue)
    (hp : p ≠ Int64.minValue) : o.mirror.reaches (-p) = o.reaches p := by
  have hb : o.side.opposite.opposite.better (-o.price) (-p) ↔ o.side.opposite.better o.price p :=
    Side.better_neg ho hp
  simp only [reaches, mirror, hb]

theorem fillGreedily_mirror {reaches reaches' : Price → Bool} {L : List Resting}
    (h : ∀ r ∈ L, reaches' (-r.price) = reaches r.price) (q : Quantity) :
    fillGreedily reaches' (L.map Resting.mirror) q = (fillGreedily reaches L q).mirror := by
  induction L generalizing q with
  | nil => rfl
  | cons r L ih =>
    have hr : reaches' r.mirror.price = reaches r.price := h r (by simp)
    have ih := ih fun x hx => h x (by simp [hx])
    rw [List.map_cons]
    by_cases hstop : q = 0 ∨ reaches r.price = false
    · rw [fillGreedily_stop hstop, fillGreedily_stop (by rwa [hr])]
      rfl
    have hstop' : ¬ (q = 0 ∨ reaches' r.mirror.price = false) := by rwa [hr]
    by_cases hfull : min q r.quantity = r.quantity
    · have hq : r.mirror.quantity = r.quantity := rfl
      rw [fillGreedily_full hstop hfull, fillGreedily_full hstop' hfull, hq, ih]
      rfl
    · rw [fillGreedily_outlasts hstop hfull, fillGreedily_outlasts hstop' hfull]
      rfl

theorem Execution.gone_mirror (x : Execution) : x.mirror.gone = x.gone.map Resting.mirror := by
  unfold gone mirror
  rw [List.filter_map, List.map_map, List.map_map]
  rfl

theorem Fill.trade_mirror (s : Side) (taker : OrderId) (time : Timestamp) (f : Fill) :
    (f.trade s taker time).mirror = f.mirror.trade s.opposite taker time := by
  cases s <;> rfl

namespace Book
variable {b : Book} {s : Side} {r : Resting} {o : Incoming}

def Negatable (b : Book) : Prop := ∀ s, ∀ r ∈ b.side s, r.price ≠ Int64.minValue

theorem eq_of_fields {b b' : Book} (hs : ∀ s, b'.side s = b.side s) (hi : b'.index = b.index)
    (ht : b'.trades = b.trades) (hf : b'.free = b.free) (ha : b'.allocated = b.allocated) :
    b' = b := by
  cases b'
  cases b
  cases hi
  cases ht
  cases hf
  cases ha
  exact congrArg (Book.mk · _ _ _ _) (funext hs)

theorem mirror_setSide (b : Book) (s : Side) (L : List Resting) :
    (b.setSide s L).mirror = b.mirror.setSide s.opposite (L.map Resting.mirror) := by
  refine eq_of_fields (fun t => ?_) rfl rfl rfl rfl
  show ((b.setSide s L).side t.opposite).map Resting.mirror = _
  by_cases ht : t = s.opposite
  · subst ht
    rw [Side.opposite_opposite, setSide_self, setSide_self]
  · have hne : t.opposite ≠ s := fun h => ht (by rw [← h, Side.opposite_opposite])
    rw [setSide_of_ne _ _ hne, setSide_of_ne _ _ ht]
    rfl

theorem mirror_side (b : Book) (s : Side) :
    b.mirror.side s.opposite = (b.side s).map Resting.mirror := by
  show (b.side s.opposite.opposite).map Resting.mirror = _
  rw [Side.opposite_opposite]

theorem enqueue_mirror (hr : r.price ≠ Int64.minValue) {L : List Resting}
    (hL : ∀ x ∈ L, x.price ≠ Int64.minValue) :
    enqueue s.opposite r.mirror (L.map Resting.mirror) = (enqueue s r L).map Resting.mirror := by
  induction L with
  | nil => rfl
  | cons x L ih =>
    have hx : s.opposite.better r.mirror.price x.mirror.price ↔ s.better r.price x.price :=
      Side.better_neg hr (hL x (by simp))
    rw [List.map_cons, enqueue_cons, enqueue_cons, ih fun y hy => hL y (by simp [hy])]
    by_cases hb : s.better r.price x.price
    · rw [if_pos hb, if_pos (hx.mpr hb), List.map_cons, List.map_cons]
    · rw [if_neg hb, if_neg (mt hx.mp hb), List.map_cons]

theorem mirror_rest (ho : o.price ≠ Int64.minValue) (hb : b.Negatable) :
    (b.rest o).mirror = b.mirror.rest o.mirror := by
  have hq : enqueue o.side.opposite o.resting.mirror ((b.side o.side).map Resting.mirror) =
      (enqueue o.side o.resting (b.side o.side)).map Resting.mirror :=
    enqueue_mirror (r := o.resting) ho (hb o.side)
  have hset := mirror_setSide b o.side (enqueue o.side o.resting (b.side o.side))
  rw [← hq, ← mirror_side] at hset
  refine eq_of_fields (fun t => ?_) rfl rfl rfl rfl
  exact congrFun (congrArg Book.side hset) t

theorem mirror_drop (b : Book) (s : Side) (a : Addr) :
    (b.drop s a).mirror = b.mirror.drop s.opposite a := by
  rw [drop, mirror_setSide, drop, mirror_side, List.filter_map]
  rfl

theorem mirror_rewrite (b : Book) (s : Side) (a : Addr) (id : OrderId) (q : Quantity) :
    (b.rewrite s a id q).mirror = b.mirror.rewrite s.opposite a id q := by
  rw [rewrite, mirror_setSide, rewrite, mirror_side, List.map_map, List.map_map]
  refine congrArg _ (List.map_congr_left fun x _ => ?_)
  simp only [Function.comp]
  by_cases hx : x.ref = a
  · rw [if_pos hx, if_pos (show x.mirror.ref = a from hx)]
    rfl
  · rw [if_neg hx, if_neg (show ¬ x.mirror.ref = a from hx)]

theorem mirror_settle (b : Book) (s : Side) (taker : OrderId) (time : Timestamp) (x : Execution) :
    (b.settle s taker time x).mirror = b.mirror.settle s.opposite taker time x.mirror := by
  have hset := mirror_setSide b s x.rest
  have hgone := x.gone_mirror
  have hids : x.mirror.gone.map Resting.id = x.gone.map Resting.id := by
    rw [hgone, List.map_map]
    rfl
  have htrades : (x.fills.map (Fill.trade s taker time)).map Trade.mirror =
      x.mirror.fills.map (Fill.trade s.opposite taker time) := by
    rw [Execution.mirror, List.map_map, List.map_map]
    exact List.map_congr_left fun f _ => f.trade_mirror s taker time
  refine eq_of_fields (fun t => congrFun (congrArg Book.side hset) t) ?_ ?_ ?_ rfl
  · simp only [settle, mirror, hids]
  · simp only [settle, mirror, List.map_append, htrades]
  · simp only [settle, mirror, hgone, refs_mirror]

theorem Negatable.matched (hb : b.Negatable) (o : Incoming) (time : Timestamp) :
    (b.matched o time).Negatable := by
  intro s r hr
  obtain ⟨r0, hr0, hsame, -⟩ := mem_of_matched hr
  rw [hsame.2.2]
  exact hb s r0 hr0

theorem mirror_acquire (b : Book) (id : OrderId) (p : Price) (q : Quantity) (s : Side) (m : Bool) :
    b.mirror.acquire id (-p) q s.opposite m =
      ((b.acquire id p q s m).1.mirror, (b.acquire id p q s m).2.mirror) := by
  have hfree : b.mirror.free = b.free := rfl
  unfold acquire
  rw [hfree]
  cases b.free <;> rfl

theorem mirror_process (ho : o.price ≠ Int64.minValue) (hb : b.Negatable) (time : Timestamp) :
    (b.process o time).mirror = b.mirror.process o.mirror time := by
  have hx : b.mirror.execution o.mirror = (b.execution o).mirror := by
    have hside := mirror_side b o.side.opposite
    show fillGreedily _ (b.mirror.side o.side.opposite.opposite) o.quantity = _
    rw [hside]
    exact fillGreedily_mirror (fun r hr => Incoming.reaches_mirror ho (hb _ r hr)) _
  have hsettle := mirror_settle b o.side.opposite o.id time (b.execution o)
  have hreference : b.mirror.process o.mirror time =
      if o.isMarket = false ∧ (b.execution o).left > 0 then
        (b.matched o time).mirror.rest { o.mirror with quantity := (b.execution o).left }
      else (b.matched o time).mirror.release o.ref := by
    rw [process_eq_reference, referenceProcess, hx, matched, hsettle]
    rfl
  rw [hreference, process_eq_reference, referenceProcess]
  split_ifs
  · exact mirror_rest (o := { o with quantity := (b.execution o).left }) ho (hb.matched o time)
  · rfl

theorem Distinct.mirror (hd : b.Distinct) : b.mirror.Distinct := by
  refine ⟨fun s => ?_, fun {s s' x x'} hx hx' he => ?_⟩
  · show (refs ((b.side s.opposite).map Resting.mirror)).Nodup
    rw [refs_mirror]
    exact hd.nodup _
  · obtain ⟨r, hr, rfl⟩ := List.mem_map.mp hx
    obtain ⟨r', hr', rfl⟩ := List.mem_map.mp hx'
    obtain ⟨hs, rfl⟩ := hd.unique hr hr' he
    refine ⟨?_, rfl⟩
    rw [← Side.opposite_opposite s, hs, Side.opposite_opposite]

theorem mem_mirror (hr : r ∈ b.side s) : r.mirror ∈ b.mirror.side s.opposite := by
  rw [mirror_side]
  exact List.mem_map_of_mem hr

theorem mirror_cancel (hd : b.Distinct) (hi : b.Indexed) (id : OrderId) :
    (b.cancel id).mirror = b.mirror.cancel id := by
  cases hk : b.index id with
  | none => rw [cancel_unknown hk, cancel_unknown (show b.mirror.index id = none from hk)]
  | some a =>
    obtain ⟨s, r, hr, rfl, -⟩ := hi id a hk
    rw [cancel_entry hd hr hk, cancel_entry hd.mirror (mem_mirror hr) hk]
    exact congrArg (release · r.ref) (mirror_drop (b.eraseId id) s r.ref)

theorem mirror_modify (hd : b.Distinct) (hi : b.Indexed) (hb : b.Negatable) (origId newId : OrderId)
    {newPrice : Price} (hp : newPrice ≠ Int64.minValue) (newQty : Quantity) :
    (b.modify origId newId newPrice newQty).mirror =
      b.mirror.modify origId newId (-newPrice) newQty := by
  cases hk : b.index origId with
  | none => rw [modify_unknown hk, modify_unknown (show b.mirror.index origId = none from hk)]
  | some a =>
    obtain ⟨s, r, hr, rfl, rfl⟩ := hi origId a hk
    have hentry := modify_entry hd.mirror (mem_mirror hr) hk newId (-newPrice) newQty
    have hcase : -newPrice = r.mirror.price ∧ newQty < r.mirror.quantity ↔
        newPrice = r.price ∧ newQty < r.quantity := and_congr Int64.neg_inj Iff.rfl
    rw [modify_entry hd hr hk]
    refine Eq.trans ?_ hentry.symm
    simp only [hcase]
    split_ifs
    · have hrw := mirror_rewrite b s r.ref newId newQty
      refine eq_of_fields (fun t => congrFun (congrArg Book.side hrw) t) rfl rfl rfl rfl
    · have hdrop := mirror_drop (b.eraseId r.id) s r.ref
      have hb' : ((b.eraseId r.id).drop s r.ref).Negatable := fun t x hx =>
        hb t x (Represents.mem_drop hx).1
      have hrest := mirror_rest (o := ⟨r.ref, newId, newPrice, newQty, s, false⟩) hp hb'
      rw [hdrop] at hrest
      exact hrest

theorem Negatable.process (hb : b.Negatable) (ho : o.price ≠ Int64.minValue) (time : Timestamp) :
    (b.process o time).Negatable := by
  intro t x hx
  cases mem_of_process hx with
  | inl hx =>
    rw [hx.2.2.2]
    exact ho
  | inr hx =>
    obtain ⟨r, hr, hs, -⟩ := hx
    rw [hs.2.2]
    exact hb t r hr

theorem Negatable.cancel (hb : b.Negatable) (hd : b.Distinct) (hi : b.Indexed) (id : OrderId) :
    (b.cancel id).Negatable := fun t x hx => hb t x (mem_of_cancel hd hi hx)

theorem Negatable.modify (hb : b.Negatable) (hd : b.Distinct) (hi : b.Indexed) (origId newId : OrderId)
    {newPrice : Price} (hp : newPrice ≠ Int64.minValue) (newQty : Quantity) :
    (b.modify origId newId newPrice newQty).Negatable := by
  intro t x hx
  cases mem_of_modify hd hi hx with
  | inl hx =>
    obtain ⟨r, -, -, rfl⟩ := hx
    exact hp
  | inr hx =>
    exact hb t x hx

end Book

namespace Book
variable {b : Book}

theorem queue_mirror (b : Book) (s : Side) (p : Price) :
    b.mirror.queue s.opposite (-p) = (b.queue s p).map Resting.mirror := by
  rw [queue, mirror_side, List.filter_map, queue]
  refine congrArg _ (List.filter_congr fun x _ => decide_eq_decide.mpr ?_)
  exact Int64.neg_inj

theorem levels_mirror (b : Book) (s : Side) :
    b.mirror.levels s.opposite = (b.levels s).map fun l => (-l.1, l.2.mirror) := by
  have hprices : b.mirror.prices s.opposite = (b.prices s).map fun p => -p := by
    have hinj : Function.Injective fun p : Price => -p := fun p q h => Int64.neg_inj.mp h
    rw [prices, mirror_side, prices, ← List.dedup_map_of_injective hinj, List.map_map, List.map_map]
    rfl
  rw [levels, hprices, levels, List.map_map, List.map_map]
  refine List.map_congr_left fun p _ => ?_
  simp only [Function.comp, level, queue_mirror, refs_mirror, volume_mirror, PriceLevel.mirror]

end Book

def Op.mirror : Op → Op
  | .acquire id p q s m => .acquire id (-p) q s.opposite m
  | .process order time now => .process order time now
  | .cancel id now => .cancel id now
  | .modify origId newId newPrice newQty now => .modify origId newId (-newPrice) newQty now

def Op.Negatable : Op → Prop
  | .acquire _ p _ _ _ => p ≠ Int64.minValue
  | .modify _ _ newPrice _ _ => newPrice ≠ Int64.minValue
  | .process .. | .cancel .. => True

instance : DecidablePred Op.Negatable
  | .acquire _ p _ _ _ => inferInstanceAs (Decidable (p ≠ Int64.minValue))
  | .modify _ _ p _ _ => inferInstanceAs (Decidable (p ≠ Int64.minValue))
  | .process .. | .cancel .. => inferInstanceAs (Decidable True)

namespace Session

structure Reflected (S S' : Session) : Prop where
  sound : S.Sound
  sound' : S'.Sound
  book : S'.engine.book = S.engine.book.mirror
  hands : S'.hands = S.hands
  incoming : ∀ a ∈ S.hands, S'.engine.incoming a = (S.engine.incoming a).mirror
  resting : S.engine.book.Negatable
  held : ∀ a ∈ S.hands, (S.engine.incoming a).price ≠ Int64.minValue

variable {S S' T T' : Session}

theorem new_reflected (poolSize : Nat) (udpPub : Bool) :
    Reflected (new poolSize udpPub) (new poolSize udpPub) := by
  have hb : (new poolSize udpPub).engine.book = Book.new poolSize :=
    (Engine.new_wellFormed poolSize udpPub).2
  have hs := new_sound poolSize udpPub
  refine ⟨hs, hs, by rw [hb]; rfl, rfl, by simp [new], ?_, by simp [new]⟩
  rw [hb]
  exact fun s r hr => by simp [Book.new] at hr

theorem Reflected.owned (h : Reflected S S') {op : Op} (hok : S.Owned op) : S'.Owned op.mirror := by
  cases op with
  | process order time now => exact (h.hands ▸ hok : order ∈ S'.hands)
  | acquire | cancel | modify => trivial

/-- A call that takes no new order in hands. -/
theorem Reflected.next (h : Reflected S S') {op : Op} (hok : S.Owned op) (hs : S.step op = some T)
    (hs' : S'.step op.mirror = some T') (hhands : T'.hands = T.hands)
    (hsub : ∀ c ∈ T.hands, c ∈ S.hands) (hbook : S'.bookAfter op.mirror = (S.bookAfter op).mirror)
    (hneg : (S.bookAfter op).Negatable) : Reflected T T' := by
  obtain ⟨T1, hT, h1, hb, hk⟩ := h.sound.step hok
  obtain rfl : T = T1 := Option.some.inj (hs.symm.trans hT)
  obtain ⟨T2, hT', h2, hb', hk'⟩ := h.sound'.step (h.owned hok)
  obtain rfl : T' = T2 := Option.some.inj (hs'.symm.trans hT')
  refine ⟨h1, h2, by rw [hb', hb, hbook], hhands, fun c hc => ?_, by rwa [hb], fun c hc => ?_⟩
  · have hkept := hk c (hsub c hc) hc
    have hkept' := hk' c (h.hands ▸ hsub c hc) (hhands ▸ hc)
    rw [hkept, hkept', h.incoming c (hsub c hc)]
  · rw [hk c (hsub c hc) hc]
    exact h.held c (hsub c hc)

theorem Reflected.acquire (h : Reflected S S') (id : OrderId) {p : Price} (hp : p ≠ Int64.minValue)
    (q : Quantity) (s : Side) (m : Bool) :
    ∃ T T', S.step (.acquire id p q s m) = some T ∧
      S'.step (.acquire id (-p) q s.opposite m) = some T' ∧ Reflected T T' := by
  obtain ⟨⟨a, e⟩, ha⟩ : ∃ x, S.engine.acquire id p q s m = x := ⟨_, rfl⟩
  obtain ⟨⟨a', e'⟩, ha'⟩ : ∃ x, S'.engine.acquire id (-p) q s.opposite m = x := ⟨_, rfl⟩
  obtain ⟨hw, hb, hin, hk⟩ := h.sound.wellFormed.acquire id p q s m ha
  obtain ⟨hw', hb', hin', hk'⟩ := h.sound'.wellFormed.acquire id (-p) q s.opposite m ha'
  have ho := h.sound.wellFormed.acquire_order id p q s m ha
  have ho' := h.sound'.wellFormed.acquire_order id (-p) q s.opposite m ha'
  have hmirror := Book.mirror_acquire S.engine.book id p q s m
  rw [h.book, hmirror, ho] at ho'
  rw [h.book, hmirror] at hb'
  obtain rfl : a' = a := (congrArg Incoming.ref ho').symm
  have hindexed : e.book.Indexed := by
    rw [hb]
    exact h.sound.indexed.acquire id p q s m
  have hbook : e'.book = e.book.mirror := by rw [hb', hb]
  refine ⟨⟨e, a' :: S.hands⟩, ⟨e', a' :: S'.hands⟩, by simp [Session.step, ha],
    by simp [Session.step, ha'], ⟨hw, hindexed⟩, ⟨hw', ?_⟩, hbook, by rw [h.hands], fun c hc => ?_, ?_,
    fun c hc => ?_⟩
  · show e'.book.Indexed
    rw [hb', ← hmirror, ← h.book]
    exact h.sound'.indexed.acquire id (-p) q s.opposite m
  · cases List.mem_cons.mp hc with
    | inl he =>
      rw [he, hin, hin']
      rfl
    | inr hc => rw [hk c hc, hk' c (h.hands ▸ hc), h.incoming c hc]
  · show e.book.Negatable
    rw [hb]
    intro t r hr
    rw [Book.side_acquire] at hr
    exact h.resting t r hr
  · cases List.mem_cons.mp hc with
    | inl he =>
      rw [he, hin]
      exact hp
    | inr hc =>
      rw [hk c hc]
      exact h.held c hc

theorem Reflected.step (h : Reflected S S') {op : Op} (hok : S.Owned op) (hp : op.Negatable) :
    ∃ T T', S.step op = some T ∧ S'.step op.mirror = some T' ∧ Reflected T T' := by
  have hd := h.sound.distinct
  have hi := h.sound.indexed
  obtain ⟨T, hs, -⟩ := h.sound.step hok
  obtain ⟨T', hs', -⟩ := h.sound'.step (h.owned hok)
  cases op with
  | acquire id p q s m => exact h.acquire id hp q s m
  | process order time now =>
    have hheld := h.held order hok
    obtain ⟨e, -, rfl⟩ := Option.map_eq_some_iff.mp hs
    obtain ⟨e', -, rfl⟩ := Option.map_eq_some_iff.mp hs'
    refine ⟨_, _, hs, hs', h.next hok hs hs' ?_ (fun c hc => List.mem_of_mem_erase hc) ?_ ?_⟩
    · show S'.hands.erase order = S.hands.erase order
      rw [h.hands]
    · show S'.engine.book.process (S'.engine.incoming order) time = _
      rw [h.book, h.incoming order hok]
      exact (Book.mirror_process hheld h.resting time).symm
    · exact h.resting.process hheld time
  | cancel id now =>
    cases hs
    cases hs'
    refine ⟨_, _, rfl, rfl, h.next hok rfl rfl h.hands (fun _ hc => hc) ?_ (h.resting.cancel hd hi id)⟩
    show S'.engine.book.cancel id = _
    rw [h.book]
    exact (Book.mirror_cancel hd hi id).symm
  | modify origId newId newPrice newQty now =>
    cases hs
    cases hs'
    refine ⟨_, _, rfl, rfl, h.next hok rfl rfl h.hands (fun _ hc => hc) ?_
      (h.resting.modify hd hi origId newId hp newQty)⟩
    show S'.engine.book.modify origId newId (-newPrice) newQty = _
    rw [h.book]
    exact (Book.mirror_modify hd hi h.resting origId newId hp newQty).symm

/-- Levels, queues, totals, resting orders, id index and trade log of the one session are
the mirror image of the other's, in the same order. -/
structure MirrorImage (S S' : Session) : Prop where
  levels : ∀ s, (S'.engine.levels s.opposite).entries =
    (S.engine.levels s).entries.map fun l => (-l.1, l.2.mirror)
  queue : ∀ s, ∀ l ∈ (S.engine.levels s).entries,
    S'.engine.queue l.2.mirror = S.engine.queue l.2
  cell : ∀ s, ∀ a ∈ S.engine.orders s, S'.engine.heap a = (S.engine.heap a).mirror
  index : S'.engine.orderMap = S.engine.orderMap
  trades : S'.engine.tradeLog = S.engine.tradeLog.map Trade.mirror

theorem Reflected.mirrorImage (h : Reflected S S') : MirrorImage S S' := by
  have hr := h.sound.wellFormed.represents
  have hr' := h.sound'.wellFormed.represents
  have hlevels : ∀ s, (S'.engine.levels s.opposite).entries =
      (S.engine.levels s).entries.map fun l => (-l.1, l.2.mirror) := fun s => by
    rw [hr'.levels_eq, hr.levels_eq, h.book, Book.levels_mirror]
  have hqueue : ∀ s p, refs (S'.engine.book.queue s.opposite (-p)) = refs (S.engine.book.queue s p) :=
    fun s p => by rw [h.book, Book.queue_mirror, refs_mirror]
  refine ⟨hlevels, fun s l hl => ?_, fun s a ha => ?_, ?_, ?_⟩
  · have hfind : S.engine.level? s l.1 = some l.2 := (SortedMap.mem_entries_iff _ _ _).mp hl
    have hmem : (-l.1, l.2.mirror) ∈ (S'.engine.levels s.opposite).entries := by
      rw [hlevels]
      exact List.mem_map.mpr ⟨l, hl, rfl⟩
    have hfind' : S'.engine.level? s.opposite (-l.1) = some l.2.mirror :=
      (SortedMap.mem_entries_iff _ _ _).mp hmem
    rw [hr.queue_eq hfind, hr'.queue_eq hfind', hqueue]
  · obtain ⟨r, hrs, rfl⟩ := h.sound.wellFormed.mem_orders.mp ha
    have hrs' : r.mirror ∈ S'.engine.book.side s.opposite := by
      rw [h.book]
      exact Book.mem_mirror hrs
    obtain ⟨hn, hp⟩ := hr.links_eq hr' hrs hrs' (hqueue s r.price)
    have hdata : (S'.engine.heap r.ref).unlink = (S.engine.heap r.ref).unlink.mirror := by
      rw [hr.cell s r hrs]
      exact hr'.cell s.opposite r.mirror hrs'
    have hlinked : ∀ o : Order, o = { o.unlink with next := o.next, prev := o.prev } := fun _ => rfl
    rw [hlinked (S'.engine.heap r.ref), hdata, hn, hp]
    rfl
  · exact congrArg Book.index h.book
  · exact congrArg Book.trades h.book

/-- A mirrored history from the empty book ends in the mirror image. -/
theorem run_mirror {poolSize : Nat} {udpPub : Bool} {ops : List Op}
    (hok : Along step Owned (new poolSize udpPub) ops) (hp : ∀ op ∈ ops, op.Negatable) :
    ∃ S S', run step (new poolSize udpPub) ops = some S ∧
      run step (new poolSize udpPub) (ops.map Op.mirror) = some S' ∧ MirrorImage S S' := by
  have hboth := hok.and (along_of_forall hp)
  obtain ⟨S, S', hS, hS', h⟩ := run_related (f := Op.mirror)
    (fun _ _ _ hR hop => hR.step hop.1 hop.2) (new_reflected poolSize udpPub) hboth
  exact ⟨S, S', hS, hS', h.mirrorImage⟩

theorem run_mirror_partial_fill :
    let ops : List Op := [.acquire 1 100 5 .sell false, .process 2 10 11,
      .acquire 2 101 4 .sell false, .process 1 12 13, .acquire 3 101 7 .buy false, .process 0 14 15,
      .modify 2 1 99 6 16, .acquire 4 (-3) 2 .buy false, .process 0 17 18, .cancel 4 19]
    ∃ S S', run step (new 3 false) ops = some S ∧
      run step (new 3 false) (ops.map Op.mirror) = some S' ∧ MirrorImage S S' :=
  run_mirror (by decide) (by decide)

end Session
end LobCity
