import LobCity.Session

/-! A participant who keeps at most one quote on each side, among others who never use
its ids: each of its resting orders is the current quote of its side, found under its own
id, and its trades name current quotes only. -/
namespace LobCity
open Library

/-- Not one of the participant's ids, and not the id that stands for no quote. -/
def Foreign (own : OrderId → Prop) (id : OrderId) : Prop := id ≠ 0 ∧ ¬ own id

def Op.ids : Op → List OrderId
  | .acquire id .. => [id]
  | .process .. => []
  | .cancel id _ => [id]
  | .modify origId newId .. => [origId, newId]

/-- The largest set of ids that the others keep off, who use those of `xs`. -/
def KeptOff {α : Type} (ids : α → List OrderId) (xs : List α) (k : OrderId) : Prop :=
  ∀ x ∈ xs, k ∉ ids x

instance {α : Type} (ids : α → List OrderId) (xs : List α) : DecidablePred (KeptOff ids xs) :=
  fun k => inferInstanceAs (Decidable (∀ x ∈ xs, k ∉ ids x))

section KeptOff
variable {α : Type} {ids : α → List OrderId} {xs : List α}

theorem KeptOff.foreign (hne : ∀ x ∈ xs, ∀ id ∈ ids x, id ≠ 0) :
    ∀ x ∈ xs, ∀ id ∈ ids x, Foreign (KeptOff ids xs) id :=
  fun x hx id hid => ⟨hne x hx id hid, fun hkept => hkept x hx hid⟩

theorem KeptOff.of_unused {issued : List OrderId} (h : ∀ x ∈ xs, ∀ id ∈ ids x, id ∉ issued) :
    ∀ id ∈ issued, KeptOff ids xs id :=
  fun id hid x hx hmem => h x hx id hmem hid

end KeptOff

/-- A trade that names, of the participant's orders, only the current quotes. -/
structure Trade.OfQuotes (own : OrderId → Prop) (cur : Side → OrderId) (t : Trade) : Prop where
  buy : own t.buyOrderId → t.buyOrderId = cur .buy
  sell : own t.sellOrderId → t.sellOrderId = cur .sell
  buy_ne : t.buyOrderId ≠ 0
  sell_ne : t.sellOrderId ≠ 0

theorem Trade.OfQuotes.names {own : OrderId → Prop} {cur : Side → OrderId} {t : Trade}
    (h : t.OfQuotes own cur) (hown : ∀ s, cur s ≠ 0 → own (cur s)) :
    (t.buyOrderId = cur .buy ↔ own t.buyOrderId) ∧
      (t.sellOrderId = cur .sell ↔ own t.sellOrderId) := by
  refine ⟨⟨fun he => ?_, h.buy⟩, ⟨fun he => ?_, h.sell⟩⟩
  · rw [he]
    exact hown .buy (he ▸ h.buy_ne)
  · rw [he]
    exact hown .sell (he ▸ h.sell_ne)

namespace Book
variable {b : Book} {own : OrderId → Prop} {cur : Side → OrderId} {o : Incoming} {s : Side}

def RestingIds (P : OrderId → Prop) (b : Book) : Prop := ∀ s, ∀ r ∈ b.side s, P r.id

namespace RestingIds
variable {P : OrderId → Prop}

theorem acquire (h : b.RestingIds P) (id : OrderId) (p : Price) (q : Quantity) (s : Side)
    (m : Bool) : (b.acquire id p q s m).2.RestingIds P := by
  unfold RestingIds
  rw [side_acquire]
  exact h

theorem process (h : b.RestingIds P) (ho : P o.id) (time : Timestamp) :
    (b.process o time).RestingIds P := by
  intro t x hx
  cases mem_of_process hx with
  | inl hx =>
    rw [hx.2.2.2]
    exact ho
  | inr hx =>
    obtain ⟨r, hr, hs, -⟩ := hx
    rw [hs.2.1]
    exact h t r hr

theorem cancel (h : b.RestingIds P) (hd : b.Distinct) (hi : b.Indexed) (id : OrderId) :
    (b.cancel id).RestingIds P := fun t x hx => h t x (mem_of_cancel hd hi hx)

theorem modify (h : b.RestingIds P) (hd : b.Distinct) (hi : b.Indexed) (origId : OrderId)
    {newId : OrderId} (hn : P newId) (newPrice : Price) (newQty : Quantity) :
    (b.modify origId newId newPrice newQty).RestingIds P := by
  intro t x hx
  cases mem_of_modify hd hi hx with
  | inl hx =>
    obtain ⟨r, -, -, rfl⟩ := hx
    exact hn
  | inr hx =>
    exact h t x hx

end RestingIds

/-- The participant's resting orders are its current quotes, found under their own ids. -/
def Tracked (own : OrderId → Prop) (cur : Side → OrderId) (b : Book) : Prop :=
  ∀ s, ∀ r ∈ b.side s, own r.id → r.id = cur s ∧ b.index r.id = some r.ref

namespace Tracked

theorem acquire (h : b.Tracked own cur) (id : OrderId) (p : Price) (q : Quantity) (s : Side)
    (m : Bool) : (b.acquire id p q s m).2.Tracked own cur := by
  intro t r hr hown
  rw [side_acquire] at hr
  rw [index_acquire]
  exact h t r hr hown

/-- Matching erases the index entries of what it uses up, and an own order that stays has
an entry that no other order shares. -/
theorem matched (h : b.Tracked own cur) (hd : b.Distinct) (o : Incoming) (time : Timestamp) :
    (b.matched o time).Tracked own cur := by
  intro t r hr hown
  obtain ⟨r0, h0, hs, -⟩ := mem_of_matched hr
  have hcur := h t r0 h0 (hs.2.1 ▸ hown)
  rw [hs.2.1, hs.1, index_matched]
  refine ⟨hcur.1, ?_⟩
  rw [if_neg, hcur.2]
  intro hgone
  obtain ⟨g, hg, hid⟩ := List.mem_map.mp hgone
  have hg' := (h _ g (mem_gone hg) (by rw [hid]; exact hs.2.1 ▸ hown)).2
  rw [hid, hcur.2] at hg'
  exact gone_ne_matched hd hg hr ((Option.some.inj hg').symm.trans hs.1.symm)

theorem rest_foreign (h : b.Tracked own cur) (ho : ¬ own o.id) : (b.rest o).Tracked own cur := by
  intro t r hr hown
  cases Represents.mem_rest.mp hr with
  | inl h =>
    obtain ⟨-, rfl⟩ := h
    exact absurd hown ho
  | inr hr =>
    have hne : r.id ≠ o.id := fun he => ho (he ▸ hown)
    have hcur := h t r hr hown
    exact ⟨hcur.1, by simpa [Book.rest, hne] using hcur.2⟩

theorem rest_own (h : b.Tracked own cur) (hnone : ∀ r ∈ b.side o.side, ¬ own r.id)
    (hfresh : ∀ t, cur t ≠ o.id) : (b.rest o).Tracked own (Function.update cur o.side o.id) := by
  intro t r hr hown
  cases Represents.mem_rest.mp hr with
  | inl h =>
    obtain ⟨rfl, rfl⟩ := h
    exact ⟨by simp [Incoming.resting], by simp [Book.rest, Incoming.resting]⟩
  | inr hr =>
    obtain ⟨hcur, hidx⟩ := h t r hr hown
    have ht : t ≠ o.side := by
      rintro rfl
      exact hnone r hr hown
    have hne : r.id ≠ o.id := fun he => hfresh t (hcur.symm.trans he)
    exact ⟨by rw [Function.update_of_ne ht, hcur], by simpa [Book.rest, hne] using hidx⟩

theorem process_foreign (h : b.Tracked own cur) (hd : b.Distinct) (ho : ¬ own o.id)
    (time : Timestamp) : (b.process o time).Tracked own cur := by
  cases process_cases b o time with
  | inl hb =>
    rw [hb.2.2]
    exact (h.matched hd o time).rest_foreign ho
  | inr hb =>
    rw [hb.2]
    exact h.matched hd o time

theorem update_cur (h : b.Tracked own cur) (hnone : ∀ r ∈ b.side s, ¬ own r.id) (id : OrderId) :
    b.Tracked own (Function.update cur s id) := by
  intro t r hr hown
  have ht : t ≠ s := by
    rintro rfl
    exact hnone r hr hown
  rw [Function.update_of_ne ht]
  exact h t r hr hown

theorem process_own (h : b.Tracked own cur) (hd : b.Distinct)
    (hnone : ∀ r ∈ b.side o.side, ¬ own r.id) (hfresh : ∀ t, cur t ≠ o.id) (time : Timestamp) :
    (b.process o time).Tracked own (Function.update cur o.side o.id) := by
  have hmatched : ∀ r ∈ (b.matched o time).side o.side, ¬ own r.id := by
    intro r hr hown
    obtain ⟨r0, h0, hs, -⟩ := mem_of_matched hr
    exact hnone r0 h0 (hs.2.1 ▸ hown)
  cases process_cases b o time with
  | inl hb =>
    rw [hb.2.2]
    exact (h.matched hd o time).rest_own (o := { o with quantity := (b.execution o).left })
      hmatched hfresh
  | inr hb =>
    rw [hb.2]
    exact (h.matched hd o time).update_cur hmatched o.id

theorem cancel (h : b.Tracked own cur) (hd : b.Distinct) (hi : b.Indexed) (id : OrderId) :
    (b.cancel id).Tracked own cur ∧ ∀ t, ∀ r ∈ (b.cancel id).side t, own r.id → r.id ≠ id := by
  cases cancel_cases hd hi id with
  | inl hcase =>
    obtain ⟨hn, hb⟩ := hcase
    rw [hb]
    refine ⟨h, fun t r hr hown he => ?_⟩
    have hidx := (h t r hr hown).2
    rw [he, hn] at hidx
    cases hidx
  | inr hcase =>
    obtain ⟨s, r0, hr0, rfl, hk, hb⟩ := hcase
    rw [hb]
    have hgone : ∀ t, ∀ r ∈ ((b.eraseId r0.id).drop s r0.ref).side t, own r.id → r.id ≠ r0.id := by
      intro t r hr hown he
      have hidx := (h t r (Represents.mem_drop hr).1 hown).2
      rw [he, hk] at hidx
      have hmem : r.ref ∈ refs (((b.eraseId r0.id).drop s r0.ref).side t) := List.mem_map_of_mem hr
      rw [← Option.some.inj hidx] at hmem
      exact not_mem_removed hd hr0 t hmem
    refine ⟨fun t r hr hown => ?_, hgone⟩
    have hne := hgone t r hr hown
    have hcur := h t r (Represents.mem_drop hr).1 hown
    exact ⟨hcur.1, by simpa [Book.release, eraseId, hne] using hcur.2⟩

theorem cancel_own (h : b.Tracked own cur) (hd : b.Distinct) (hi : b.Indexed) (s : Side) :
    (b.cancel (cur s)).Tracked own (Function.update cur s 0) := by
  obtain ⟨hq, hgone⟩ := h.cancel hd hi (cur s)
  intro t r hr hown
  have ht : t ≠ s := by
    rintro rfl
    exact hgone t r hr hown (hq t r hr hown).1
  rw [Function.update_of_ne ht]
  exact hq t r hr hown

theorem modify_foreign (h : b.Tracked own cur) (hd : b.Distinct) (hi : b.Indexed)
    {origId newId : OrderId} (ho : ¬ own origId) (hn : ¬ own newId) (newPrice : Price)
    (newQty : Quantity) : (b.modify origId newId newPrice newQty).Tracked own cur := by
  rcases modify_cases hd hi origId newId newPrice newQty with ⟨-, hb⟩ | ⟨s, r0, hr0, rfl, hk, hcase⟩
  · rwa [hb]
  have hindex (k : OrderId) (h0 : k ≠ r0.id) (h1 : k ≠ newId) :
      (b.modify r0.id newId newPrice newQty).index k = b.index k := by
    cases hcase with
    | inl hb =>
      rw [hb.2.2]
      simp [inPlace, eraseId, h0, h1]
    | inr hb =>
      rw [hb.2]
      simp [requeue, Book.rest, eraseId, h0, h1]
  intro t x hx hown
  cases (mem_modify hd hi hr0 hk).mp hx with
  | inl h =>
    obtain ⟨-, rfl⟩ := h
    exact absurd hown hn
  | inr hx =>
    rw [hindex _ (fun he => ho (he ▸ hown)) fun he => hn (he ▸ hown)]
    exact h t x hx.1 hown

end Tracked

structure Quoted (own : OrderId → Prop) (cur : Side → OrderId) (b : Book) : Prop where
  nonzero : ∀ s, ∀ r ∈ b.side s, r.id ≠ 0
  current : ∀ s, ∀ r ∈ b.side s, own r.id → r.id = cur s ∧ b.index r.id = some r.ref

namespace Quoted

/-- Without a current quote on a side none of its orders is an own one. -/
theorem no_own (h : b.Quoted own cur) {t : Side} (ht : cur t = 0) {r : Resting} (hr : r ∈ b.side t) :
    ¬ own r.id := fun hown => h.nonzero t r hr ((h.current t r hr hown).1.trans ht)

theorem trades_foreign (h : b.Quoted own cur) (ho : Foreign own o.id) (time : Timestamp) :
    ∀ t ∈ (b.execution o).fills.map (Fill.trade o.side.opposite o.id time),
      t.OfQuotes own cur := by
  intro t ht
  obtain ⟨f, hf, rfl⟩ := List.mem_map.mp ht
  have hmaker := (fillGreedily_reaches hf).1
  have hne := h.nonzero _ _ hmaker
  have hcur := fun hown => (h.current _ _ hmaker hown).1
  cases hs : o.side <;> rw [hs] at hcur
  · exact ⟨fun hown => absurd hown ho.2, hcur, ho.1, hne⟩
  · exact ⟨hcur, fun hown => absurd hown ho.2, hne, ho.1⟩

end Quoted
end Book

namespace Session
variable {S S' : Session} {op : Op}

def newTrades (S : Session) : Op → List Trade
  | .process order time _ =>
    let o := S.engine.incoming order
    (S.engine.book.execution o).fills.map (Fill.trade o.side.opposite o.id time)
  | _ => []

theorem trades_bookAfter (S : Session) (op : Op) :
    (S.bookAfter op).trades = S.engine.book.trades ++ S.newTrades op := by
  cases op with
  | acquire id p q s m => simp [bookAfter, newTrades]
  | process order time now => exact Book.trades_process_eq _ _ _
  | cancel id now => simp [bookAfter, newTrades, Book.trades_cancel]
  | modify origId newId newPrice newQty now => simp [bookAfter, newTrades, Book.trades_modify]

theorem tradeLog_of_book (hb : S'.engine.book = S.bookAfter op) :
    S'.engine.tradeLog = S.engine.tradeLog ++ S.newTrades op :=
  (congrArg Book.trades hb).trans (S.trades_bookAfter op)

section Ids
variable {P : OrderId → Prop}

theorem Sound.hands_ids (h : S.Sound) (hhands : ∀ c ∈ S.hands, P (S.engine.incoming c).id)
    (hok : S.Owned op) (hids : ∀ id ∈ op.ids, P id) (hs : S.step op = some S') :
    ∀ c ∈ S'.hands, P (S'.engine.incoming c).id := by
  obtain ⟨S1, hs1, -, -, hk⟩ := h.step hok
  obtain rfl := Option.some.inj (hs1.symm.trans hs)
  intro c hc
  cases op with
  | acquire id p q s m =>
    cases ha : S.engine.acquire id p q s m with
    | mk a e =>
      obtain ⟨-, -, hin, hkeep⟩ := h.wellFormed.acquire id p q s m ha
      obtain rfl : ⟨e, a :: S.hands⟩ = S1 := by simpa [Session.step, ha] using hs
      cases List.mem_cons.mp hc with
      | inl h =>
        obtain rfl := h
        rw [hin]
        exact hids id (by simp [Op.ids])
      | inr hc =>
        rw [hkeep c hc]
        exact hhands c hc
  | process order time now =>
    obtain ⟨e, -, rfl⟩ := Option.map_eq_some_iff.mp hs
    rw [hk c (List.mem_of_mem_erase hc) hc]
    exact hhands c (List.mem_of_mem_erase hc)
  | cancel id now =>
    obtain rfl := Option.some.inj hs
    rw [hk c hc hc]
    exact hhands c hc
  | modify origId newId newPrice newQty now =>
    obtain rfl := Option.some.inj hs
    rw [hk c hc hc]
    exact hhands c hc

theorem Sound.resting_ids (h : S.Sound) (hrest : S.engine.book.RestingIds P)
    (hhands : ∀ c ∈ S.hands, P (S.engine.incoming c).id) (hok : S.Owned op)
    (hids : ∀ id ∈ op.ids, P id) : (S.bookAfter op).RestingIds P := by
  cases op with
  | acquire id p q s m => exact hrest.acquire id p q s m
  | process order time now => exact hrest.process (hhands order hok) time
  | cancel id now => exact hrest.cancel h.distinct h.indexed id
  | modify origId newId newPrice newQty now =>
    exact hrest.modify h.distinct h.indexed origId (hids newId (by simp [Op.ids])) newPrice newQty

end Ids

/-- An engine with the current quotes of a participant, whose ids nobody else holds. -/
structure Tracks (own : OrderId → Prop) (cur : Side → OrderId) (S : Session) : Prop where
  sound : S.Sound
  tracked : S.engine.book.Tracked own cur
  hands : ∀ c ∈ S.hands, ¬ own (S.engine.incoming c).id

namespace Tracks
variable {own : OrderId → Prop} {cur : Side → OrderId}

theorem new (poolSize : Nat) (udpPub : Bool) (own : OrderId → Prop) (cur : Side → OrderId) :
    (Session.new poolSize udpPub).Tracks own cur := by
  refine ⟨Session.new_sound poolSize udpPub, ?_, by simp [Session.new]⟩
  show (Engine.new poolSize udpPub).book.Tracked own cur
  rw [(Engine.new_wellFormed poolSize udpPub).2]
  simp [Book.Tracked, Book.new]

theorem step (h : S.Tracks own cur) (hok : S.Owned op) (hids : ∀ id ∈ op.ids, ¬ own id) :
    ∃ S', S.step op = some S' ∧ S'.Tracks own cur ∧ S'.engine.book = S.bookAfter op := by
  obtain ⟨S', hs, h', hb, -⟩ := h.sound.step hok
  refine ⟨S', hs, ⟨h', ?_, h.sound.hands_ids h.hands hok hids hs⟩, hb⟩
  have hd := h.sound.distinct
  have hi := h.sound.indexed
  rw [hb]
  cases op with
  | acquire id p q s m => exact h.tracked.acquire id p q s m
  | process order time now => exact h.tracked.process_foreign hd (h.hands order hok) time
  | cancel id now => exact (h.tracked.cancel hd hi id).1
  | modify origId newId newPrice newQty now =>
    exact h.tracked.modify_foreign hd hi (hids origId (by simp [Op.ids]))
      (hids newId (by simp [Op.ids])) newPrice newQty

theorem cancel_own (h : S.Tracks own cur) (s : Side) (now : Timestamp) :
    Tracks own (Function.update cur s 0) { S with engine := S.engine.cancelOrder (cur s) now } ∧
      (S.engine.cancelOrder (cur s) now).book = S.engine.book.cancel (cur s) ∧
      ∀ c ∈ S.hands, (S.engine.cancelOrder (cur s) now).incoming c = S.engine.incoming c := by
  have hcancel : S.Owned (.cancel (cur s) now) := trivial
  obtain ⟨S', hs, h', hb, hk⟩ := h.sound.step hcancel
  obtain rfl := Option.some.inj hs
  refine ⟨⟨h', ?_, fun c hc => ?_⟩, hb, fun c hc => hk c hc hc⟩
  · rw [hb]
    exact h.tracked.cancel_own h.sound.distinct h.sound.indexed s
  · rw [hk c hc hc]
    exact h.hands c hc

theorem submit_own (h : S.Tracks own cur) {s : Side} (hnone : ∀ r ∈ S.engine.book.side s, ¬ own r.id)
    {id : OrderId} (hfresh : ∀ t, cur t ≠ id) (price : Price) (qty : Quantity)
    (time now : Timestamp) :
    ∃ a e1 e2, S.engine.acquire id price qty s false = (a, e1) ∧
      e1.processOrder a time now = some e2 ∧
      Tracks own (Function.update cur s id) { S with engine := e2 } ∧
      e2.book = (S.engine.book.acquire id price qty s false).2.process
        ⟨a, id, price, qty, s, false⟩ time ∧ ∀ c ∈ S.hands, e2.incoming c = S.engine.incoming c := by
  obtain ⟨a, e1, e2, ha, he, h2, hnew, hb, -, hk⟩ := h.sound.submit id price qty s false time now
  have hside : (S.engine.book.acquire id price qty s false).2.side = S.engine.book.side :=
    Book.side_acquire ..
  have hd : (S.engine.book.acquire id price qty s false).2.Distinct := by
    refine ⟨fun t => ?_, fun {t t' r r'} hr hr' => ?_⟩
    · rw [hside]
      exact h.sound.distinct.nodup t
    · rw [hside] at hr hr'
      exact h.sound.distinct.unique hr hr'
  refine ⟨a, e1, e2, ha, he, ⟨h2, ?_, fun c hc => ?_⟩, hb, hk⟩
  · rw [hb]
    have htracked := h.tracked.acquire id price qty s false
    refine htracked.process_own hd (o := ⟨a, id, price, qty, s, false⟩) ?_ hfresh time
    rwa [hside]
  · rw [hk c hc]
    exact h.hands c hc

end Tracks
end Session

/-- An engine shared with others, none of whose held orders is the participant's. -/
structure Session.Shared (own : OrderId → Prop) (cur : Side → OrderId) (S : Session) : Prop where
  sound : S.Sound
  quoted : S.engine.book.Quoted own cur
  hands : ∀ c ∈ S.hands, Foreign own (S.engine.incoming c).id

namespace Session.Shared
variable {S : Session} {own : OrderId → Prop} {cur : Side → OrderId}

theorem tracks (h : S.Shared own cur) : S.Tracks own cur :=
  ⟨h.sound, h.quoted.current, fun c hc => (h.hands c hc).2⟩

theorem of_tracks (h : S.Tracks own cur) (hrest : S.engine.book.RestingIds (· ≠ 0))
    (hhands : ∀ c ∈ S.hands, (S.engine.incoming c).id ≠ 0) : S.Shared own cur :=
  ⟨h.sound, ⟨hrest, h.tracked⟩, fun c hc => ⟨hhands c hc, h.hands c hc⟩⟩

theorem new (poolSize : Nat) (udpPub : Bool) (own : OrderId → Prop) (cur : Side → OrderId) :
    (Session.new poolSize udpPub).Shared own cur := by
  refine of_tracks (.new poolSize udpPub own cur) ?_ (by simp [Session.new])
  show (Engine.new poolSize udpPub).book.RestingIds (· ≠ 0)
  rw [(Engine.new_wellFormed poolSize udpPub).2]
  simp [Book.RestingIds, Book.new]

theorem step (h : S.Shared own cur) {op : Op} (hok : S.Owned op)
    (hids : ∀ id ∈ op.ids, Foreign own id) :
    ∃ S', S.step op = some S' ∧ S'.Shared own cur ∧ S'.engine.book = S.bookAfter op ∧
      ∀ t ∈ S.newTrades op, t.OfQuotes own cur := by
  obtain ⟨S', hs, h', hb⟩ := h.tracks.step hok fun id hid => (hids id hid).2
  have hhands : ∀ c ∈ S.hands, (S.engine.incoming c).id ≠ 0 := fun c hc => (h.hands c hc).1
  have hne : ∀ id ∈ op.ids, id ≠ 0 := fun id hid => (hids id hid).1
  refine ⟨S', hs, of_tracks h' ?_ ?_, hb, ?_⟩
  · rw [hb]
    exact h.sound.resting_ids h.quoted.nonzero hhands hok hne
  · exact h.sound.hands_ids (P := (· ≠ 0)) hhands hok hne hs
  · cases op with
    | process order time now => exact h.quoted.trades_foreign (h.hands order hok) time
    | acquire | cancel | modify => simp [newTrades]

theorem run (h : S.Shared own cur) {ops : List Op} (hok : Along Session.step Session.Owned S ops)
    (hids : ∀ op ∈ ops, ∀ id ∈ op.ids, Foreign own id) :
    ∃ S', Library.run Session.step S ops = some S' ∧ S'.Shared own cur ∧
      ∃ new, S'.engine.tradeLog = S.engine.tradeLog ++ new ∧ ∀ t ∈ new, t.OfQuotes own cur := by
  induction ops generalizing S with
  | nil => exact ⟨S, rfl, h, [], by simp, by simp⟩
  | cons op ops ih =>
    obtain ⟨S1, hs1, h1, hb1, hnew1⟩ := h.step hok.1 (hids op (by simp))
    obtain ⟨S2, hs2, h2, new2, hlog2, hnew2⟩ :=
      ih h1 (hok.2 S1 hs1) fun op hop => hids op (by simp [hop])
    refine ⟨S2, by simp [Library.run, hs1, hs2], h2, S.newTrades op ++ new2, ?_, ?_⟩
    · rw [hlog2, tradeLog_of_book hb1, List.append_assoc]
    · intro t ht
      cases List.mem_append.mp ht with
      | inl ht =>
        exact hnew1 t ht
      | inr ht =>
        exact hnew2 t ht

end Session.Shared
end LobCity
