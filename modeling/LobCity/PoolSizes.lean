import LobCity.Exchange
import LobCity.Renaming
import LobCity.Ownership

/-! The size of the pool does not show. Two engines with pools of any sizes, one of which
may allocate every order anew, go through the same calls with the same trades, levels,
queues and snapshots; only the cells have other addresses. -/
namespace LobCity
open Library

/-- A call that names an order in hands by its place, the one acquired last being at 0. -/
inductive HandOp where
  | acquire (id : OrderId) (p : Price) (q : Quantity) (s : Side) (m : Bool)
  | process (place : Nat) (time now : Timestamp)
  | cancel (id : OrderId) (now : Timestamp)
  | modify (origId newId : OrderId) (newPrice : Price) (newQty : Quantity) (now : Timestamp)
deriving DecidableEq, Repr

def HandOp.resolve (hands : List Addr) : HandOp → Option Op
  | .acquire id p q s m => some (.acquire id p q s m)
  | .process place time now => hands[place]?.map fun order => .process order time now
  | .cancel id now => some (.cancel id now)
  | .modify origId newId newPrice newQty now => some (.modify origId newId newPrice newQty now)

def Op.rename (ρ : Addr → Addr) : Op → Op
  | .process order time now => .process (ρ order) time now
  | .acquire id p q s m => .acquire id p q s m
  | .cancel id now => .cancel id now
  | .modify origId newId newPrice newQty now => .modify origId newId newPrice newQty now

theorem HandOp.resolve_rename (ρ : Addr → Addr) (hands : List Addr) (op : HandOp) :
    op.resolve (hands.map ρ) = (op.resolve hands).map (Op.rename ρ) := by
  cases op with
  | process place time now =>
    simp only [resolve, List.getElem?_map, Option.map_map]
    rfl
  | acquire | cancel | modify => rfl

def PriceLevel.rename (ρ : Addr → Addr) (lvl : PriceLevel) : PriceLevel :=
  { lvl with head := lvl.head.map ρ, tail := lvl.tail.map ρ }

namespace Book.Renamed
variable {ρ ρ' : Addr → Addr} {b b' c c' : Book}

theorem bestPrice_eq (h : Renamed ρ b b') (s : Side) :
    bestPrice (b'.side s) = bestPrice (b.side s) := by
  rw [h.side, bestPrice, bestPrice, List.head?_map, Option.map_map]
  rfl

theorem snapshot_eq (h : Renamed ρ b b') (now : Timestamp) : b'.snapshot now = b.snapshot now := by
  have hvolume (s : Side) : bestVolume (b'.side s) = bestVolume (b.side s) := by
    rw [bestVolume, bestQueue, h.bestPrice_eq, h.side, List.filter_map, volume_rename]
    rfl
  unfold Book.snapshot
  rw [h.bestPrice_eq, h.bestPrice_eq, hvolume, hvolume]

theorem moved_eq (h : Renamed ρ b b') (hc : Renamed ρ' c c') (now : Timestamp) :
    b'.moved c' now = b.moved c now := by
  unfold Book.moved
  rw [h.bestPrice_eq, h.bestPrice_eq, hc.bestPrice_eq, hc.bestPrice_eq, hc.snapshot_eq]

theorem queue_eq (h : Renamed ρ b b') (s : Side) (p : Price) :
    b'.queue s p = (b.queue s p).map (Resting.rename ρ) := by
  rw [queue, h.side, List.filter_map, queue]
  rfl

theorem levels_eq (h : Renamed ρ b b') (s : Side) :
    b'.levels s = (b.levels s).map fun l => (l.1, l.2.rename ρ) := by
  have hprices : b'.prices s = b.prices s := by
    rw [prices, h.side, List.map_map]
    rfl
  rw [levels, hprices, levels, List.map_map]
  refine List.map_congr_left fun p _ => ?_
  simp only [Function.comp, level, h.queue_eq, refs_rename, volume_rename, PriceLevel.rename,
    List.head?_map, List.getLast?_map]

end Book.Renamed

namespace Session
variable {S S' T T' : Session} {ρ : Addr → Addr}

def act (S : Session) (op : HandOp) : Option Session := (op.resolve S.hands).bind S.step

def Holds (S : Session) : HandOp → Prop
  | .process place _ _ => place < S.hands.length
  | _ => True

instance (S : Session) : DecidablePred S.Holds
  | .process place _ _ => inferInstanceAs (Decidable (place < S.hands.length))
  | .acquire .. | .cancel .. | .modify .. => inferInstanceAs (Decidable True)

theorem Holds.resolve {op : HandOp} (h : S.Holds op) :
    ∃ op', op.resolve S.hands = some op' ∧ S.Owned op' := by
  cases op with
  | process place time now =>
    obtain ⟨order, horder⟩ : ∃ order, S.hands[place]? = some order :=
      ⟨_, List.getElem?_eq_getElem h⟩
    exact ⟨.process order time now, by simp [HandOp.resolve, horder], List.mem_of_getElem? horder⟩
  | acquire | cancel | modify => exact ⟨_, rfl, trivial⟩

def live (S : Session) : Set Addr := {a | a ∈ S.hands ∨ a ∈ S.engine.book.resting}

/-- The one session is the other with its cells renamed. -/
structure Twins (ρ : Addr → Addr) (S S' : Session) : Prop where
  sound : S.Sound
  sound' : S'.Sound
  book : S.engine.book.Renamed ρ S'.engine.book
  hands : S'.hands = S.hands.map ρ
  incoming : ∀ a ∈ S.hands, S'.engine.incoming (ρ a) = (S.engine.incoming a).rename ρ
  apart : Set.InjOn ρ S.live
  outlet : S'.engine.outlet = S.engine.outlet

theorem new_twins (poolSize poolSize' : Nat) (udpPub : Bool) :
    Twins id (new poolSize udpPub) (new poolSize' udpPub) := by
  refine ⟨new_sound _ _, new_sound _ _, ?_, rfl, by simp [new], Set.injOn_id _, rfl⟩
  show (Engine.new poolSize udpPub).book.Renamed id (Engine.new poolSize' udpPub).book
  rw [(Engine.new_wellFormed poolSize udpPub).2, (Engine.new_wellFormed poolSize' udpPub).2]
  exact ⟨fun _ => rfl, fun _ => rfl, rfl⟩

theorem step_unattached {op : Op} (hp : S.engine.udpPub = false) (hs : S.step op = some S') :
    S'.engine.outlet = S.engine.outlet := by
  have hmoved (e e' : Engine) (now : Timestamp) (ho : e.outlet = S.engine.outlet)
      (he : e' = Engine.publishIfMoved S.engine e now) : e'.outlet = S.engine.outlet := by
    have hpub : e.udpPub = false := (congrArg Prod.fst ho).trans hp
    obtain ⟨-, -, -, hout⟩ := Engine.publishIfMoved_outlet (e := e) S.engine now
    rw [if_neg (by simp [hpub])] at hout
    rw [he, hout, ho]
  cases op with
  | acquire id p q s m =>
    obtain rfl := Option.some.inj hs
    rfl
  | process order time now =>
    obtain ⟨e', he, rfl⟩ := Option.map_eq_some_iff.mp hs
    obtain ⟨e, ho, hprocess⟩ := Engine.processOrder_edits he
    exact hmoved e e' now ho hprocess
  | cancel id now =>
    obtain rfl := Option.some.inj hs
    cases hk : S.engine.orderMap id with
    | none => exact congrArg Engine.outlet (Engine.cancelOrder_unknown hk now)
    | some order =>
      obtain ⟨e, ho, hcancel⟩ := Engine.cancelOrder_edits hk now
      have hpub : e.udpPub = false := (congrArg Prod.fst ho).trans hp
      have hpublish : e.publishBBO now = e := if_neg (by simp [hpub])
      show (S.engine.cancelOrder id now).outlet = _
      rw [hcancel, hpublish, ho]
  | modify origId newId newPrice newQty now =>
    obtain rfl := Option.some.inj hs
    cases hk : S.engine.orderMap origId with
    | none => exact congrArg Engine.outlet (Engine.modifyOrder_unknown hk newId newPrice newQty now)
    | some order =>
      obtain ⟨e, ho, hmodify⟩ := Engine.modifyOrder_edits hk newId newPrice newQty now
      exact hmoved e _ now ho hmodify

theorem outlet_eq {op op' : Op} (h : Twins ρ S S') (hT : T.Sound) (hT' : T'.Sound)
    (hs : S.step op = some T) (hs' : S'.step op' = some T')
    (hshown : S'.shown op' T'.engine.book = S.shown op T.engine.book) :
    T'.engine.outlet = T.engine.outlet := by
  obtain ⟨hpub, hbuffer⟩ := Prod.mk.inj h.outlet
  cases hp : S.engine.udpPub with
  | false =>
    rw [step_unattached hp hs, step_unattached (hpub.trans hp) hs', h.outlet]
  | true =>
    obtain ⟨hpub1, hbuffer1⟩ := h.sound.step_buffer hT hp hs
    obtain ⟨hpub2, hbuffer2⟩ := h.sound'.step_buffer hT' (hpub.trans hp) hs'
    unfold Engine.outlet
    rw [hpub1, hpub2, hbuffer1, hbuffer2, hbuffer, hshown]

/-- The cells of orders in hands hold no resting order, and each its own. -/
theorem Sound.hands_nodup (h : S.Sound) : S.hands.Nodup := by
  have hn : (S.engine.orders .buy ++ S.engine.orders .sell ++ S.engine.freeList ++ S.hands).Nodup :=
    h.wellFormed.owned.nodup_iff.mpr (h.wellFormed.allocated ▸ List.nodup_range)
  exact (List.nodup_append.mp hn).2.1

theorem erase_map {hands : List Addr} (hn : hands.Nodup) {a : Addr} (ha : a ∈ hands)
    (hinj : ∀ c ∈ hands, ρ c = ρ a → c = a) : (hands.map ρ).erase (ρ a) = (hands.erase a).map ρ := by
  induction hands with
  | nil => cases ha
  | cons c hands ih =>
    obtain ⟨hc, hn⟩ := List.nodup_cons.mp hn
    by_cases hca : c = a
    · subst hca
      rw [List.map_cons, List.erase_cons_head, List.erase_cons_head]
    · have hne : ρ c ≠ ρ a := fun he => hca (hinj c (by simp) he)
      have ha := (List.mem_cons.mp ha).resolve_left fun he => hca he.symm
      rw [List.map_cons, List.erase_cons_tail (by simpa using hne),
        List.erase_cons_tail (by simpa using hca), List.map_cons,
        ih hn ha fun d hd => hinj d (List.mem_cons_of_mem _ hd)]

namespace Twins

theorem resting (h : Twins ρ S S') : Set.InjOn ρ S.engine.book.resting :=
  h.apart.mono fun _ ha => Or.inr ha

theorem owned (h : Twins ρ S S') {op : Op} (hok : S.Owned op) : S'.Owned (op.rename ρ) := by
  cases op with
  | process order time now =>
    show ρ order ∈ S'.hands
    rw [h.hands]
    exact List.mem_map_of_mem hok
  | acquire | cancel | modify => trivial

/-- A call that takes no new order in hands and does the same to both books. -/
theorem next (h : Twins ρ S S') {op : Op} (hok : S.Owned op) (hs : S.step op = some T)
    (hs' : S'.step (op.rename ρ) = some T') (hhands : T'.hands = T.hands.map ρ)
    (hsub : ∀ c ∈ T.hands, c ∈ S.hands)
    (hbook : (S.bookAfter op).Renamed ρ (S'.bookAfter (op.rename ρ)))
    (hlive : ∀ a ∈ (S.bookAfter op).resting, a ∈ S.live)
    (hshown : T.engine.book.Renamed ρ T'.engine.book →
      S'.shown (op.rename ρ) T'.engine.book = S.shown op T.engine.book) : Twins ρ T T' := by
  obtain ⟨T1, hT, h1, hb, hk⟩ := h.sound.step hok
  obtain rfl : T = T1 := Option.some.inj (hs.symm.trans hT)
  obtain ⟨T2, hT', h2, hb', hk'⟩ := h.sound'.step (h.owned hok)
  obtain rfl : T' = T2 := Option.some.inj (hs'.symm.trans hT')
  have hrenamed : T.engine.book.Renamed ρ T'.engine.book := by rwa [hb, hb']
  refine ⟨h1, h2, hrenamed, hhands, fun c hc => ?_, h.apart.mono fun a ha => ?_,
    outlet_eq h h1 h2 hs hs' (hshown hrenamed)⟩
  · have hkept := hk c (hsub c hc) hc
    have hkept' := hk' (ρ c) (by rw [h.hands]; exact List.mem_map_of_mem (hsub c hc))
      (by rw [hhands]; exact List.mem_map_of_mem hc)
    rw [hkept, hkept', h.incoming c (hsub c hc)]
  · cases ha with
    | inl ha => exact Or.inl (hsub a ha)
    | inr ha => exact hlive a (hb ▸ ha)

theorem acquire (h : Twins ρ S S') (id : OrderId) (p : Price) (q : Quantity) (s : Side) (m : Bool) :
    ∃ ρ' T T', S.step (.acquire id p q s m) = some T ∧ S'.step (.acquire id p q s m) = some T' ∧
      Twins ρ' T T' := by
  obtain ⟨⟨a, e⟩, ha⟩ : ∃ x, S.engine.acquire id p q s m = x := ⟨_, rfl⟩
  obtain ⟨⟨a', e'⟩, ha'⟩ : ∃ x, S'.engine.acquire id p q s m = x := ⟨_, rfl⟩
  obtain ⟨-, hb, hin, hk⟩ := h.sound.wellFormed.acquire id p q s m ha
  obtain ⟨-, hb', hin', hk'⟩ := h.sound'.wellFormed.acquire id p q s m ha'
  obtain ⟨T, hT, h1, -⟩ := h.sound.step (show S.Owned (.acquire id p q s m) from trivial)
  obtain ⟨T', hT', h2, -⟩ := h.sound'.step (show S'.Owned (.acquire id p q s m) from trivial)
  obtain rfl : (⟨e, a :: S.hands⟩ : Session) = T := by simpa [Session.step, ha] using hT
  obtain rfl : (⟨e', a' :: S'.hands⟩ : Session) = T' := by simpa [Session.step, ha'] using hT'
  have hfresh : a ∉ S.live := by
    obtain ⟨hbuy, hsell, hhands⟩ := h.sound.fresh id p q s m
    rw [ha] at hbuy hsell hhands
    rintro (hin | ⟨t, hin⟩)
    · exact hhands hin
    · cases t
      · exact hbuy (h.sound.wellFormed.mem_orders.mpr (List.mem_map.mp hin))
      · exact hsell (h.sound.wellFormed.mem_orders.mpr (List.mem_map.mp hin))
  have hfresh' : a' ∉ ρ '' S.live := by
    obtain ⟨hbuy, hsell, hhands⟩ := h.sound'.fresh id p q s m
    rw [ha'] at hbuy hsell hhands
    rintro ⟨c, hin | ⟨t, hin⟩, rfl⟩
    · exact hhands (h.hands ▸ List.mem_map_of_mem hin)
    · obtain ⟨r, hr, rfl⟩ := List.mem_map.mp hin
      have hr' := h.book.mem hr
      cases t
      · exact hbuy (h.sound'.wellFormed.mem_orders.mpr ⟨_, hr', rfl⟩)
      · exact hsell (h.sound'.wellFormed.mem_orders.mpr ⟨_, hr', rfl⟩)
  have hold : ∀ c ∈ S.live, Function.update ρ a a' c = ρ c := by
    intro c hc
    refine Function.update_of_ne ?_ _ _
    rintro rfl
    exact hfresh hc
  have hacquired : e.book.Renamed ρ e'.book := by
    rw [hb, hb']
    refine ⟨fun t => ?_, fun k => ?_, ?_⟩
    · rw [Book.side_acquire, Book.side_acquire]
      exact h.book.side t
    · rw [Book.index_acquire, Book.index_acquire]
      exact h.book.index k
    · rw [Book.trades_acquire, Book.trades_acquire]
      exact h.book.trades
  have hresting : e.book.resting = S.engine.book.resting := by
    unfold Book.resting
    rw [hb, Book.side_acquire]
  refine ⟨Function.update ρ a a', _, _, hT, hT', h1, h2, ?_, ?_, fun c hc => ?_, ?_, ?_⟩
  · refine hacquired.congr h1.indexed fun c hc => hold c (Or.inr ?_)
    rwa [hresting] at hc
  · show a' :: S'.hands = (a :: S.hands).map _
    rw [List.map_cons, Function.update_self, h.hands]
    exact congrArg _ (List.map_congr_left fun c hc => (hold c (Or.inl hc)).symm)
  · show e'.incoming (Function.update ρ a a' c) = (e.incoming c).rename _
    cases List.mem_cons.mp hc with
    | inl he =>
      rw [he, Function.update_self, hin, hin', Incoming.rename]
      dsimp only
      rw [Function.update_self]
    | inr hc =>
      have href : (S.engine.incoming c).ref = c := rfl
      rw [hold c (Or.inl hc), hk c hc, hk' (ρ c) (h.hands ▸ List.mem_map_of_mem hc), h.incoming c hc,
        Incoming.rename, Incoming.rename, href, hold c (Or.inl hc)]
  · have hlive : live ⟨e, a :: S.hands⟩ = insert a S.live := by
      ext c
      show (c ∈ a :: S.hands ∨ c ∈ e.book.resting) ↔ _
      rw [hresting, List.mem_cons, or_assoc]
      rfl
    rw [hlive, Set.injOn_insert hfresh, Function.update_self]
    refine ⟨h.apart.congr fun c hc => (hold c hc).symm, ?_⟩
    rintro ⟨c, hc, he⟩
    exact hfresh' ⟨c, hc, (hold c hc).symm.trans he⟩
  · exact outlet_eq h h1 h2 hT hT' rfl

/-- The step lemma: the same call, each on its own cell. -/
theorem step (h : Twins ρ S S') {op : Op} (hok : S.Owned op) :
    ∃ ρ' T T', S.step op = some T ∧ S'.step (op.rename ρ) = some T' ∧ Twins ρ' T T' := by
  have hd := h.sound.distinct
  have hi := h.sound.indexed
  obtain ⟨T, hs, -⟩ := h.sound.step hok
  obtain ⟨T', hs', -⟩ := h.sound'.step (h.owned hok)
  cases op with
  | acquire id p q s m => exact h.acquire id p q s m
  | process order time now =>
    obtain ⟨e, -, rfl⟩ := Option.map_eq_some_iff.mp hs
    obtain ⟨e', -, rfl⟩ := Option.map_eq_some_iff.mp hs'
    refine ⟨ρ, _, _, hs, hs', h.next hok hs hs' ?_ (fun c hc => List.mem_of_mem_erase hc) ?_ ?_ ?_⟩
    · show S'.hands.erase (ρ order) = (S.hands.erase order).map ρ
      rw [h.hands]
      exact erase_map h.sound.hands_nodup hok fun c hc => h.apart (Or.inl hc) (Or.inl hok)
    · show (S.engine.book.process _ time).Renamed ρ (S'.engine.book.process _ time)
      rw [h.incoming order hok]
      exact h.book.process _ time
    · rintro a ⟨t, ha⟩
      obtain ⟨x, hx, rfl⟩ := List.mem_map.mp ha
      cases Book.mem_of_process hx with
      | inl hx =>
        obtain ⟨-, -, -, rfl⟩ := hx
        exact Or.inl hok
      | inr hx =>
        obtain ⟨r, hr, hsame, -⟩ := hx
        rw [hsame.1]
        exact Or.inr (Book.mem_resting hr)
    · exact fun hbook => h.book.moved_eq hbook now
  | cancel id now =>
    cases hs
    cases hs'
    refine ⟨ρ, _, _, rfl, rfl, h.next hok rfl rfl h.hands (fun _ hc => hc)
      (h.book.cancel hd hi h.resting id) ?_ fun hbook => ?_⟩
    · rintro a ⟨t, ha⟩
      obtain ⟨x, hx, rfl⟩ := List.mem_map.mp ha
      exact Or.inr (Book.mem_resting (Book.mem_of_cancel hd hi hx))
    · have hindex : S'.engine.book.index id = none ↔ S.engine.book.index id = none := by
        rw [h.book.index, Option.map_eq_none_iff]
      unfold shown Op.rename
      simp only [hindex, hbook.snapshot_eq]
  | modify origId newId newPrice newQty now =>
    cases hs
    cases hs'
    refine ⟨ρ, _, _, rfl, rfl, h.next hok rfl rfl h.hands (fun _ hc => hc)
      (h.book.modify hd hi h.resting origId newId newPrice newQty) ?_
      fun hbook => h.book.moved_eq hbook now⟩
    rintro a ⟨t, ha⟩
    obtain ⟨x, hx, rfl⟩ := List.mem_map.mp ha
    cases Book.mem_of_modify hd hi hx with
    | inl hx =>
      obtain ⟨r, hr, -, rfl⟩ := hx
      have hcell : r.ref ∈ S.engine.book.resting := Book.mem_resting hr
      exact Or.inr hcell
    | inr hx => exact Or.inr (Book.mem_resting hx)

end Twins

/-- Up to the names of the cells: the same levels with the same totals, the same queues of
the same orders, the same id index, the same orders in hands, trades and snapshots. -/
structure SameUpTo (ρ : Addr → Addr) (S S' : Session) : Prop where
  levels : ∀ s, (S'.engine.levels s).entries =
    (S.engine.levels s).entries.map fun l => (l.1, l.2.rename ρ)
  queue : ∀ s, ∀ l ∈ (S.engine.levels s).entries,
    S'.engine.queue (l.2.rename ρ) = (S.engine.queue l.2).map ρ
  cell : ∀ s, ∀ a ∈ S.engine.orders s,
    (S'.engine.heap (ρ a)).unlink = (S.engine.heap a).unlink
  index : ∀ k, S'.engine.orderMap k = (S.engine.orderMap k).map ρ
  hands : S'.hands = S.hands.map ρ
  hand : ∀ a ∈ S.hands, S'.engine.incoming (ρ a) = (S.engine.incoming a).rename ρ
  apart : Set.InjOn ρ S.live
  trades : S'.engine.tradeLog = S.engine.tradeLog
  buffer : S'.engine.buffer = S.engine.buffer

theorem Twins.sameUpTo (h : Twins ρ S S') : SameUpTo ρ S S' := by
  have hr := h.sound.wellFormed.represents
  have hr' := h.sound'.wellFormed.represents
  have hlevels : ∀ s, (S'.engine.levels s).entries =
      (S.engine.levels s).entries.map fun l => (l.1, l.2.rename ρ) := fun s => by
    rw [hr'.levels_eq, hr.levels_eq, h.book.levels_eq]
  refine ⟨hlevels, fun s l hl => ?_, fun s a ha => ?_, h.book.index, h.hands, h.incoming, h.apart,
    h.book.trades, congrArg Prod.snd h.outlet⟩
  · have hfind : S.engine.level? s l.1 = some l.2 := (SortedMap.mem_entries_iff _ _ _).mp hl
    have hmem : (l.1, l.2.rename ρ) ∈ (S'.engine.levels s).entries := by
      rw [hlevels]
      exact List.mem_map.mpr ⟨l, hl, rfl⟩
    have hfind' : S'.engine.level? s l.1 = some (l.2.rename ρ) :=
      (SortedMap.mem_entries_iff _ _ _).mp hmem
    rw [hr.queue_eq hfind, hr'.queue_eq hfind', h.book.queue_eq, refs_rename]
  · obtain ⟨r, hrs, rfl⟩ := h.sound.wellFormed.mem_orders.mp ha
    have hcell := hr'.cell s (r.rename ρ) (h.book.mem hrs)
    rw [hr.cell s r hrs]
    exact hcell

/-- Whatever the sizes of the two pools, the same calls return on both and end in the same
market up to the names of the cells. -/
theorem run_sameUpTo (poolSize poolSize' : Nat) (udpPub : Bool) {ops : List HandOp}
    (hok : Along act Holds (new poolSize udpPub) ops) :
    ∃ S S' ρ, run act (new poolSize udpPub) ops = some S ∧
      run act (new poolSize' udpPub) ops = some S' ∧ SameUpTo ρ S S' := by
  have hstep : ∀ (S S' : Session) (op : HandOp), (∃ ρ, Twins ρ S S') → S.Holds op →
      ∃ T T', S.act op = some T ∧ S'.act op = some T' ∧ ∃ ρ, Twins ρ T T' := by
    rintro S S' op ⟨ρ, h⟩ hop
    obtain ⟨op1, hresolve, howned⟩ := hop.resolve
    obtain ⟨ρ', T, T', hs, hs', h'⟩ := h.step howned
    refine ⟨T, T', ?_, ?_, ρ', h'⟩
    · rw [act, hresolve]
      exact hs
    · rw [act, h.hands, HandOp.resolve_rename, hresolve]
      exact hs'
  have hnew : ∃ ρ, Twins ρ (new poolSize udpPub) (new poolSize' udpPub) :=
    ⟨id, new_twins poolSize poolSize' udpPub⟩
  obtain ⟨S, S', hS, hS', ρ, h⟩ := run_related (f := id) hstep hnew hok
  rw [List.map_id] at hS'
  exact ⟨S, S', ρ, hS, hS', h.sameUpTo⟩

/-- A pool of three and none at all: a cell is freed and handed out again between two
orders that are acquired together. -/
theorem run_sameUpTo_recycled :
    let ops : List HandOp := [.acquire 1 100 5 .sell false, .acquire 2 101 4 .sell false,
      .process 1 10 11, .cancel 1 12, .acquire 3 101 9 .buy false, .process 1 13 14,
      .process 0 15 16]
    ∃ S S' ρ, run act (new 3 true) ops = some S ∧ run act (new 0 true) ops = some S' ∧
      S.engine.orderMap 3 ≠ S'.engine.orderMap 3 ∧ SameUpTo ρ S S' := by
  intro ops
  obtain ⟨S, S', ρ, hS, hS', h⟩ := run_sameUpTo 3 0 true
    (show Along act Holds (new 3 true) ops by decide)
  have hend : (run act (new 3 true) ops).map (fun S => S.engine.orderMap 3) = some (some 2) := by
    decide +kernel
  have hend' : (run act (new 0 true) ops).map (fun S => S.engine.orderMap 3) = some (some 0) := by
    decide +kernel
  rw [hS] at hend
  rw [hS'] at hend'
  refine ⟨S, S', ρ, hS, hS', fun hsame => ?_, h⟩
  have hcells := (Option.some.inj hend).symm.trans (hsame.trans (Option.some.inj hend'))
  exact absurd hcells (by decide)

end Session
end LobCity
