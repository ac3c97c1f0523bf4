import LobCity.BookInvariant
import LobCity.Depth
import LobCity.Levels

/-! The totals of the levels, in 32 bits and in full. A total is the sum of its orders
modulo 2^32; only a call that puts an order on a level whose shares then reach 2^32 makes
the two differ, and one that leaves a remainder or re-queues an order can be that. -/
namespace LobCity
open Library

section Sums
variable {L M : List Resting}

theorem depth_append (L M : List Resting) : depth (L ++ M) = depth L + depth M := by
  rw [depth, total, List.map_append, List.sum_append]
  rfl

theorem depth_filter_le (p : Resting → Bool) (L : List Resting) : depth (L.filter p) ≤ depth L := by
  induction L with
  | nil => exact Nat.le_refl 0
  | cons r L ih =>
    rw [List.filter_cons, depth_cons]
    split_ifs
    · rw [depth_cons]
      exact Nat.add_le_add_left ih _
    · exact Nat.le_add_left_of_le ih

theorem depth_map_le {g : Resting → Resting} (h : ∀ r ∈ L, (g r).quantity ≤ r.quantity) :
    depth (L.map g) ≤ depth L := by
  induction L with
  | nil => exact Nat.le_refl 0
  | cons r L ih =>
    have hr := UInt32.le_iff_toNat_le.mp (h r (by simp))
    have ih := ih fun x hx => h x (by simp [hx])
    rw [List.map_cons, depth_cons, depth_cons]
    exact Nat.add_le_add hr ih

/-- The 32-bit sum is the sum modulo 2^32. -/
theorem toNat_volume (L : List Resting) : (volume L).toNat = depth L % 2 ^ 32 := by
  induction L with
  | nil => rfl
  | cons r L ih =>
    rw [volume_cons, depth_cons, UInt32.toNat_add, ih]
    omega

theorem volume_exact_iff : (volume L).toNat = depth L ↔ depth L < 2 ^ 32 := by
  rw [toNat_volume]
  omega

/-- What an execution leaves at a price is not more than what was there. -/
theorem depth_execution_le (reaches : Price → Bool) (L : List Resting) (q : Quantity) (p : Price) :
    depth ((fillGreedily reaches L q).rest.filter fun r => r.price = p) ≤
      depth (L.filter fun r => r.price = p) := by
  cases fillGreedily_split reaches L q with
  | inl h =>
    obtain ⟨hL, -⟩ := h
    conv_rhs => rw [hL, List.filter_append, depth_append]
    exact Nat.le_add_left _ _
  | inr h =>
    obtain ⟨r, B, f, hL, -, -, hf, hrest, -⟩ := h
    have hle : (r.quantity - f).toNat ≤ r.quantity.toNat := by
      rw [UInt32.toNat_sub_of_le _ _ (by grind)]
      exact Nat.sub_le _ _
    conv_rhs => rw [hL, List.filter_append, depth_append]
    rw [hrest, List.filter_cons, List.filter_cons]
    split_ifs
    · rw [depth_cons, depth_cons]
      show (r.quantity - f).toNat + _ ≤ _
      omega
    · exact Nat.le_add_left _ _

end Sums

namespace Book
variable {b : Book} {s : Side} {r : Resting} {o : Incoming}

/-- No price holds 2^32 shares. -/
def Fitting (b : Book) : Prop := ∀ s p, depth (b.queue s p) < 2 ^ 32

theorem Fitting.mono {b' : Book} (hf : b.Fitting)
    (h : ∀ s p, depth (b'.queue s p) ≤ depth (b.queue s p)) : b'.Fitting :=
  fun s p => (h s p).trans_lt (hf s p)

theorem depth_matched (b : Book) (o : Incoming) (time : Timestamp) (s : Side) (p : Price) :
    depth ((b.matched o time).queue s p) ≤ depth (b.queue s p) := by
  rw [queue, side_matched, queue]
  split_ifs with hs
  · rw [hs]
    exact depth_execution_le _ _ _ _
  · exact Nat.le_refl _

theorem depth_drop (b : Book) (s : Side) (a : Addr) (t : Side) (p : Price) :
    depth ((b.drop s a).queue t p) ≤ depth (b.queue t p) := by
  rw [Represents.queue_drop]
  split_ifs
  · exact depth_filter_le _ _
  · exact Nat.le_refl _

theorem depth_inPlace (hd : b.Distinct) (hr : r ∈ b.side s) {newQty : Quantity}
    (hq : newQty ≤ r.quantity) (newId : OrderId) (t : Side) (p : Price) :
    depth ((b.inPlace s r newId newQty).queue t p) ≤ depth (b.queue t p) := by
  have hqueue : (b.inPlace s r newId newQty).queue t p = (b.rewrite s r.ref newId newQty).queue t p :=
    rfl
  rw [hqueue, Represents.queue_rewrite]
  split_ifs with ht
  · refine depth_map_le fun x hx => ?_
    split_ifs with hxr
    · obtain ⟨-, rfl⟩ := hd.unique (List.mem_filter.mp hx).1 hr hxr
      exact hq
    · exact UInt32.le_refl _
  · exact Nat.le_refl _

theorem fitting_rest (hs : Sorted o.side (b.side o.side)) (hf : b.Fitting) :
    (b.rest o).Fitting ↔ depth (b.queue o.side o.price) + o.quantity.toNat < 2 ^ 32 := by
  have hone : depth [o.resting] = o.quantity.toNat := by
    rw [depth_cons, depth_nil]
    rfl
  constructor
  · intro h
    have hown := h o.side o.price
    rwa [Represents.queue_rest hs, if_pos ⟨rfl, rfl⟩, depth_append, hone] at hown
  · intro h s p
    rw [Represents.queue_rest hs]
    split_ifs with hsp
    · obtain ⟨rfl, rfl⟩ := hsp
      rwa [depth_append, hone]
    · exact hf s p

/-- The remainder of a limit order brings the level of its price to 2^32 shares. -/
def RemainderOverfills (b : Book) (o : Incoming) : Prop :=
  o.isMarket = false ∧ depth (b.reached o) < o.quantity.toNat ∧
    2 ^ 32 ≤ depth (b.queue o.side o.price) + (o.quantity.toNat - depth (b.reached o))

/-- A modify queues its order again, behind orders with which it makes up 2^32 shares. -/
def RequeueOverfills (b : Book) (origId : OrderId) (newPrice : Price) (newQty : Quantity) : Prop :=
  ∃ s, ∃ r ∈ b.side s, b.index origId = some r.ref ∧
    ¬ (newPrice = r.price ∧ newQty < r.quantity) ∧
    2 ^ 32 ≤ depth ((b.queue s newPrice).filter fun x => x.ref ≠ r.ref) + newQty.toNat

theorem fitting_process (hs : ∀ s, Sorted s (b.side s)) (hf : b.Fitting) (time : Timestamp) :
    (b.process o time).Fitting ↔ ¬ b.RemainderOverfills o := by
  have hmatched : (b.matched o time).Fitting := hf.mono (b.depth_matched o time)
  have hside : (b.matched o time).side o.side = b.side o.side := by
    rw [side_matched, if_neg (side_opposite_ne o.side)]
  have hqueue : (b.matched o time).queue o.side o.price = b.queue o.side o.price := by
    rw [queue, hside, queue]
  cases process_cases b o time with
  | inl h =>
    obtain ⟨hm, hleft, hproc⟩ := h
    have hreached := left_pos_iff.mp hleft
    have hnat := (execution_through (usesUp_of_lt hreached)).2
    have hrest := fitting_rest (o := { o with quantity := (b.execution o).left })
      (by rw [hside]; exact hs _) hmatched
    rw [hproc, hrest]
    show depth ((b.matched o time).queue o.side o.price) + (b.execution o).left.toNat < _ ↔ _
    rw [hqueue, hnat]
    constructor
    · intro hlt hover
      exact absurd hover.2.2 (Nat.not_le.mpr hlt)
    · intro hnot
      exact Nat.not_le.mp fun hle => hnot ⟨hm, hreached, hle⟩
  | inr h =>
    obtain ⟨hnone, hproc⟩ := h
    rw [hproc]
    refine iff_of_true hmatched fun hover => ?_
    have hleft : 0 < (b.execution o).left := left_pos_iff.mpr hover.2.1
    cases hnone with
    | inl hm => exact absurd (hm.symm.trans hover.1) (by decide)
    | inr hz => exact absurd hleft (by rw [hz]; decide)

theorem Fitting.cancel (hf : b.Fitting) (hd : b.Distinct) (hi : b.Indexed) (id : OrderId) :
    (b.cancel id).Fitting := by
  cases cancel_cases hd hi id with
  | inl h =>
    rw [h.2]
    exact hf
  | inr h =>
    obtain ⟨s, r, -, -, -, hcancel⟩ := h
    rw [hcancel]
    exact hf.mono (depth_drop (b.eraseId id) s r.ref)

theorem fitting_modify (hs : ∀ s, Sorted s (b.side s)) (hf : b.Fitting) (hd : b.Distinct)
    (hi : b.Indexed) (origId newId : OrderId) (newPrice : Price) (newQty : Quantity) :
    (b.modify origId newId newPrice newQty).Fitting ↔ ¬ b.RequeueOverfills origId newPrice newQty := by
  cases hk : b.index origId with
  | none =>
    rw [modify_unknown hk]
    refine iff_of_true hf fun hover => ?_
    obtain ⟨s, r, -, hkr, -⟩ := hover
    exact absurd (hk.symm.trans hkr) (by simp)
  | some a =>
    obtain ⟨s, r, hr, rfl, rfl⟩ := hi origId a hk
    have honly : b.RequeueOverfills r.id newPrice newQty ↔
        ¬ (newPrice = r.price ∧ newQty < r.quantity) ∧
          2 ^ 32 ≤ depth ((b.queue s newPrice).filter fun x => x.ref ≠ r.ref) + newQty.toNat := by
      constructor
      · intro hover
        obtain ⟨t, x, hx, hkx, hcase⟩ := hover
        obtain ⟨rfl, rfl⟩ := hd.unique hx hr (Option.some.inj (hkx.symm.trans hk))
        exact hcase
      · exact fun hcase => ⟨s, r, hr, hk, hcase⟩
    rw [modify_entry hd hr hk, honly]
    split_ifs with hcase
    · refine iff_of_true (hf.mono (depth_inPlace hd hr ?_ newId)) fun hnot => hnot.1 hcase
      grind
    · have hdropped : ((b.eraseId r.id).drop s r.ref).Fitting :=
        hf.mono (depth_drop (b.eraseId r.id) s r.ref)
      have hqueue : ((b.eraseId r.id).drop s r.ref).queue s newPrice =
          (b.queue s newPrice).filter fun x => x.ref ≠ r.ref := by
        rw [Represents.queue_drop, if_pos rfl]
        rfl
      have hrest := fitting_rest (o := ⟨r.ref, newId, newPrice, newQty, s, false⟩)
        (Sorted.removed hs s r s) hdropped
      rw [requeue, hrest, hqueue]
      constructor
      · intro hlt hover
        exact absurd hover.2 (Nat.not_le.mpr hlt)
      · intro hnot
        exact Nat.not_le.mp fun hle => hnot ⟨hcase, hle⟩

end Book

namespace Engine
variable {e : Engine} {hands : List Addr}

def shares (e : Engine) (L : List Addr) : Nat := (L.map fun a => (e.heap a).quantity.toNat).sum

/-- Every stored total, and the quantity of both best prices in a snapshot, is the number of
shares that it stands for. -/
structure TotalsExact (e : Engine) : Prop where
  level : ∀ s p lvl, e.level? s p = some lvl → lvl.totalVolume.toNat = e.shares (e.queue lvl)
  bid : ∀ now, (e.bboSnapshot now).bestBidQty.toNat =
    (e.best? .buy).elim 0 fun p => e.shares (e.queueAt .buy p)
  ask : ∀ now, (e.bboSnapshot now).bestAskQty.toNat =
    (e.best? .sell).elim 0 fun p => e.shares (e.queueAt .sell p)

theorem WellFormed.shares_queueAt (h : e.WellFormed hands) (s : Side) (p : Price) :
    e.shares (e.queueAt s p) = depth (e.book.queue s p) := by
  rw [h.queueAt_eq, shares, refs, List.map_map]
  refine congrArg List.sum (List.map_congr_left fun r hr => ?_)
  exact congrArg UInt32.toNat (h.represents.heap_quantity (List.mem_filter.mp hr).1)

theorem WellFormed.snapshotQty_eq (h : e.WellFormed hands) (s : Side) :
    ((e.levels s).first?.map fun l : Price × PriceLevel => l.2.totalVolume).getD 0 =
      (e.best? s).elim 0 fun p => volume (e.book.queue s p) := by
  unfold best?
  cases hf : (e.levels s).first? with
  | none => rfl
  | some l =>
    obtain ⟨hl, -⟩ := SortedMap.first?_eq_some _ hf
    exact (h.represents.level s l.1 l.2 hl).1.totalVolume

theorem WellFormed.totalsExact_iff (h : e.WellFormed hands) : e.TotalsExact ↔ e.book.Fitting := by
  have hlevel : ∀ s p lvl, e.level? s p = some lvl →
      (lvl.totalVolume.toNat = e.shares (e.queue lvl) ↔ depth (e.book.queue s p) < 2 ^ 32) := by
    intro s p lvl hl
    have hq : e.queue lvl = e.queueAt s p := by rw [queueAt, hl]; rfl
    rw [(h.represents.level s p lvl hl).1.totalVolume, hq, h.shares_queueAt, volume_exact_iff]
  constructor
  · intro hexact s p
    cases hl : e.level? s p with
    | none =>
      rw [h.represents.empty s p hl, depth_nil]
      decide
    | some lvl => exact (hlevel s p lvl hl).mp (hexact.level s p lvl hl)
  · intro hfit
    have hbest : ∀ s, (((e.levels s).first?.map fun l : Price × PriceLevel => l.2.totalVolume).getD 0).toNat =
        (e.best? s).elim 0 fun p => e.shares (e.queueAt s p) := by
      intro s
      rw [h.snapshotQty_eq]
      cases e.best? s with
      | none => rfl
      | some p => exact (volume_exact_iff.mpr (hfit s p)).trans (h.shares_queueAt s p).symm
    exact ⟨fun s p lvl hl => (hlevel s p lvl hl).mpr (hfit s p), fun _ => hbest .buy,
      fun _ => hbest .sell⟩

end Engine

namespace Session
variable {S : Session}

def Overfills (S : Session) : Op → Prop
  | .process order _ _ => S.engine.book.RemainderOverfills (S.engine.incoming order)
  | .modify origId _ newPrice newQty _ => S.engine.book.RequeueOverfills origId newPrice newQty
  | .acquire .. | .cancel .. => False

theorem Sound.fitting_iff (h : S.Sound) (hf : S.engine.book.Fitting) (op : Op) :
    (S.bookAfter op).Fitting ↔ ¬ S.Overfills op := by
  have hs := h.wellFormed.represents.sorted
  have hd := h.distinct
  cases op with
  | acquire k p q s m =>
    refine iff_of_true (hf.mono fun t x => ?_) id
    show depth (((S.engine.book.acquire k p q s m).2.side t).filter _) ≤ _
    rw [Book.side_acquire]
    exact Nat.le_refl _
  | process order time now => exact Book.fitting_process hs hf time
  | cancel k now => exact iff_of_true (hf.cancel hd h.indexed k) id
  | modify origId newId newPrice newQty now =>
    exact Book.fitting_modify hs hf hd h.indexed origId newId newPrice newQty

/-- Along a run from the empty book all totals and published quantities are exact after
every call exactly when no call brings a level to 2^32 shares. -/
theorem run_totals_iff {poolSize : Nat} {udpPub : Bool} {ops : List Op}
    (hok : Along step Owned (new poolSize udpPub) ops) :
    (∀ n S, run step (new poolSize udpPub) (ops.take n) = some S → S.engine.TotalsExact) ↔
      Along step (fun S op => ¬ S.Overfills op) (new poolSize udpPub) ops := by
  have hstart := new_sound poolSize udpPub
  have hempty : (new poolSize udpPub).engine.book.Fitting := by
    have hb : (new poolSize udpPub).engine.book = Book.new poolSize :=
      (Engine.new_wellFormed poolSize udpPub).2
    rw [hb]
    intro s p
    show depth [] < _
    decide
  refine forall_prefix_iff (fun S op h hop hP => ?_) hstart
    (hstart.wellFormed.totalsExact_iff.mpr hempty) hok
  obtain ⟨S', hs, h', hb, -⟩ := h.step hop
  refine ⟨S', hs, h', ?_⟩
  rw [h'.wellFormed.totalsExact_iff, hb]
  exact h.fitting_iff (h.wellFormed.totalsExact_iff.mp hP) op

theorem run_totals_iff_two :
    let ops : List Op := [.acquire 1 100 1000000 .buy false, .process 1 10 11,
      .acquire 2 100 1000000 .buy false, .process 0 12 13]
    (∀ n S, run step (new 2 true) (ops.take n) = some S → S.engine.TotalsExact) ↔
      Along step (fun S op => ¬ S.Overfills op) (new 2 true) ops :=
  run_totals_iff (by decide)

/-- New limit buys of 1000000 at price 100, ids 1 to `n`. -/
def pileOps (n : Nat) : List Op :=
  (List.range n).flatMap fun i =>
    [.acquire (UInt64.ofNat (i + 1)) 100 1000000 .buy false, .process i 0 0]

structure Piled (n : Nat) (S : Session) : Prop where
  regular : S.Regular
  total : depth (S.engine.book.queue .buy 100) = n * 1000000
  ids : ∀ r ∈ S.engine.book.side .buy, r.id.toNat ≤ n
  prices : ∀ r ∈ S.engine.book.side .buy, r.price = 100
  sell : S.engine.book.side .sell = []
  free : S.engine.book.free = []
  allocated : S.engine.book.allocated = n
  hands : S.hands = []

theorem new_piled : Piled 0 (new 0 true) := by
  have hb : (new 0 true).engine.book = Book.new 0 := (Engine.new_wellFormed 0 true).2
  refine ⟨new_regular 0 true, ?_, ?_, ?_, ?_, ?_, ?_, rfl⟩
  all_goals
    rw [hb]
    simp [Book.new, Book.queue, depth_nil]

def pileOrder (n : Nat) : Incoming := ⟨n, UInt64.ofNat (n + 1), 100, 1000000, .buy, false⟩

theorem toNat_pileOrder_id {n : Nat} (hn : n < 4295) : (pileOrder n).id.toNat = n + 1 :=
  UInt64.toNat_ofNat_of_lt' (by show n + 1 < 2 ^ 64; omega)

theorem Piled.acquire {n : Nat} (h : Piled n S) (hn : n < 4295) :
    ∃ e, S.step (.acquire (UInt64.ofNat (n + 1)) 100 1000000 .buy false) = some ⟨e, [n]⟩ ∧
      Regular ⟨e, [n]⟩ ∧ e.incoming n = pileOrder n ∧
      e.book = { S.engine.book with allocated := n + 1 } ∧ (pileOrder n).id ∉ e.restingIds := by
  have hacquired : S.engine.book.acquire (UInt64.ofNat (n + 1)) 100 1000000 .buy false =
      (pileOrder n, { S.engine.book with allocated := n + 1 }) := by
    unfold Book.acquire
    split
    · rw [h.allocated, pileOrder]
    · rename_i hfree
      exact absurd (h.free.symm.trans hfree) (by simp)
  obtain ⟨⟨a, e⟩, ha⟩ :
    ∃ x, S.engine.acquire (UInt64.ofNat (n + 1)) 100 1000000 .buy false = x := ⟨_, rfl⟩
  have horder := h.regular.wellFormed.acquire_order _ 100 1000000 .buy false ha
  obtain ⟨-, hb, hin, -⟩ := h.regular.wellFormed.acquire _ 100 1000000 .buy false ha
  rw [hacquired] at horder hb
  obtain rfl : a = n := (congrArg Incoming.ref horder).symm
  have hs : S.step (.acquire (UInt64.ofNat (a + 1)) 100 1000000 .buy false) = some ⟨e, [a]⟩ := by
    simp only [Session.step, ha, h.hands]
  have hok : S.Admissible (.acquire (UInt64.ofNat (a + 1)) 100 1000000 .buy false) := trivial
  obtain ⟨T, hT, h1, -⟩ := h.regular.step hok
  obtain rfl : ⟨e, [a]⟩ = T := Option.some.inj (hs.symm.trans hT)
  refine ⟨e, hs, h1, hin, hb, ?_⟩
  rw [Engine.mem_restingIds, hb]
  intro hrests
  obtain ⟨s, r, hr, hk⟩ := hrests
  cases s with
  | buy =>
    have hle := h.ids r hr
    rw [hk, toNat_pileOrder_id hn] at hle
    omega
  | sell =>
    have hr : r ∈ S.engine.book.side .sell := hr
    rw [h.sell] at hr
    simp at hr

theorem Piled.rest {n : Nat} (h : Piled n S) (hn : n < 4295) {S' : Session} (h' : S'.Regular)
    (hhands : S'.hands = [])
    (hb : S'.engine.book = Book.rest { S.engine.book with allocated := n + 1 } (pileOrder n)) :
    Piled (n + 1) S' := by
  have hqueue := Represents.queue_rest (b := { S.engine.book with allocated := n + 1 })
    (o := pileOrder n) (h.regular.wellFormed.represents.sorted .buy) .buy 100
  refine ⟨h', ?_, fun r hr => ?_, fun r hr => ?_, ?_, ?_, ?_, hhands⟩
  · rw [hb, hqueue, if_pos ⟨rfl, rfl⟩, depth_append]
    have htotal := h.total
    show depth (S.engine.book.queue .buy 100) + 1000000 = _
    omega
  · rw [hb] at hr
    cases Represents.mem_rest.mp hr with
    | inl hr =>
      rw [hr.2]
      exact Nat.le_of_eq (toNat_pileOrder_id hn)
    | inr hr => exact Nat.le_succ_of_le (h.ids r hr)
  · rw [hb] at hr
    cases Represents.mem_rest.mp hr with
    | inl hr => rw [hr.2]; rfl
    | inr hr => exact h.prices r hr
  · rw [hb]
    refine List.eq_nil_iff_forall_not_mem.mpr fun x hx => ?_
    cases Represents.mem_rest.mp hx with
    | inl hx => exact absurd hx.1 (by simp [pileOrder])
    | inr hx =>
      have hx : x ∈ S.engine.book.side .sell := hx
      rw [h.sell] at hx
      simp at hx
  · rw [hb]
    exact h.free
  · rw [hb]
    rfl

/-- Both calls of one more. It meets no seller. -/
theorem Piled.next {n : Nat} (h : Piled n S) (hn : n < 4295) :
    Along step Admissible S
        [.acquire (UInt64.ofNat (n + 1)) 100 1000000 .buy false, .process n 0 0] ∧
      ∃ S', run step S [.acquire (UInt64.ofNat (n + 1)) 100 1000000 .buy false, .process n 0 0] =
        some S' ∧ Piled (n + 1) S' := by
  obtain ⟨e, hs, h1, hin, hb, hfresh⟩ := h.acquire hn
  have hpos : (0 : Quantity) < 1000000 := by decide
  have hadm : Admissible ⟨e, [n]⟩ (.process n 0 0) := by
    refine ⟨by simp, ?_, ?_⟩
    · show 0 < (e.incoming n).quantity
      rw [hin]
      exact hpos
    · show (e.incoming n).id ∉ e.restingIds
      rw [hin]
      exact hfresh
  obtain ⟨S', hS', h', hb', -⟩ := h1.step hadm
  have hrest : S'.engine.book = Book.rest { S.engine.book with allocated := n + 1 } (pileOrder n) := by
    rw [hb']
    show e.book.process (e.incoming n) 0 = _
    rw [hin, hb]
    refine Book.process_clear rfl hpos ?_ 0
    show ∀ x ∈ (S.engine.book.side .sell).head?, _
    rw [h.sell]
    simp
  have hhands : S'.hands = [] := by
    obtain ⟨e2, -, rfl⟩ := Option.map_eq_some_iff.mp hS'
    exact List.erase_cons_head ..
  refine ⟨⟨trivial, fun T hT => ?_⟩, S', by simp only [run, hs, hS', Option.bind_some], h.rest hn h' hhands hrest⟩
  obtain rfl := Option.some.inj (hs.symm.trans hT)
  exact ⟨hadm, fun _ _ => trivial⟩

theorem run_pileOps {n : Nat} (hn : n ≤ 4295) :
    Along step Admissible (new 0 true) (pileOps n) ∧
      ∃ S, run step (new 0 true) (pileOps n) = some S ∧ Piled n S := by
  induction n with
  | zero => exact ⟨trivial, _, rfl, new_piled⟩
  | succ n ih =>
    obtain ⟨hok, S, hS, h⟩ := ih (by omega)
    obtain ⟨hnext, S', hS', h'⟩ := h.next (by omega)
    have hops : pileOps (n + 1) = pileOps n ++
        [.acquire (UInt64.ofNat (n + 1)) 100 1000000 .buy false, .process n 0 0] := by
      rw [pileOps, List.range_succ, List.flatMap_append]
      rfl
    rw [hops, along_append, run_append, hS]
    refine ⟨⟨hok, fun T hT => ?_⟩, S', hS', h'⟩
    obtain rfl := Option.some.inj hT
    exact hnext

/-- The quantity of a new or modified order is between 1 and the default `maxOrderQty`. -/
def Sized : Op → Prop
  | .acquire _ _ q _ _ | .modify _ _ _ q _ => 1 ≤ q ∧ q ≤ 1000000
  | .process .. | .cancel .. => True

theorem pileOps_sized (n : Nat) : ∀ op ∈ pileOps n, Sized op := by
  intro op hop
  obtain ⟨i, -, hi⟩ := List.mem_flatMap.mp hop
  cases List.mem_cons.mp hi with
  | inl he =>
    rw [he]
    exact ⟨by decide, by decide⟩
  | inr he =>
    rw [List.mem_singleton.mp he]
    trivial

-- nothing below computes the list
attribute [irreducible] pileOps

/-- 4295 of them make 4295000000 shares, and the total wraps to 32704. -/
theorem pileOps_wrap :
    Along step Admissible (new 0 true) (pileOps 4295) ∧ (∀ op ∈ pileOps 4295, Sized op) ∧
      ∃ S, run step (new 0 true) (pileOps 4295) = some S ∧
        (∃ lvl, S.engine.level? .buy 100 = some lvl ∧ lvl.totalVolume = 32704 ∧
          S.engine.shares (S.engine.queue lvl) = 4295000000) ∧
        (S.engine.bboSnapshot 0).bestBidQty = 32704 ∧ ¬ S.engine.TotalsExact := by
  obtain ⟨hok, S, hS, h⟩ := run_pileOps (Nat.le_refl 4295)
  have hw := h.regular.wellFormed
  have htotal : depth (S.engine.book.queue .buy 100) = 4295000000 := h.total
  have hvolume : volume (S.engine.book.queue .buy 100) = 32704 := by
    rw [← UInt32.toNat_inj, toNat_volume, htotal]
    rfl
  have hne : S.engine.book.queue .buy 100 ≠ [] := by
    intro hnil
    rw [hnil, depth_nil] at htotal
    exact absurd htotal (by decide)
  obtain ⟨lvl, hl⟩ : ∃ lvl, S.engine.level? .buy 100 = some lvl := by
    cases hl : S.engine.level? .buy 100 with
    | none => exact absurd (hw.represents.empty .buy 100 hl) hne
    | some lvl => exact ⟨lvl, rfl⟩
  have hlvl : lvl.totalVolume = 32704 := (hw.represents.level .buy 100 lvl hl).1.totalVolume.trans hvolume
  have hshares : S.engine.shares (S.engine.queue lvl) = 4295000000 := by
    have hq := hw.shares_queueAt .buy 100
    rw [Engine.queueAt, hl] at hq
    exact hq.trans htotal
  have hbest : S.engine.best? .buy = some 100 := by
    rw [hw.best?_eq]
    cases hside : S.engine.book.side .buy with
    | nil => exact absurd (by rw [Book.queue, hside]; rfl) hne
    | cons r L =>
      have hr : r.price = 100 := h.prices r (by rw [hside]; simp)
      simp [hr]
  have hbid := hw.snapshotQty_eq .buy
  rw [hbest] at hbid
  refine ⟨hok, pileOps_sized 4295, S, hS, ⟨lvl, hl, hlvl, hshares⟩, hbid.trans hvolume, fun hexact => ?_⟩
  have hlevel := hexact.level .buy 100 lvl hl
  rw [hlvl, hshares] at hlevel
  exact absurd hlevel (by decide)

end Session
end LobCity
