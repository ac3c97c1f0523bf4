import LobCity.BookInvariant

/-! Queue priority over whole histories. Each resting order carries a ghost stamp, fresh
when it goes to the back of a queue and kept otherwise; every side stays strictly sorted
by price, then stamp, and every fill takes the first order of its side. -/
namespace LobCity
open Library

def Ahead (s : Side) (stamp : Addr → Nat) (x y : Addr × Price) : Prop :=
  s.better x.2 y.2 ∨ x.2 = y.2 ∧ stamp x.1 < stamp y.1

def InLine (s : Side) (stamp : Addr → Nat) (L : List Resting) : Prop :=
  (keys L).Pairwise (Ahead s stamp)

section InLine
variable {s : Side} {stamp stamp' : Addr → Nat} {L : List Resting} {r : Resting}

theorem InLine.congr (h : InLine s stamp L) (hs : ∀ a ∈ refs L, stamp' a = stamp a) :
    InLine s stamp' L := by
  refine List.Pairwise.imp_of_mem (fun {x y} hx hy hxy => ?_) h
  have hm : ∀ z ∈ keys L, stamp' z.1 = stamp z.1 := fun z hz =>
    hs z.1 (map_fst_keys L ▸ List.mem_map_of_mem hz)
  unfold Ahead
  rw [hm x hx, hm y hy]
  exact hxy

theorem InLine.of_keys {L' : List Resting} (h : InLine s stamp L)
    (hk : (keys L').Sublist (keys L)) : InLine s stamp L' :=
  List.Pairwise.sublist hk h

theorem InLine.cons {x : Resting} :
    InLine s stamp (x :: L) ↔
      (∀ y ∈ L, Ahead s stamp (x.ref, x.price) (y.ref, y.price)) ∧ InLine s stamp L := by
  simp [InLine, keys]

theorem InLine.enqueue (h : InLine s stamp L) (hs : Book.Sorted s L)
    (hr : ∀ x ∈ L, stamp x.ref < stamp r.ref) : InLine s stamp (Book.enqueue s r L) := by
  induction L with
  | nil => exact List.pairwise_singleton _ _
  | cons x L ih =>
    obtain ⟨hx, hL⟩ := InLine.cons.mp h
    rw [Book.enqueue_cons]
    split_ifs with hb
    · exact InLine.cons.mpr ⟨fun y hy => Or.inl (Book.worse_behind hs hb hy), h⟩
    · refine InLine.cons.mpr ⟨fun y hy => ?_, ih hL hs.of_cons fun y hy => hr y (by simp [hy])⟩
      cases Book.mem_enqueue.mp hy with
      | inl h =>
        obtain rfl := h
        by_cases he : x.price = y.price
        · exact Or.inr ⟨he, hr x (by simp)⟩
        · refine Or.inl ?_
          cases s <;> simp only [Side.better] at hb ⊢ <;> grind
      | inr hy =>
        exact hx y hy

theorem InLine.queue (h : InLine s stamp L) (p : Price) :
    (refs (L.filter fun r => r.price = p)).Pairwise fun a c => stamp a < stamp c := by
  have hsub : InLine s stamp (L.filter fun r => r.price = p) :=
    h.of_keys (List.filter_sublist.map _)
  rw [refs, List.pairwise_map]
  refine List.Pairwise.imp_of_mem (fun {x y} hx hy hxy => ?_) (List.pairwise_map.mp hsub)
  have hpx : x.price = p := of_decide_eq_true (List.mem_filter.mp hx).2
  have hpy : y.price = p := of_decide_eq_true (List.mem_filter.mp hy).2
  cases hxy with
  | inl hb =>
    rw [hpx, hpy] at hb
    exact absurd hb (Std.Irrefl.irrefl p)
  | inr hlt =>
    exact hlt.2

end InLine

/-- Both sides in line, under stamps given out before `clock`. -/
structure Book.Lined (b : Book) (stamp : Addr → Nat) (clock : Nat) : Prop where
  inLine : ∀ s, InLine s stamp (b.side s)
  stamped : ∀ s, ∀ r ∈ b.side s, stamp r.ref < clock

namespace Book.Lined
variable {b b' : Book} {stamp : Addr → Nat} {clock : Nat}

/-- Losing orders, and editing ids and quantities, keeps the line. -/
theorem of_keys (h : b.Lined stamp clock)
    (hk : ∀ s, (keys (b'.side s)).Sublist (keys (b.side s))) : b'.Lined stamp clock := by
  refine ⟨fun s => (h.inLine s).of_keys (hk s), fun s r hr => ?_⟩
  have hm : r.ref ∈ refs (b.side s) :=
    map_fst_keys _ ▸ ((hk s).map Prod.fst).subset (map_fst_keys _ ▸ List.mem_map_of_mem hr)
  obtain ⟨x, hx, he⟩ := List.mem_map.mp hm
  exact he ▸ h.stamped s x hx

theorem release (h : b.Lined stamp clock) (a : Addr) : (b.release a).Lined stamp clock :=
  ⟨h.inLine, h.stamped⟩

theorem matched (h : b.Lined stamp clock) (o : Incoming) (time : Timestamp) :
    (b.matched o time).Lined stamp clock :=
  h.of_keys fun s => by
    rw [side_matched]
    split_ifs with hs
    · subst hs
      rw [keys_execution o.reaches (b.side o.side.opposite) o.quantity]
      exact List.sublist_append_right _ _
    · exact List.Sublist.refl _

theorem removed (h : b.Lined stamp clock) (s : Side) (r : Resting) :
    ((b.eraseId r.id).drop s r.ref).Lined stamp clock :=
  h.of_keys fun t => by
    unfold drop
    by_cases ht : t = s
    · subst ht
      rw [setSide_self]
      exact List.filter_sublist.map _
    · rw [setSide_of_ne _ _ ht]
      exact List.Sublist.refl _

theorem inPlace (h : b.Lined stamp clock) (s : Side) (r : Resting) (id : OrderId) (q : Quantity) :
    (b.inPlace s r id q).Lined stamp clock := by
  refine h.of_keys fun t => ?_
  have hk : keys ((b.inPlace s r id q).side t) = keys (b.side t) := by
    show keys ((b.rewrite s r.ref id q).side t) = _
    unfold rewrite
    by_cases ht : t = s
    · subst ht
      rw [setSide_self, keys, keys, List.map_map]
      refine List.map_congr_left fun x _ => ?_
      simp only [Function.comp]
      split <;> rfl
    · rw [setSide_of_ne _ _ ht]
  rw [hk]

theorem rest (h : b.Lined stamp clock) (hs : ∀ s, Sorted s (b.side s)) {o : Incoming}
    (ho : ∀ s, o.ref ∉ refs (b.side s)) :
    (b.rest o).Lined (Function.update stamp o.ref clock) (clock + 1) := by
  have hkeep : ∀ s, ∀ a ∈ refs (b.side s), Function.update stamp o.ref clock a = stamp a :=
    fun s a ha => Function.update_of_ne (by rintro rfl; exact ho s ha) _ _
  have hold : ∀ s, InLine s (Function.update stamp o.ref clock) (b.side s) := fun s =>
    (h.inLine s).congr (hkeep s)
  refine ⟨fun s => ?_, fun s r hr => ?_⟩
  · by_cases hside : s = o.side
    · subst hside
      have hrest : (b.rest o).side o.side = enqueue o.side o.resting (b.side o.side) :=
        setSide_self _ _ _
      rw [hrest]
      refine (hold o.side).enqueue (hs o.side) fun x hx => ?_
      rw [hkeep o.side x.ref (List.mem_map_of_mem hx)]
      simpa [Incoming.resting] using h.stamped o.side x hx
    · have hrest : (b.rest o).side s = b.side s := setSide_of_ne _ _ hside
      rw [hrest]
      exact hold s
  · cases Represents.mem_rest.mp hr with
    | inl h =>
      obtain ⟨-, rfl⟩ := h
      simp [Incoming.resting]
    | inr hr =>
      rw [hkeep s r.ref (List.mem_map_of_mem hr)]
      exact Nat.lt_succ_of_lt (h.stamped s r hr)

end Book.Lined

/-- A session with a stamp for every cell. -/
structure Stamped where
  session : Session
  stamp : Addr → Nat
  clock : Nat

namespace Stamped

def new (poolSize : Nat) (udpPub : Bool) : Stamped := ⟨Session.new poolSize udpPub, fun _ => 0, 0⟩

/-- The order that the call put at the back of a queue: a submitted order that now rests,
or a modified one, unless it only shrank at its price. -/
def queued (S S' : Session) : Op → Option Addr
  | .acquire .. | .cancel .. => none
  | .process order _ _ =>
    if order ∈ S'.engine.orders .buy ++ S'.engine.orders .sell then some order else none
  | .modify origId _ newPrice newQty _ =>
    (S.engine.orderMap origId).filter fun order =>
      !decide (newPrice = (S.engine.heap order).price ∧ newQty < (S.engine.heap order).quantity)

def mark (T : Stamped) (S : Session) : Option Addr → Stamped
  | none => { T with session := S }
  | some order => ⟨S, Function.update T.stamp order T.clock, T.clock + 1⟩

def step (T : Stamped) (op : Op) : Option Stamped :=
  (T.session.step op).map fun S => T.mark S (queued T.session S op)

theorem step_session (T : Stamped) (op : Op) :
    (T.step op).map session = T.session.step op := by
  have hmark : ∀ S, (T.mark S (queued T.session S op)).session = S := fun S => by
    cases queued T.session S op <;> rfl
  unfold step
  rw [Option.map_map]
  cases T.session.step op with
  | none => rfl
  | some S => exact congrArg some (hmark S)

/-- The invariant: a regular session, both sides in line. -/
structure Fair (T : Stamped) : Prop where
  regular : T.session.Regular
  lined : T.session.engine.book.Lined T.stamp T.clock

theorem new_fair (poolSize : Nat) (udpPub : Bool) : (new poolSize udpPub).Fair := by
  obtain ⟨-, hb⟩ := Engine.new_wellFormed poolSize udpPub
  refine ⟨Session.new_regular poolSize udpPub, ?_⟩
  show (Engine.new poolSize udpPub).book.Lined _ _
  rw [hb]
  exact ⟨fun s => List.Pairwise.nil, fun s r hr => by simp [Book.new] at hr⟩

theorem mem_orders_iff {S : Session} (h : S.Sound) {s : Side} {a : Addr} :
    a ∈ S.engine.orders s ↔ a ∈ refs (S.engine.book.side s) := by
  rw [h.wellFormed.represents.orders_eq]

theorem Fair.mark_none {T : Stamped} {S : Session} (hS : S.Regular)
    (hl : S.engine.book.Lined T.stamp T.clock) : (T.mark S none).Fair := ⟨hS, hl⟩

theorem Fair.mark_some {T : Stamped} {S : Session} {order : Addr} (hS : S.Regular)
    (hl : S.engine.book.Lined (Function.update T.stamp order T.clock) (T.clock + 1)) :
    (T.mark S (some order)).Fair := ⟨hS, hl⟩

section Calls
variable {T : Stamped} {S' : Session}

theorem Fair.process (h : T.Fair) {order : Addr} {time now : Timestamp}
    (hmem : order ∈ T.session.hands) (hS' : S'.Regular)
    (hb : S'.engine.book = T.session.engine.book.process (T.session.engine.incoming order) time) :
    (T.mark S' (queued T.session S' (.process order time now))).Fair := by
  have hrep := h.regular.wellFormed.represents
  have hl := h.lined
  have hout : ∀ s, order ∉ refs (T.session.engine.book.side s) := fun s hm =>
    hrep.not_mem_refs (List.mem_map_of_mem hmem) s hm
  cases Book.process_cases T.session.engine.book (T.session.engine.incoming order) time with
  | inl hp =>
    obtain ⟨-, -, hp⟩ := hp
    -- the remainder rests
    have hrests : order ∈ S'.engine.orders .buy ++ S'.engine.orders .sell := by
      have hm : order ∈ refs (S'.engine.book.side (T.session.engine.incoming order).side) := by
        rw [hb, hp]
        exact List.mem_map.mpr ⟨_, Represents.mem_rest.mpr (Or.inl ⟨rfl, rfl⟩), rfl⟩
      rw [List.mem_append, mem_orders_iff hS'.toSound, mem_orders_iff hS'.toSound]
      cases hside : (T.session.engine.incoming order).side
      · exact Or.inl (hside ▸ hm)
      · exact Or.inr (hside ▸ hm)
    rw [queued, if_pos hrests]
    refine Fair.mark_some hS' ?_
    rw [hb, hp]
    exact (hl.matched _ time).rest (Book.Sorted.matched hrep.sorted _ time)
      fun s => Book.not_mem_matched (hout s) _ time
  | inr hp =>
    obtain ⟨-, hp⟩ := hp
    -- nothing rests
    have hgone : order ∉ S'.engine.orders .buy ++ S'.engine.orders .sell := by
      rw [List.mem_append, mem_orders_iff hS'.toSound, mem_orders_iff hS'.toSound, hb, hp]
      exact not_or.mpr ⟨Book.not_mem_matched (hout .buy) _ time,
        Book.not_mem_matched (hout .sell) _ time⟩
    rw [queued, if_neg hgone]
    refine Fair.mark_none hS' ?_
    rw [hb, hp]
    exact (hl.matched _ time).release _

/-- A modified order keeps its stamp if it only shrinks, and is queued again otherwise. -/
theorem Fair.modify (h : T.Fair) {origId newId : OrderId} {newPrice : Price} {newQty : Quantity}
    {now : Timestamp} (hS' : S'.Regular)
    (hb : S'.engine.book = T.session.engine.book.modify origId newId newPrice newQty) :
    (T.mark S' (queued T.session S' (.modify origId newId newPrice newQty now))).Fair := by
  have hrep := h.regular.wellFormed.represents
  have hd := h.regular.toSound.distinct
  have hl := h.lined
  rcases Book.modify_cases hd h.regular.indexed origId newId newPrice newQty with
    ⟨hn, hm⟩ | ⟨s, r, hr, rfl, hk, ⟨hp, hq, hm⟩ | ⟨hne, hm⟩⟩
  · have hnone : queued T.session S' (.modify origId newId newPrice newQty now) = none := by
      rw [queued, show T.session.engine.orderMap origId = none from hn]
      rfl
    rw [hnone]
    refine Fair.mark_none hS' ?_
    rw [hb, hm]
    exact hl
  · have hnone : queued T.session S' (.modify r.id newId newPrice newQty now) = none := by
      rw [queued, show T.session.engine.orderMap r.id = some r.ref from hk]
      simp [hrep.heap_price hr, hrep.heap_quantity hr, hp, hq]
    rw [hnone]
    refine Fair.mark_none hS' ?_
    rw [hb, hm]
    exact hl.inPlace s r newId newQty
  · have hsome : queued T.session S' (.modify r.id newId newPrice newQty now) = some r.ref := by
      rw [queued, show T.session.engine.orderMap r.id = some r.ref from hk, Option.filter_some,
        hrep.heap_price hr, hrep.heap_quantity hr, decide_eq_false hne]
      rfl
    rw [hsome]
    refine Fair.mark_some hS' ?_
    rw [hb, hm]
    exact (hl.removed s r).rest (Book.Sorted.removed hrep.sorted s r)
      (Book.not_mem_removed hd hr)

theorem Fair.step (h : T.Fair) {op : Op} (hok : T.session.Admissible op) :
    ∃ T', T.step op = some T' ∧ T'.Fair := by
  obtain ⟨S', hs, hS', hb, -⟩ := h.regular.step hok
  have hd := h.regular.toSound.distinct
  have hl := h.lined
  refine ⟨T.mark S' (queued T.session S' op), by rw [Stamped.step, hs]; rfl, ?_⟩
  cases op with
  | acquire id p q s m =>
    refine Fair.mark_none hS' ?_
    rw [hb]
    exact hl.of_keys fun s => by simp [Session.bookAfter]
  | process order time now => exact h.process hok.1 hS' hb
  | cancel id now =>
    refine Fair.mark_none hS' ?_
    rw [hb]
    cases Book.cancel_cases hd h.regular.indexed id with
    | inl hc =>
      rwa [Session.bookAfter, hc.2]
    | inr h =>
      obtain ⟨s, r, hr, rfl, -, hc⟩ := h
      rw [Session.bookAfter, hc]
      exact (hl.removed s r).release _
  | modify origId newId newPrice newQty now => exact h.modify hS' hb

end Calls

/-- No order jumps a queue: levels are in stamp order, and each fill of a submitted order
takes, of all the orders then resting on the other side, the one with priority. -/
structure PriorityRespected (T : Stamped) : Prop where
  increasing : ∀ s p lvl, T.session.engine.level? s p = some lvl →
    (T.session.engine.queue lvl).Pairwise fun a c => T.stamp a < T.stamp c
  takes_first : ∀ order time now, T.session.Admissible (.process order time now) →
    ∃ fills e1 e', T.session.engine.traceIncoming order time = some (fills, e1) ∧
      T.session.engine.processOrder order time now = some e' ∧
      e'.tradeLog = T.session.engine.tradeLog ++
        fills.map (Engine.tradeOf (T.session.engine.heap order).side.opposite time order) ∧
      ∀ f ∈ fills, f.2 ∈ f.1.orders (T.session.engine.heap order).side.opposite ∧
        ∀ c ∈ f.1.orders (T.session.engine.heap order).side.opposite, c ≠ f.2 →
          Ahead (T.session.engine.heap order).side.opposite T.stamp
            (f.2, (f.1.heap f.2).price) (c, (f.1.heap c).price)
  only_matching : ∀ op T', T.session.Admissible op → T.step op = some T' →
    (∀ order time now, op ≠ .process order time now) →
    T'.session.engine.tradeLog = T.session.engine.tradeLog

/-- The first order of a side in line is ahead of all the others. -/
theorem takes_ahead {b : Book} {s : Side} {stamp : Addr → Nat} {f : Engine × Addr}
    (hl : InLine s stamp (b.side s)) (h : Takes s b f) :
    f.2 ∈ f.1.orders s ∧ ∀ c ∈ f.1.orders s, c ≠ f.2 →
      Ahead s stamp (f.2, (f.1.heap f.2).price) (c, (f.1.heap c).price) := by
  obtain ⟨hole, hands, b', r, L, hr, hside, hf, hk⟩ := h
  have hl' : InLine s stamp (b'.side s) := hl.of_keys hk.sublist
  rw [hside] at hl'
  have hr0 : r ∈ b'.side s := by rw [hside]; simp
  rw [hr.orders_eq, ← hf]
  refine ⟨List.mem_map_of_mem hr0, fun c hc hne => ?_⟩
  obtain ⟨x, hx, rfl⟩ := List.mem_map.mp hc
  rw [hr.heap_price hr0, hr.heap_price hx]
  rw [hside] at hx
  have hx : x ∈ L := (List.mem_cons.mp hx).resolve_left fun h => hne (congrArg Resting.ref h)
  exact (InLine.cons.mp hl').1 x hx

theorem Fair.priorityRespected {T : Stamped} (h : T.Fair) : T.PriorityRespected where
  increasing s p lvl hl := by
    have hrep := h.regular.wellFormed.represents
    rw [hrep.queue_eq hl]
    exact (h.lined.inLine s).queue p
  takes_first order time now hok := by
    obtain ⟨F, e1, e', hF, he, ht, hf⟩ := h.regular.wellFormed.traceIncoming hok.1 time now
    exact ⟨F, e1, e', hF, he, ht, fun f hmem => takes_ahead (h.lined.inLine _) (hf f hmem)⟩
  only_matching op T' hok hs hop := by
    obtain ⟨S', hS', -, hb, -⟩ := h.regular.step hok
    have hT : some T'.session = some S' := by
      rw [← hS', ← step_session, hs]
      rfl
    obtain hT := Option.some.inj hT
    have htr : T'.session.engine.tradeLog = T'.session.engine.book.trades := rfl
    rw [htr, hT, hb]
    cases op with
    | acquire id p q s m => exact Book.trades_acquire _ _ _ _ _ _
    | process order time now => exact absurd rfl (hop order time now)
    | cancel id now => exact Book.trades_cancel _ id
    | modify origId newId newPrice newQty now => exact Book.trades_modify _ origId newId newPrice newQty

/-- Over every well-behaved history no order jumps a queue. -/
theorem run_priorityRespected {poolSize : Nat} {udpPub : Bool} {ops : List Op}
    (hok : Along step (fun T op => T.session.Admissible op) (new poolSize udpPub) ops) :
    ∃ T, run step (new poolSize udpPub) ops = some T ∧ T.PriorityRespected := by
  obtain ⟨T, hT, h⟩ := run_invariant (fun T op h hop => h.step hop) (new_fair poolSize udpPub) hok
  exact ⟨T, hT, h.priorityRespected⟩

theorem run_priorityRespected_requeue :
    ∃ T, run step (new 4 false) [.acquire 1 100 5 .sell false, .process 3 10 11,
      .acquire 2 100 4 .sell false, .process 2 12 13, .acquire 3 100 6 .sell false, .process 1 14 15,
      .modify 1 1 100 2 16, .modify 2 2 100 9 17, .acquire 4 100 12 .buy false] = some T ∧
      T.PriorityRespected :=
  run_priorityRespected (by decide)

end Stamped
end LobCity
