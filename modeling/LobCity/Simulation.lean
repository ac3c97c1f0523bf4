import LobCity.Trace

/-! The engine's operations simulate those of the sequence book: first one trade, then
the loop over a level, then the loop over levels, then whole calls. -/
namespace LobCity
open Library

namespace Book
variable {s : Side} {reaches : Price → Bool} {time : Timestamp} {id : OrderId}

theorem sweep_zero (L : List Resting) (b : Book) : sweep s reaches time id L 0 b = (0, b) := by
  cases L <;> simp [sweep]

theorem sweep_cons {r : Resting} {L : List Resting} {q : Quantity} {b : Book} (hq : q ≠ 0)
    (hr : reaches r.price = true) :
    sweep s reaches time id (r :: L) q b =
      sweep s reaches time id L (q - min q r.quantity) (b.consume s time id q) := by
  simp [sweep, hq, hr]

theorem sweep_append {Q R : List Resting} {q : Quantity} {b : Book}
    (hQ : ∀ r ∈ Q, reaches r.price = true) :
    sweep s reaches time id (Q ++ R) q b =
      sweep s reaches time id R (sweep s reaches time id Q q b).1
        (sweep s reaches time id Q q b).2 := by
  induction Q generalizing q b with
  | nil => rfl
  | cons r Q ih =>
    by_cases hq : q = 0
    · subst hq
      simp only [sweep_zero]
    · rw [List.cons_append, sweep_cons hq (hQ r (by simp)), sweep_cons hq (hQ r (by simp))]
      exact ih fun x hx => hQ x (by simp [hx])

/-- A taker that does not exhaust the head of the side is exhausted itself. -/
theorem taker_done {q f : Quantity} (h : f - min q f ≠ 0) : q - min q f = 0 := by
  cases Quantity.min_cases q f with
  | inl hm =>
    rw [hm.1] at h; exact absurd (by grind) h
  | inr hm =>
    rw [hm.1]; grind

theorem side_consume {r : Resting} {L : List Resting} {q : Quantity} {b : Book}
    (hb : b.side s = r :: L) :
    (b.consume s time id q).side s =
      if r.quantity - min q r.quantity = 0 then L
      else { r with quantity := r.quantity - min q r.quantity } :: L := by
  unfold consume
  rw [hb]
  dsimp only
  split_ifs
  · exact setSide_self _ _ _
  · exact setSide_self _ _ _

theorem trades_consume {r : Resting} {L : List Resting} {q : Quantity} {b : Book}
    (hb : b.side s = r :: L) :
    (b.consume s time id q).trades = b.trades ++
      [⟨(s.tradeIds id r.id).1, (s.tradeIds id r.id).2, r.price, min q r.quantity, time⟩] := by
  unfold consume
  rw [hb]
  dsimp only
  split_ifs <;> rfl

theorem keys_consume (q : Quantity) (b : Book) :
    keys ((b.consume s time id q).side s) <:+ keys (b.side s) := by
  cases hb : b.side s with
  | nil => simp [consume, hb, keys]
  | cons r L =>
    rw [side_consume hb]
    split_ifs
    · exact List.suffix_cons _ _
    · exact List.suffix_rfl

theorem keys_sweep (L : List Resting) (q : Quantity) (b : Book) :
    keys ((sweep s reaches time id L q b).2.side s) <:+ keys (b.side s) := by
  induction L generalizing q b with
  | nil => exact List.suffix_rfl
  | cons r L ih =>
    rw [sweep]
    split_ifs
    · exact List.suffix_rfl
    · exact (ih _ _).trans (keys_consume q b)

theorem sweep_empties {Q R : List Resting} {q : Quantity} {b : Book}
    (hQ : ∀ r ∈ Q, reaches r.price = true) (hb : b.side s = Q ++ R) :
    (sweep s reaches time id Q q b).1 = 0 ∨ (sweep s reaches time id Q q b).2.side s = R := by
  induction Q generalizing q b with
  | nil => exact Or.inr hb
  | cons r Q ih =>
    by_cases hq : q = 0
    · subst hq
      rw [sweep_zero]
      exact Or.inl rfl
    · rw [sweep_cons hq (hQ r (by simp))]
      by_cases hr : r.quantity - min q r.quantity = 0
      · refine ih (fun x hx => hQ x (by simp [hx])) ?_
        rw [side_consume (by simpa using hb), if_pos hr]
      · rw [taker_done hr, sweep_zero]
        exact Or.inl rfl

theorem sorted_split {L : List Resting} {p : Price} (h : Sorted s L)
    (hp : ∀ r ∈ L, r.price = p ∨ s.better p r.price) :
    L = L.filter (fun r => r.price = p) ++ L.filter fun r => r.price ≠ p := by
  induction L with
  | nil => rfl
  | cons r L ih =>
    obtain ⟨hr, hL⟩ := List.pairwise_cons.mp h
    have ih := ih hL fun x hx => hp x (by simp [hx])
    by_cases he : r.price = p
    · rw [List.filter_cons_of_pos (by simpa using he), List.filter_cons_of_neg (by simpa using he),
        List.cons_append, ← ih]
    · -- a worse head leaves nothing at the best price behind it
      have hb := (hp r (by simp)).resolve_left he
      have hnone : (r :: L).filter (fun x => x.price = p) = [] := by
        refine List.filter_eq_nil_iff.mpr fun x hx hxp => ?_
        have hxp : x.price = p := of_decide_eq_true hxp
        exact Std.Irrefl.irrefl p (hxp ▸ worse_behind h hb hx)
      have hall : (r :: L).filter (fun x => x.price ≠ p) = r :: L := by
        refine List.filter_eq_self.mpr fun x hx => decide_eq_true fun hxp => ?_
        have hn := List.filter_eq_nil_iff.mp hnone x hx
        exact hn (decide_eq_true hxp)
      rw [hnone, hall, List.nil_append]

end Book

namespace Represents
variable {hole : Option (Side × Price)} {e : Engine} {hands : List Incoming} {b : Book}
  {s : Side} {r : Resting} {o : Incoming}

/-- The hole may be the level at hand, whether or not it was one before. -/
theorem widen {p : Price} (h : Represents hole e hands b)
    (hh : hole = none ∨ hole = some (s, p)) : Represents (some (s, p)) e hands b := by
  cases hh with
  | inl hh =>
    obtain rfl := hh
    exact h.mono
  | inr hh =>
    obtain rfl := hh
    exact h

/-- The state in which `fill` tests whether the maker is exhausted: both quantities and the
level total are reduced, the trade is recorded. -/
def afterTrade (s : Side) (time : Timestamp) (o : Incoming) (r : Resting) (e : Engine) : Engine :=
  let f := min o.quantity r.quantity
  let g : Heap := Function.update e.heap o.ref ({ o with quantity := o.quantity - f } : Incoming).order
  ({ ({ e with heap := g } : Engine).recordTrade (s.tradeIds o.id r.id).1 (s.tradeIds o.id r.id).2
      r.price f time with heap := g.setQuantity r.ref (r.quantity - f) } : Engine).subVolume s r.price f

theorem fill_eq (h : Represents hole e (o :: hands) b) (hr : r ∈ b.side s) (time : Timestamp) :
    Engine.fill s s.tradeIds r.price time o.ref r.ref e =
      if r.quantity - min o.quantity r.quantity = 0 then
        (((afterTrade s time o r e).eraseId r.id).removeFrom s r.price r.ref).release r.ref
      else afterTrade s time o r e := by
  have hcell : e.heap o.ref = o.order := h.hand o (by simp)
  have hne : r.ref ≠ o.ref := h.side_ne_hand hr (by simp)
  set f := min o.quantity r.quantity with hf
  set g : Heap := Function.update e.heap o.ref ({ o with quantity := o.quantity - f } : Incoming).order
    with hg
  have hgr : g r.ref = e.heap r.ref := Function.update_of_ne hne _ _
  have hg1 : e.heap.setQuantity o.ref (o.quantity - f) = g := by
    rw [hg, Heap.setQuantity, hcell]
    rfl
  have hq3 : ((afterTrade s time o r e).heap r.ref).quantity = r.quantity - f := by
    simp [afterTrade, Engine.subVolume, Heap.setQuantity, hf]
  have hi3 : ((afterTrade s time o r e).heap r.ref).id = r.id := by
    simp [afterTrade, Engine.subVolume, Heap.setQuantity, hne, h.heap_id hr]
  have hor : (e.heap o.ref).quantity = o.quantity := by rw [hcell]; rfl
  have hrr : (e.heap r.ref).quantity = r.quantity := h.heap_quantity hr
  have hoi : ((g.setQuantity r.ref (r.quantity - f)) o.ref).id = o.id := by
    simp [Heap.setQuantity, hne.symm, hg, Incoming.order, Order.new]
  have hri : ((g.setQuantity r.ref (r.quantity - f)) r.ref).id = r.id := by
    simp [Heap.setQuantity, hgr, h.heap_id hr]
  unfold Engine.fill
  simp only [hor, hrr, ← hf, hg1, hgr, hoi, hri]
  change (if ((afterTrade s time o r e).heap r.ref).quantity = 0 then
    (((afterTrade s time o r e).eraseId ((afterTrade s time o r e).heap r.ref).id).removeFrom s
      r.price r.ref).release r.ref else afterTrade s time o r e) = _
  rw [hq3, hi3]

theorem afterTrade_rewrite (h : Represents hole e (o :: hands) b) (hr : r ∈ b.side s)
    (time : Timestamp) :
    Represents hole (afterTrade s time o r e)
      ({ o with quantity := o.quantity - min o.quantity r.quantity } :: hands)
      (Book.rewrite { b with trades := b.trades ++ [⟨(s.tradeIds o.id r.id).1,
        (s.tradeIds o.id r.id).2, r.price, min o.quantity r.quantity, time⟩] }
        s r.ref r.id (r.quantity - min o.quantity r.quantity)) := by
  have hne : r.ref ≠ o.ref := h.side_ne_hand hr (by simp)
  set f := min o.quantity r.quantity with hf
  have h1 := h.updateHand o { o with quantity := o.quantity - f } rfl
  have h2 := h1.recordTrade (s.tradeIds o.id r.id).1 (s.tradeIds o.id r.id).2 r.price f time
  set g : Heap := Function.update e.heap o.ref ({ o with quantity := o.quantity - f } : Incoming).order
    with hg
  have hgr : g r.ref = e.heap r.ref := Function.update_of_ne hne _ _
  have hset : g.setQuantity r.ref (r.quantity - f) = Function.update g r.ref
      { g r.ref with id := r.id, quantity := r.quantity - f } := by
    rw [Heap.setQuantity, ← h.heap_id hr, hgr]
  have h3 := h2.rewrite (r := r) (s := s) hr r.id (r.quantity - f) hset
  have hsub : r.quantity - (r.quantity - f) = f := by grind
  rwa [hsub] at h3

/-- One trade of the inner loop. -/
theorem fill {L : List Resting} (h : Represents hole e (o :: hands) b)
    (hh : hole = none ∨ hole = some (s, r.price)) (hb : b.side s = r :: L) (time : Timestamp) :
    Represents (some (s, r.price)) (Engine.fill s s.tradeIds r.price time o.ref r.ref e)
      ({ o with quantity := o.quantity - min o.quantity r.quantity } :: hands)
      (b.consume s time o.id o.quantity) := by
  have hr : r ∈ b.side s := by simp [hb]
  have htrade := h.afterTrade_rewrite hr time
  rw [h.fill_eq hr]
  set f := min o.quantity r.quantity with hf
  have hL : ∀ x ∈ L, x.ref ≠ r.ref := by
    have hn := h.side_nodup s
    rw [hb] at hn
    intro x hx he
    exact (List.nodup_cons.mp hn).1 (he ▸ List.mem_map_of_mem hx)
  have hmap : (b.side s).map (fun x => if x.ref = r.ref then
      { x with id := r.id, quantity := r.quantity - f } else x) =
      { r with quantity := r.quantity - f } :: L := by
    rw [hb, List.map_cons, if_pos rfl]
    congr 1
    exact (List.map_congr_left fun x hx => if_neg (hL x hx)).trans (List.map_id _)
  unfold Book.consume
  rw [hb]
  dsimp only
  rw [← hf]
  split_ifs with hz
  · -- exhausted: out of the index, off the level, back to the pool
    have hr3 : ({ r with quantity := r.quantity - f } : Resting) ∈
        (Book.rewrite { b with trades := b.trades ++ [⟨(s.tradeIds o.id r.id).1,
          (s.tradeIds o.id r.id).2, r.price, f, time⟩] } s r.ref r.id (r.quantity - f)).side s := by
      rw [Book.rewrite, Book.setSide_self, hmap]
      simp
    have h4 := (htrade.eraseId r.id).remove (r := { r with quantity := r.quantity - f }) hr3 hh
    have hdrop : L.filter (fun x => !decide (x.ref = r.ref)) = L :=
      List.filter_eq_self.mpr (by simpa using hL)
    have h5 := h4.release _
    simpa [Book.drop, Book.rewrite, Book.eraseId, Book.setSide, Book.release, hmap, hdrop] using h5
  · simpa [Book.rewrite, Book.setSide, hmap] using htrade.widen hh

theorem queue_of_side {Q R : List Resting} {p : Price} (hb : b.side s = Q ++ R)
    (hQ : ∀ r ∈ Q, r.price = p) (hR : ∀ r ∈ R, r.price ≠ p) : b.queue s p = Q := by
  unfold Book.queue
  rw [hb, List.filter_append, List.filter_eq_self.mpr (by simpa using hQ),
    List.filter_eq_nil_iff.mpr (by simpa using hR), List.append_nil]

theorem heap_next {Q : List Resting} {p : Price} (h : Represents hole e hands b)
    (hq : b.queue s p = r :: Q) : (e.heap r.ref).next = (refs Q).head? := by
  have hr : r ∈ b.side s := (List.mem_filter.mp (by rw [Book.queue] at hq; rw [hq]; simp)).1
  have hp : r.price = p := by
    have hm : r ∈ b.queue s p := by rw [hq]; simp
    exact of_decide_eq_true (List.mem_filter.mp hm).2
  obtain ⟨lvl, -, -, hrep⟩ := h.level_of_mem hr
  rw [hp, hq] at hrep
  exact hrep.chained.links.2.1.trans (by cases Q <;> simp [refs])

theorem traceLevel_done {names : OrderId → OrderId → OrderId × OrderId} {p : Price}
    {time : Timestamp} {order : Addr} {fuel : Nat} {Q : List Resting}
    (hq : (e.heap order).quantity = 0) (hf : Q.length ≤ fuel) :
    Engine.traceLevel s names p time order fuel (refs Q).head? e = some ([], e) := by
  cases Q with
  | nil => cases fuel <;> rfl
  | cons r Q =>
    cases fuel with
    | zero => simp at hf
    | succ fuel => simp [Engine.traceLevel, refs, hq]

theorem traced_fill {L : List Resting} (h : Represents hole e (o :: hands) b)
    (hh : hole = none ∨ hole = some (s, r.price)) (hb : b.side s = r :: L) (time : Timestamp) :
    Traced s o.ref time e b [(e, r.ref)] (Engine.fill s s.tradeIds r.price time o.ref r.ref e) := by
  have hr : r ∈ b.side s := by simp [hb]
  refine ⟨?_, fun f hf => ?_⟩
  · rw [(h.fill hh hb time).trades, Book.trades_consume hb, h.trades]
    simp only [List.map_cons, List.map_nil, Engine.tradeOf, h.hand o (by simp), h.heap_id hr,
      h.heap_price hr, h.heap_quantity hr]
    rfl
  · obtain rfl := List.mem_singleton.mp hf
    exact ⟨hole, o :: hands, b, r, L, h, hb, rfl, List.suffix_rfl⟩

/-- The inner loop consumes along the level. -/
theorem traceLevel {p : Price} (time : Timestamp) {R : List Resting}
    (hR : ∀ r ∈ R, r.price ≠ p) (hp : o.reaches p = true) {Q : List Resting} :
    ∀ {fuel : Nat} {q : Quantity} {hole : Option (Side × Price)} {e : Engine} {b : Book},
      Represents hole e ({ o with quantity := q } :: hands) b →
      hole = none ∨ hole = some (s, p) → b.side s = Q ++ R → (∀ r ∈ Q, r.price = p) →
      Q.length ≤ fuel →
      ∃ F e', Engine.traceLevel s s.tradeIds p time o.ref fuel (refs Q).head? e = some (F, e') ∧
        Represents (some (s, p)) e'
          ({ o with quantity := (Book.sweep s o.reaches time o.id Q q b).1 } :: hands)
          (Book.sweep s o.reaches time o.id Q q b).2 ∧ Traced s o.ref time e b F e' := by
  induction Q with
  | nil =>
    intro fuel q hole e b h hh hb hQ hf
    exact ⟨[], e, by cases fuel <;> rfl, h.widen hh, Traced.nil rfl⟩
  | cons r Q ih =>
    intro fuel q hole e b h hh hb hQ hf
    have hrp : r.price = p := hQ r (by simp)
    subst hrp
    have hcell := h.hand _ List.mem_cons_self
    have hqe : (e.heap o.ref).quantity = q := by rw [hcell]; rfl
    have hqueue := queue_of_side hb hQ hR
    by_cases hq : q = 0
    · subst hq
      refine ⟨[], e, traceLevel_done hqe hf, ?_, Traced.nil rfl⟩
      rw [Book.sweep_zero]
      exact h.widen hh
    · obtain ⟨fuel, rfl⟩ : ∃ n, fuel = n + 1 := ⟨fuel - 1, by simp at hf; omega⟩
      have hpos : (e.heap o.ref).quantity > 0 := by rw [hqe]; grind
      have hnext : (e.heap r.ref).next = (refs Q).head? := h.heap_next hqueue
      have hfill := h.fill hh (by simpa using hb) time
      have hone : Traced s o.ref time e b [(e, r.ref)] _ := h.traced_fill hh (by simpa using hb) time
      have hstep : Engine.traceLevel s s.tradeIds r.price time o.ref (fuel + 1)
          (refs (r :: Q)).head? e = (Engine.traceLevel s s.tradeIds r.price time o.ref fuel
            (refs Q).head? (Engine.fill s s.tradeIds r.price time o.ref r.ref e)).map
              fun x => ((e, r.ref) :: x.1, x.2) := by
        rw [refs, List.map_cons, List.head?_cons, Engine.traceLevel, if_pos hpos, hnext]
      rw [hstep, Book.sweep_cons hq hp]
      have hside : (b.consume s time o.id q).side s = _ :=
        Book.side_consume (show b.side s = r :: (Q ++ R) from hb)
      by_cases hz : r.quantity - min q r.quantity = 0
      · have hside : (b.consume s time o.id q).side s = Q ++ R := by rw [hside, if_pos hz]
        obtain ⟨F, e', he, hr, ht⟩ := ih hfill (Or.inr rfl) hside (fun x hx => hQ x (by simp [hx]))
          (by simp at hf; omega)
        refine ⟨(e, r.ref) :: F, e', by rw [he]; rfl, hr, ?_⟩
        exact hone.append ht (Book.keys_consume q b)
      · rw [Book.taker_done hz] at hfill ⊢
        refine ⟨[(e, r.ref)], _, ?_, by rwa [Book.sweep_zero], hone⟩
        rw [traceLevel_done ?_ (by simp at hf; omega)]
        · rfl
        · rw [hfill.hand _ List.mem_cons_self]
          rfl

theorem side_of_first?_none (h : Represents hole e hands b) (hf : (e.levels s).first? = none) :
    b.side s = [] := by
  cases hb : b.side s with
  | nil => rfl
  | cons r L =>
    have hr : r ∈ b.side s := by simp [hb]
    obtain ⟨lvl, hl, -, -⟩ := h.level_of_mem hr
    have hn : e.level? s r.price = none := SortedMap.first?_eq_none _ hf _
    rw [hn] at hl
    simp at hl

theorem side_of_first? {p : Price} {lvl : PriceLevel} (h : Represents hole e hands b)
    (hf : (e.levels s).first? = some (p, lvl)) :
    b.side s = b.queue s p ++ (b.side s).filter (fun r => r.price ≠ p) ∧
      LevelRep e.heap p (b.queue s p) lvl ∧ (hole = none → b.queue s p ≠ []) := by
  obtain ⟨hl, hmin⟩ := SortedMap.first?_eq_some _ hf
  obtain ⟨hrep, hne⟩ := h.level s p lvl hl
  refine ⟨Book.sorted_split (h.sorted s) fun r hr => ?_, hrep,
    fun hn => hne.resolve_right (by simp [hn])⟩
  obtain ⟨l, hl, -, -⟩ := h.level_of_mem hr
  exact hmin r.price l hl

theorem queue_length_le (h : Represents hole e hands b) (p : Price) :
    (b.queue s p).length ≤ e.allAllocated.length := by
  have h1 : (b.queue s p).length ≤ (b.side s).length := List.length_filter_le _ _
  have h2 := h.owned.length_eq
  rw [h.allocated]
  simp only [Book.cells, refs, List.length_append, List.length_map] at h2
  cases s <;> omega

theorem traced_eraseIfEmpty {order : Addr} {time : Timestamp} {F : List (Engine × Addr)}
    {e' : Engine} (h : Traced s order time e b F e') (p : Price) :
    Traced s order time e b F (e'.eraseIfEmpty s p) := by
  have hlog : (e'.eraseIfEmpty s p).tradeLog = e'.tradeLog := by
    unfold Engine.eraseIfEmpty
    split <;> simp
  exact ⟨hlog.trans h.trades, h.takes⟩

theorem traceOrder_done {stops : Price → Price → Bool}
    {names : OrderId → OrderId → OrderId × OrderId} {time : Timestamp} {order : Addr} {fuel : Nat}
    (hq : (e.heap order).quantity = 0) :
    Engine.traceOrder s stops names time order (fuel + 1) e = some ([], e) := by
  rw [Engine.traceOrder, hq, if_neg (by decide)]

/-- The outer loop sweeps the side; fuel for one more iteration than there are orders
is enough. -/
theorem traceOrder (time : Timestamp) :
    ∀ {fuel : Nat} {q : Quantity} {e : Engine} {b : Book},
      Represents none e ({ o with quantity := q } :: hands) b → (b.side s).length < fuel →
      s = o.side.opposite →
      ∃ F e', Engine.traceOrder s (fun limit best => decide (s.better limit best)) s.tradeIds time
          o.ref fuel e = some (F, e') ∧
        Represents none e'
          ({ o with quantity := (Book.sweep s o.reaches time o.id (b.side s) q b).1 } :: hands)
          (Book.sweep s o.reaches time o.id (b.side s) q b).2 ∧ Traced s o.ref time e b F e' := by
  intro fuel
  induction fuel with
  | zero => intro q e b _ hlt; exact absurd hlt (Nat.not_lt_zero _)
  | succ fuel ih =>
    intro q e b h hlt hs
    have hcell := h.hand _ List.mem_cons_self
    have hqe : (e.heap o.ref).quantity = q := by rw [hcell]; rfl
    have hme : (e.heap o.ref).isMarket = o.isMarket := by rw [hcell]; rfl
    have hpe : (e.heap o.ref).price = o.price := by rw [hcell]; rfl
    by_cases hq : q = 0
    · subst hq
      rw [Book.sweep_zero]
      exact ⟨[], e, traceOrder_done hqe, h, Traced.nil rfl⟩
    rw [Engine.traceOrder, hqe, hme, hpe]
    rw [if_pos (by grind)]
    cases hf : (e.levels s).first? with
    | none =>
      rw [h.side_of_first?_none hf]
      exact ⟨[], e, rfl, h, Traced.nil rfl⟩
    | some pl =>
      obtain ⟨p, lvl⟩ := pl
      obtain ⟨hsplit, hrep, hne⟩ := h.side_of_first? hf
      have hQ : ∀ r ∈ b.queue s p, r.price = p := fun r hr =>
        of_decide_eq_true (List.mem_filter.mp hr).2
      have hR : ∀ r ∈ (b.side s).filter (fun r => r.price ≠ p), r.price ≠ p := fun r hr =>
        of_decide_eq_true (List.mem_filter.mp hr).2
      obtain ⟨r, Q, hrQ⟩ := List.exists_cons_of_ne_nil (hne rfl)
      have hreach : (!o.isMarket && decide (s.better o.price p)) = !o.reaches p := by
        simp [Incoming.reaches, ← hs, Bool.not_or]
      dsimp only
      rw [hreach]
      by_cases hp : o.reaches p = true
      · -- trade along the best level, then go on behind it
        have hlen : (b.queue s p).length ≤ e.allAllocated.length + 1 :=
          (h.queue_length_le p).trans (Nat.le_succ _)
        obtain ⟨F1, e1, h1, hr1, ht1⟩ := traceLevel time hR hp h (Or.inl rfl) hsplit hQ hlen
        have hreaches : ∀ r ∈ b.queue s p, o.reaches r.price = true := fun r hr => by
          rw [hQ r hr]; exact hp
        rw [if_neg (by simp [hp]), hrep.chained.head, h1, hsplit, Book.sweep_append hreaches]
        have hclosed := hr1.eraseIfEmpty
        have ht1 := traced_eraseIfEmpty ht1 p
        have hlen0 : 0 < (b.side s).length := by rw [hsplit, hrQ]; simp
        have hdone : (Book.sweep s o.reaches time o.id (b.queue s p) q b).1 = 0 ∨
            (Book.sweep s o.reaches time o.id (b.queue s p) q b).2.side s = _ :=
          Book.sweep_empties hreaches hsplit
        rw [Option.bind_eq_bind, Option.bind_some]
        cases hdone with
        | inl hz =>
          rw [hz] at hclosed ⊢
          rw [Book.sweep_zero]
          obtain ⟨fuel, rfl⟩ : ∃ n, fuel = n + 1 := ⟨fuel - 1, by omega⟩
          have hq1 : ((e1.eraseIfEmpty s p).heap o.ref).quantity = 0 := by
            rw [hclosed.hand _ List.mem_cons_self]; rfl
          refine ⟨F1, _, ?_, hclosed, ht1⟩
          rw [traceOrder_done hq1]
          simp
        | inr hempty =>
          have hlt' : ((Book.sweep s o.reaches time o.id (b.queue s p) q b).2.side s).length <
              fuel := by
            rw [hempty]
            rw [hsplit, hrQ] at hlt
            simp only [List.cons_append, List.length_cons, List.length_append] at hlt
            omega
          obtain ⟨F2, e2, h2, hr2, ht2⟩ := ih hclosed hlt' hs
          rw [hempty] at hr2
          exact ⟨F1 ++ F2, e2, by rw [h2]; rfl, hr2, ht1.append ht2 (Book.keys_sweep _ _ _)⟩
      · -- the best price is out of the limit's reach
        have hrp : o.reaches r.price = false := by
          rw [hQ r (by simp [hrQ])]
          simpa using hp
        rw [if_pos (by simpa using hp), hsplit, hrQ]
        refine ⟨[], e, rfl, ?_, Traced.nil rfl⟩
        simpa [Book.sweep, hq, hrp] using h

end Represents
end LobCity
