import LobCity.Feed

/-! The publisher at its own pace: once it has popped everything, it holds the snapshot that
was pushed last. A snapshot that finds the ring full is lost. -/
namespace LobCity
open Library

namespace RingBuffer
variable {T : Type} {Size : Nat} [NeZero Size]

theorem pop_none_iff (rb : RingBuffer T Size) : rb.pop.1 = none ↔ rb.queued = [] := by
  have hpop : rb.queued = rb.pop.1.toList ++ rb.pop.2.queued := queued_pop (Prod.mk.eta).symm
  constructor
  · intro hnone
    have hempty : rb.head = rb.tail := by
      by_contra hne
      simp [pop, hne] at hnone
    simp [queued, count, hempty]
  · intro hnil
    rw [hnil] at hpop
    cases hx : rb.pop.1 with
    | none => rfl
    | some x => simp [hx] at hpop

theorem full_iff (rb : RingBuffer T Size) (item : T) :
    advance rb.head = rb.tail ↔ rb.queued.length = Size - 1 := by
  have hlt : ∀ rb : RingBuffer T Size, rb.queued.length < Size := by
    intro rb
    rw [queued, List.length_map, List.length_range]
    exact rb.count_spec.1
  constructor
  · intro hfull
    have hpush : rb.push item = (false, rb) := if_pos hfull
    cases queued_push hpush with
    | inl h => exact absurd h.1 (by decide)
    | inr h => exact h.2.2
  · intro hlength
    by_contra hroom
    have hpush : rb.push item = (true, _) := if_neg hroom
    cases queued_push hpush with
    | inl h =>
      have hlong := hlt { rb with buffer := Function.update rb.buffer rb.head item,
                                  head := advance rb.head }
      rw [h.2, List.length_append, hlength, List.length_singleton] at hlong
      omega
    | inr h => exact absurd h.1 (by decide)

end RingBuffer

namespace Feed
variable {f f' : Feed} {ev : FeedEvent}

def Missed (f : Feed) : FeedEvent → Prop
  | .call op => RingBuffer.advance f.ring.head = f.ring.tail ∧ f.session.MovesTop op
  | .pop => False

structure Tracked (f : Feed) : Prop extends Sound f where
  popped : f.ring.queued = [] → f.popped = f.ring.newest

theorem new_tracked (poolSize : Nat) : (new poolSize).Tracked := ⟨new_sound poolSize, fun _ => rfl⟩

def ShowsPrices (f : Feed) : Prop := f.popped.ShowsPrices f.session.engine

/-- However often the publisher pops from here on, when it finds the ring empty it shows the
best prices of the book. -/
def CatchesUp (f : Feed) : Prop :=
  ∀ k f', run step f (List.replicate k .pop) = some f' → f'.ring.pop.1 = none → f'.ShowsPrices

theorem Tracked.pop (h : f.Tracked) :
    ∃ f', f.step .pop = some f' ∧ f'.Tracked ∧ f'.ring.queued = f.ring.queued.tail ∧
      f'.ring.newest = f.ring.newest ∧
      ∀ msg : BboMessage, msg.ShowsPrices f'.session.engine ↔ msg.ShowsPrices f.session.engine := by
  have hok : f.Owned .pop := trivial
  obtain ⟨f', hf, h'⟩ := h.toSound.step hok
  obtain rfl := Option.some.inj hf
  have hpop : f.ring.queued = f.ring.pop.1.toList ++ f.ring.pop.2.queued :=
    RingBuffer.queued_pop (Prod.mk.eta).symm
  have hnewest := RingBuffer.newest_pop f.ring
  refine ⟨_, rfl, ⟨h', fun hnil => ?_⟩, ?_, hnewest, fun msg => Iff.rfl⟩
  · have hnil : f.ring.pop.2.queued = [] := hnil
    show f.ring.pop.1.getD f.popped = f.ring.pop.2.newest
    rw [hnewest]
    cases hx : f.ring.pop.1 with
    | none => exact h.popped ((RingBuffer.pop_none_iff f.ring).mp hx)
    | some x =>
      rw [hx, hnil] at hpop
      have hlast : f.ring.queued.getLast? = some f.ring.newest :=
        RingBuffer.queued_getLast? (by rw [hpop]; simp)
      rw [hpop] at hlast
      exact Option.some.inj hlast
  · show f.ring.pop.2.queued = f.ring.queued.tail
    cases hx : f.ring.pop.1 with
    | none =>
      have hnil := (RingBuffer.pop_none_iff f.ring).mp hx
      rw [hx, hnil] at hpop
      rw [hnil]
      exact (List.append_eq_nil_iff.mp hpop.symm).2
    | some x =>
      rw [hpop, hx]
      rfl

theorem Tracked.drained (h : f.Tracked) :
    ∃ f', run step f (List.replicate f.ring.queued.length .pop) = some f' ∧ f'.Tracked ∧
      f'.ring.pop.1 = none ∧ f'.popped = f.ring.newest ∧
      ∀ msg : BboMessage, msg.ShowsPrices f'.session.engine ↔ msg.ShowsPrices f.session.engine := by
  generalize hn : f.ring.queued.length = n
  induction n generalizing f with
  | zero =>
    have hnil := List.eq_nil_of_length_eq_zero hn
    exact ⟨f, rfl, h, (RingBuffer.pop_none_iff f.ring).mpr hnil, h.popped hnil, fun _ => Iff.rfl⟩
  | succ n ih =>
    obtain ⟨f1, hf, h1, htail, hnewest, hshows⟩ := h.pop
    obtain ⟨f', hrun, h', hnone, hpopped, hshows'⟩ := ih h1 (by rw [htail, List.length_tail, hn]; rfl)
    refine ⟨f', ?_, h', hnone, hpopped.trans hnewest, fun msg => (hshows' msg).trans (hshows msg)⟩
    rw [List.replicate_succ, run, hf]
    exact hrun

/-- What the publisher will show is decided by the newest snapshot. -/
theorem Tracked.catchesUp_iff (h : f.Tracked) :
    f.CatchesUp ↔ f.ring.newest.ShowsPrices f.session.engine := by
  constructor
  · intro hall
    obtain ⟨f', hrun, -, hnone, hpopped, hshows⟩ := h.drained
    rw [← hshows, ← hpopped]
    exact hall _ f' hrun hnone
  · intro hshow k
    induction k generalizing f with
    | zero =>
      rintro f' hrun hnone
      obtain rfl := Option.some.inj hrun
      rw [ShowsPrices, h.popped ((RingBuffer.pop_none_iff f.ring).mp hnone)]
      exact hshow
    | succ k ih =>
      obtain ⟨f1, hf, h1, -, hnewest, hshows⟩ := h.pop
      intro f' hrun
      rw [List.replicate_succ, run, hf] at hrun
      exact ih h1 (by rw [hshows, hnewest]; exact hshow) f' hrun

theorem showsPrices_iff {S S' : Session} (h : S.Sound) (h' : S'.Sound) {msg : BboMessage}
    (hm : msg.ShowsPrices S.engine) :
    msg.ShowsPrices S'.engine ↔
      ∀ s, bestPrice (S'.engine.book.side s) = bestPrice (S.engine.book.side s) := by
  rw [← Session.Sound.best_eq_iff h h', not_or, not_ne_iff, not_ne_iff, BboMessage.ShowsPrices,
    hm.1, hm.2]

theorem Tracked.call (h : f.Tracked) {op : Op} {S' : Session} (hok : f.session.Owned op)
    (hs : f.session.step op = some S') : Tracked ⟨S', f.popped⟩ := by
  have hok : f.Owned (.call op) := hok
  obtain ⟨f', hf, h'⟩ := h.toSound.step hok
  rw [step, hs] at hf
  obtain rfl := Option.some.inj hf
  refine ⟨h', fun hnil => ?_⟩
  have hnil : S'.engine.buffer.queued = [] := hnil
  show f.popped = S'.engine.buffer.newest
  cases h.toSound.ring_call hs with
  | inl hpush =>
    rw [hpush.2.2.2] at hnil
    simp at hnil
  | inr hkeep =>
    rw [hkeep.2] at hnil ⊢
    exact h.popped hnil

theorem Tracked.step (h : f.Tracked) (hok : f.Owned ev) :
    ∃ f', f.step ev = some f' ∧ f'.Tracked := by
  cases ev with
  | pop =>
    obtain ⟨f', hf, h', -⟩ := h.pop
    exact ⟨f', hf, h'⟩
  | call op =>
    obtain ⟨S', hs, -⟩ := h.session.step hok
    exact ⟨⟨S', f.popped⟩, by rw [Feed.step, hs]; rfl, h.call hok hs⟩

theorem Tracked.catchesUp_step (h : f.Tracked) (hok : f.Owned ev) (hc : f.CatchesUp) :
    ∃ f', f.step ev = some f' ∧ f'.Tracked ∧ (f'.CatchesUp ↔ ¬ f.Missed ev) := by
  have hshow := h.catchesUp_iff.mp hc
  cases ev with
  | pop =>
    obtain ⟨f', hf, h', -, hnewest, hshows⟩ := h.pop
    refine ⟨f', hf, h', ?_⟩
    rw [h'.catchesUp_iff, hshows, hnewest]
    exact iff_of_true hshow not_false
  | call op =>
    obtain ⟨S', hs, hS', -⟩ := h.session.step hok
    have ht := h.call hok hs
    refine ⟨⟨S', f.popped⟩, by rw [Feed.step, hs]; rfl, ht, ?_⟩
    rw [ht.catchesUp_iff]
    show S'.engine.buffer.newest.ShowsPrices S'.engine ↔ _
    cases h.toSound.ring_call hs with
    | inl hpush =>
      obtain ⟨-, hroom, hnewest, -⟩ := hpush
      rw [hnewest]
      exact iff_of_true ⟨rfl, rfl⟩ fun hm => hroom hm.1
    | inr hkeep =>
      obtain ⟨hfull, hring⟩ := hkeep
      have hmoves := h.session.moves_iff hok hs
      rw [hring, showsPrices_iff h.session hS' hshow]
      constructor
      · rintro hsame ⟨-, hm⟩
        obtain ⟨s, hne⟩ := hmoves.mpr hm
        exact hne (hsame s)
      · intro hno s
        by_contra hne
        have hm := hmoves.mp ⟨s, hne⟩
        exact hno ⟨hfull (h.toSound.publishes_of_moves hok hs hS' hm), hm⟩

/-- Over every interleaving of calls and pops: whenever the publisher finds the ring empty,
then or after more pops, it shows the best prices of the book, exactly when no best price
moves while the ring is full. -/
theorem run_catchesUp_iff {poolSize : Nat} {evs : List FeedEvent}
    (hok : Along step Owned (new poolSize) evs) :
    (∀ n k f, run step (new poolSize) (evs.take n ++ List.replicate k .pop) = some f →
        f.ring.pop.1 = none → f.ShowsPrices) ↔
      Along step (fun f ev => ¬ f.Missed ev) (new poolSize) evs := by
  have hnew : (new poolSize).CatchesUp := (new_tracked poolSize).catchesUp_iff.mpr ⟨rfl, rfl⟩
  have hstep : ∀ (f : Feed) ev, f.Tracked → f.Owned ev → f.CatchesUp →
      ∃ f', f.step ev = some f' ∧ f'.Tracked ∧ (f'.CatchesUp ↔ ¬ f.Missed ev) :=
    fun f ev h hev hc => h.catchesUp_step hev hc
  rw [← forall_prefix_iff hstep (new_tracked poolSize) hnew hok]
  constructor
  · intro hall n f hf k f' hf'
    refine hall n k f' ?_
    rw [run_append, hf]
    exact hf'
  · intro hall n k f hf
    rw [run_append] at hf
    obtain ⟨f1, h1, hf⟩ := Option.bind_eq_some_iff.mp hf
    exact hall n f1 h1 k f hf

theorem run_catchesUp_iff_cancelled :
    (∀ n k f, run step (new 1) (List.take n [.call (.acquire 1 100 5 .buy false),
        .call (.process 0 10 11), .pop, .call (.cancel 1 12), .pop] ++ List.replicate k .pop) =
          some f → f.ring.pop.1 = none → f.ShowsPrices) ↔
      Along step (fun f ev => ¬ f.Missed ev) (new 1) [.call (.acquire 1 100 5 .buy false),
        .call (.process 0 10 11), .pop, .call (.cancel 1 12), .pop] :=
  run_catchesUp_iff (by decide +kernel)

def flipPrice (n : Nat) : Price := if n % 2 = 0 then 100 else 101

def flips (n : Nat) : List FeedEvent :=
  .call (.acquire 1 100 5 .buy false) :: .call (.process 0 10 11) ::
    (List.range n).map fun i => .call (.modify 1 1 (flipPrice (i + 1)) 5 12)

structure Flipped (f : Feed) (n : Nat) (p : Price) : Prop extends Tracked f where
  bid : f.session.engine.book.side .buy = [⟨0, 1, p, 5⟩]
  index : f.session.engine.book.index 1 = some 0
  queued : f.ring.queued.length = n
  shown : f.ring.newest.bestBidPrice = p

theorem Flipped.flip {n : Nat} {p p' : Price} (h : f.Flipped n p) (hp : p' ≠ p) :
    ∃ f', f.step (.call (.modify 1 1 p' 5 12)) = some f' ∧ f'.Tracked ∧
      f'.session.engine.book.side .buy = [⟨0, 1, p', 5⟩] ∧ f'.session.engine.book.index 1 = some 0 ∧
      (n < 1023 → f'.ring.queued.length = n + 1 ∧ f'.ring.newest.bestBidPrice = p') ∧
      (n = 1023 → f'.ring = f.ring) := by
  have hd := h.session.distinct
  have hr : (⟨0, 1, p, 5⟩ : Resting) ∈ f.session.engine.book.side .buy := by simp [h.bid]
  have hmoves : f.session.MovesTop (.modify 1 1 p' 5 12) := by
    refine ⟨.buy, _, hr, h.index, Or.inr ?_⟩
    rw [h.bid]
    exact ⟨hp, by simp⟩
  have hok : f.session.Owned (.modify 1 1 p' 5 12) := trivial
  obtain ⟨S', hs, hS', hb, -⟩ := h.session.step hok
  have hf : f.step (.call (.modify 1 1 p' 5 12)) = some ⟨S', f.popped⟩ := by
    rw [step, hs]
    rfl
  have hbook : S'.engine.book = f.session.engine.book.requeue .buy ⟨0, 1, p, 5⟩ 1 p' 5 := by
    rw [hb]
    have hentry := Book.modify_entry hd hr h.index 1 p' 5
    rw [if_neg fun hcase => hp hcase.1] at hentry
    exact hentry
  have hbid : S'.engine.book.side .buy = [⟨0, 1, p', 5⟩] := by
    rw [hbook, Book.side_requeue, h.bid]
    rfl
  have hindex : S'.engine.book.index 1 = some 0 := by
    rw [hbook]
    simp [Book.requeue, Book.rest]
  refine ⟨_, hf, h.call hok hs, hbid, hindex, fun hroom => ?_, fun hfull => ?_⟩
  · cases h.toSound.ring_call hs with
    | inl hpush =>
      obtain ⟨-, -, hnewest, hqueued⟩ := hpush
      refine ⟨?_, ?_⟩
      · show S'.engine.buffer.queued.length = n + 1
        rw [hqueued, List.length_append, h.queued]
        rfl
      · show S'.engine.buffer.newest.bestBidPrice = p'
        rw [hnewest]
        show S'.engine.getBestBid = p'
        rw [hS'.wellFormed.getBestBid_eq.1, hbid]
        rfl
    | inr hkeep =>
      have hfull := hkeep.1 (h.toSound.publishes_of_moves hok hs hS' hmoves)
      have hlength := (RingBuffer.full_iff f.ring BboMessage.zero).mp hfull
      rw [h.queued] at hlength
      omega
  · cases h.toSound.ring_call hs with
    | inl hpush =>
      refine absurd ((RingBuffer.full_iff f.ring BboMessage.zero).mpr ?_) hpush.2.1
      rw [h.queued, hfull]
    | inr hkeep => exact hkeep.2

theorem flipPrice_succ (n : Nat) : flipPrice (n + 1) ≠ flipPrice n := by
  unfold flipPrice
  by_cases h : n % 2 = 0
  · rw [if_pos h, if_neg (by omega)]
    decide
  · rw [if_neg h, if_pos (by omega)]
    decide

theorem flips_succ (n : Nat) :
    flips (n + 1) = flips n ++ [.call (.modify 1 1 (flipPrice (n + 1)) 5 12)] := by
  rw [flips, List.range_succ, List.map_append]
  rfl

theorem owned_flips (n : Nat) : Along step Owned (new 1) (flips n) := by
  refine ⟨trivial, fun f hf => ?_⟩
  obtain rfl := Option.some.inj hf
  refine ⟨by decide +kernel, fun f _ => ?_⟩
  have hall : ∀ ev ∈ (List.range n).map fun i =>
      FeedEvent.call (.modify 1 1 (flipPrice (i + 1)) 5 12),
      ∃ p, ev = .call (.modify 1 1 p 5 12) := by
    intro ev hev
    obtain ⟨i, -, rfl⟩ := List.mem_map.mp hev
    exact ⟨_, rfl⟩
  refine (along_of_forall hall).mono fun f ev hev => ?_
  obtain ⟨p, rfl⟩ := hev
  trivial

theorem run_flips {n : Nat} (hn : n < 1023) :
    ∃ f, run step (new 1) (flips n) = some f ∧ f.Flipped (n + 1) (flipPrice n) := by
  induction n with
  | zero =>
    have hrun : (run step (new 1) (flips 0)).map (fun f =>
        (f.session.engine.book.side .buy, f.session.engine.book.index 1, f.ring.queued.length,
          f.ring.newest.bestBidPrice)) = some ([⟨0, 1, 100, 5⟩], some 0, 1, 100) := by
      decide +kernel
    obtain ⟨f, hf, h⟩ := run_invariant (fun f ev (h : f.Tracked) hok => h.step hok) (new_tracked 1)
      (owned_flips 0)
    rw [hf] at hrun
    simp only [Option.map_some, Option.some.injEq, Prod.mk.injEq] at hrun
    obtain ⟨hbid, hindex, hqueued, hshown⟩ := hrun
    exact ⟨f, hf, h, hbid, hindex, hqueued, hshown⟩
  | succ n ih =>
    obtain ⟨f, hf, h⟩ := ih (by omega)
    obtain ⟨f', hf', h', hbid, hindex, hroom, -⟩ := h.flip (flipPrice_succ n)
    obtain ⟨hqueued, hshown⟩ := hroom (by omega)
    refine ⟨f', ?_, h', hbid, hindex, hqueued, hshown⟩
    rw [flips_succ, run_append, hf, Option.bind_some, run, hf']
    rfl

/-- Once the ring is full, a further move is lost on the publisher. -/
theorem run_flips_full {n : Nat} (hn : n + 1 = 1023) :
    ∃ f, run step (new 1) (flips (n + 1) ++ List.replicate (n + 1) .pop) = some f ∧
      f.ring.pop.1 = none ∧ f.popped.bestBidPrice = flipPrice n ∧
      f.session.engine.getBestBid = flipPrice (n + 1) := by
  obtain ⟨f, hf, h⟩ := run_flips (n := n) (by omega)
  obtain ⟨f', hf', h', hbid, -, -, hfull⟩ := h.flip (flipPrice_succ n)
  have hring := hfull hn
  obtain ⟨g, hg, -, hnone, hpopped, hshows⟩ := h'.drained
  rw [hring, h.queued] at hg
  rw [hring] at hpopped
  have hbest : f'.session.engine.getBestBid = flipPrice (n + 1) := by
    rw [h'.session.wellFormed.getBestBid_eq.1, hbid]
    rfl
  refine ⟨g, ?_, hnone, by rw [hpopped, h.shown], ?_⟩
  · rw [flips_succ, List.append_assoc, run_append, hf, Option.bind_some, run_append, run, hf']
    exact hg
  · let msg : BboMessage := { BboMessage.zero with
      bestBidPrice := f'.session.engine.getBestBid, bestAskPrice := f'.session.engine.getBestAsk }
    have hmsg : msg.ShowsPrices g.session.engine := (hshows msg).mpr ⟨rfl, rfl⟩
    exact hmsg.1.symm.trans hbest

/-- After 1023 moves and as many pops the ring is empty, and the publisher shows a bid of
100 where the best bid is 101. -/
theorem flips_stale :
    Along step Owned (new 1) (flips 1023) ∧
      ∃ f, run step (new 1) (flips 1023 ++ List.replicate 1023 .pop) = some f ∧
        f.ring.pop.1 = none ∧ f.popped.bestBidPrice = 100 ∧ f.session.engine.getBestBid = 101 ∧
        ¬ f.ShowsPrices := by
  obtain ⟨f, hf, hnone, hpopped, hbest⟩ := run_flips_full (n := 1022) rfl
  have hpopped : f.popped.bestBidPrice = 100 := hpopped
  have hbest : f.session.engine.getBestBid = 101 := hbest
  refine ⟨owned_flips 1023, f, hf, hnone, hpopped, hbest, fun hshow => ?_⟩
  rw [ShowsPrices, BboMessage.ShowsPrices, hpopped, hbest] at hshow
  exact absurd hshow.1 (by decide)

end Feed
end LobCity
