import LobCity.FillAccounting
import Mathlib.Data.Rat.Defs

/-! Every fill of the market maker counted once. In quiet ticks all own trades fall into
the others' turns; those name the current quotes, and the scan of the tick finds them. -/
namespace LobCity
open Library

namespace Desk
variable {D : Type} {w : Desk D} {tick : Tick} {own : OrderId → Prop} [DecidablePred own]

/-- The desk between two ticks. `own` are the ids that the others keep off; that they hold
all ids issued so far is known only at the end of the run. -/
structure Kept (own : OrderId → Prop) [DecidablePred own] (w : Desk D) : Prop where
  shared : w.session.Shared own w.maker.current
  owned : ∀ s, w.maker.current s ≠ 0 → w.maker.current s ∈ w.issued
  logged : ∀ t ∈ w.session.engine.tradeLog, (own t.buyOrderId → t.buyOrderId ∈ w.issued) ∧
    (own t.sellOrderId → t.sellOrderId ∈ w.issued)
  applied : (∀ id ∈ w.issued, own id) →
    w.applied = fillsFrom (fun _ => own) 0 (w.session.engine.tradeLog.take w.scanned)
  position : (∀ id ∈ w.issued, own id) → w.maker.netPosition =
    Int64.ofInt (netTraded (fun _ => own) (w.session.engine.tradeLog.take w.scanned))
  quiet : ∀ t ∈ w.session.engine.tradeLog.drop w.scanned,
    ¬ own t.buyOrderId ∧ ¬ own t.sellOrderId
  scanned_le : w.scanned ≤ w.session.engine.tradeLog.length

theorem Kept.names (h : w.Kept own) (hown : ∀ id ∈ w.issued, own id) {t : Trade}
    (ht : t.OfQuotes own w.maker.current) :
    (t.buyOrderId = w.maker.current .buy ↔ own t.buyOrderId) ∧
      (t.sellOrderId = w.maker.current .sell ↔ own t.sellOrderId) :=
  ht.names fun s hs => hown _ (h.owned s hs)

/-- The whole log is accounted for, the part after the last detection being quiet. -/
theorem Kept.whole (h : w.Kept own) (i : Nat) :
    fillsFrom (fun _ => own) i w.session.engine.tradeLog =
        fillsFrom (fun _ => own) i (w.session.engine.tradeLog.take w.scanned) ∧
      netTraded (fun _ => own) w.session.engine.tradeLog =
        netTraded (fun _ => own) (w.session.engine.tradeLog.take w.scanned) := by
  have hsplit := (List.take_append_drop w.scanned w.session.engine.tradeLog).symm
  have hfills (i : Nat) : fillsFrom (fun _ => own) i (w.session.engine.tradeLog.drop w.scanned) = [] :=
    fillsFrom_nil i h.quiet
  have hnet : netTraded (fun _ => own) (w.session.engine.tradeLog.drop w.scanned) = 0 :=
    netTraded_zero h.quiet
  constructor
  · conv_lhs => rw [hsplit]
    rw [fillsFrom_append, hfills, List.append_nil]
  · conv_lhs => rw [hsplit]
    rw [netTraded_append, hnet, Int.add_zero]

theorem Kept.accounted (h : w.Kept own) (hown : ∀ id ∈ w.issued, own id) : w.Accounted := by
  have hnames : ∀ t ∈ w.session.engine.tradeLog.take w.scanned,
      (own t.buyOrderId ↔ t.buyOrderId ∈ w.issued) ∧
        (own t.sellOrderId ↔ t.sellOrderId ∈ w.issued) := by
    intro t ht
    obtain ⟨hb, hs⟩ := h.logged t (List.mem_of_mem_take ht)
    exact ⟨⟨hb, hown _⟩, ⟨hs, hown _⟩⟩
  constructor
  · rw [h.applied hown]
    exact fillsFrom_congr (fun _ => own) (fun _ id => id ∈ w.issued) 0 hnames
  · rw [h.position hown]
    exact congrArg _ (netTraded_congr (fun _ => own) (fun _ id => id ∈ w.issued) hnames)

theorem Kept.logged_append (h : w.Kept own) {new : List Trade}
    (hnew : ∀ t ∈ new, t.OfQuotes own w.maker.current) (ids : List OrderId) :
    ∀ t ∈ w.session.engine.tradeLog ++ new, (own t.buyOrderId → t.buyOrderId ∈ w.issued ++ ids) ∧
      (own t.sellOrderId → t.sellOrderId ∈ w.issued ++ ids) := by
  intro t ht
  cases List.mem_append.mp ht with
  | inl ht =>
    obtain ⟨hb, hs⟩ := h.logged t ht
    exact ⟨fun hown => List.mem_append_left _ (hb hown), fun hown => List.mem_append_left _ (hs hown)⟩
  | inr ht =>
    have hq := hnew t ht
    refine ⟨fun hown => List.mem_append_left _ ?_, fun hown => List.mem_append_left _ ?_⟩
    · rw [hq.buy hown]
      exact h.owned .buy (hq.buy hown ▸ hq.buy_ne)
    · rw [hq.sell hown]
      exact h.owned .sell (hq.sell hown ▸ hq.sell_ne)

theorem Kept.owned_append (h : w.Kept own) {current : Side → OrderId} {ids : List OrderId}
    (hcur : ∀ s, current s = w.maker.current s ∨ current s = 0 ∨ current s ∈ ids) :
    ∀ s, current s ≠ 0 → current s ∈ w.issued ++ ids := by
  intro s hs
  rcases hcur s with hold | hzero | hnew
  · rw [hold] at hs ⊢
    exact List.mem_append_left _ (h.owned s hs)
  · exact absurd hzero hs
  · exact List.mem_append_right _ hnew

theorem Kept.position_append (h : w.Kept own) (hown : ∀ id ∈ w.issued, own id) {new : List Trade}
    (hnew : ∀ t ∈ new, t.OfQuotes own w.maker.current) :
    w.maker.netPosition + Int64.ofInt (netTraded (fun s id => id = w.maker.current s) new) =
      Int64.ofInt (netTraded (fun _ => own) (w.session.engine.tradeLog ++ new)) := by
  have hnet : netTraded (fun s id => id = w.maker.current s) new = netTraded (fun _ => own) new :=
    netTraded_congr (fun s id => id = w.maker.current s) (fun _ => own)
      fun t ht => h.names hown (hnew t ht)
  rw [netTraded_append, (h.whole 0).2, h.position hown, Int64.ofInt_add, hnet]

variable [Double D]

/-- A detection applies what is left of the log. -/
theorem Kept.applied_append (h : w.Kept own) (hown : ∀ id ∈ w.issued, own id) {new : List Trade}
    (hnew : ∀ t ∈ new, t.OfQuotes own w.maker.current) :
    w.applied ++ (w.maker.traceFills w.session.engine.tradeLog.length new).1 =
      fillsFrom (fun _ => own) 0 (w.session.engine.tradeLog ++ new) := by
  have hfills (i : Nat) : (w.maker.traceFills i new).1 = fillsFrom (fun _ => own) i new := by
    rw [MarketMaker.traceFills_fst]
    exact fillsFrom_congr (fun s id => id = w.maker.current s) (fun _ => own) i
      fun t ht => h.names hown (hnew t ht)
  rw [fillsFrom_append, (h.whole 0).1, h.applied hown, hfills, Nat.zero_add]

/-- The step lemma: the others' turn, then a quiet tick, with or without a detection. -/
theorem Kept.step (h : w.Kept own) (hfair : w.Fair tick) (hcareful : w.Careful tick)
    (hids : ∀ op ∈ tick.ops, ∀ id ∈ op.ids, Foreign own id) :
    ∃ w', w.step tick = some w' ∧ w'.Kept own := by
  obtain ⟨S, hS, hshared, new, hlog, hnew⟩ := h.shared.run hfair hids
  have hquiet := hcareful S hS
  obtain ⟨m', e', htick, hshared', hlog', hpos, hcur⟩ := MarketMaker.onTick_spec hshared hquiet
  have hwindow : S.engine.tradeLog.drop w.session.engine.tradeLog.length = new := by
    rw [hlog]
    exact List.drop_left
  set issued := w.issued ++ idsBetween w.maker.nextOrderId m'.nextOrderId with hissued
  have howned := h.owned_append hcur
  have hlogged := h.logged_append hnew (idsBetween w.maker.nextOrderId m'.nextOrderId)
  rw [← hlog, ← hlog'] at hlogged
  have hown0 (hown : ∀ id ∈ issued, own id) : ∀ id ∈ w.issued, own id :=
    fun id hid => hown id (List.mem_append_left _ hid)
  by_cases hd : MarketMaker.detects S.engine
  · refine ⟨⟨{ S with engine := e' }, m', issued, w.applied ++
      (w.maker.traceFills w.session.engine.tradeLog.length new).1, S.engine.tradeLog.length⟩,
      ?_, ⟨hshared', howned, hlogged, fun hown => ?_, fun hown => ?_, ?_, ?_⟩⟩
    · simp [Desk.step, hS, htick, hd, hwindow, hissued]
    · show _ ++ _ = fillsFrom _ 0 (e'.tradeLog.take S.engine.tradeLog.length)
      rw [hlog', List.take_length, hlog, h.applied_append (hown0 hown) hnew]
    · show m'.netPosition = Int64.ofInt (netTraded _ (e'.tradeLog.take S.engine.tradeLog.length))
      rw [hlog', List.take_length, hpos, if_pos hd, hwindow, hlog,
        h.position_append (hown0 hown) hnew]
    · show ∀ t ∈ e'.tradeLog.drop S.engine.tradeLog.length, _
      rw [hlog', List.drop_length]
      simp
    · exact Nat.le_of_eq (congrArg List.length hlog'.symm)
  · have hd' : MarketMaker.detects S.engine = false := by simpa using hd
    have htake : e'.tradeLog.take w.scanned = w.session.engine.tradeLog.take w.scanned := by
      rw [hlog', hlog]
      exact List.take_append_of_le_length h.scanned_le
    have hdrop : e'.tradeLog.drop w.scanned = w.session.engine.tradeLog.drop w.scanned ++ new := by
      rw [hlog', hlog]
      exact List.drop_append_of_le_length h.scanned_le
    refine ⟨{ w with session := { S with engine := e' }, maker := m', issued := issued }, ?_,
      ⟨hshared', howned, hlogged, fun hown => ?_, fun hown => ?_, ?_, ?_⟩⟩
    · simp [Desk.step, hS, htick, hd, hissued]
    · show w.applied = fillsFrom _ 0 (e'.tradeLog.take w.scanned)
      rw [htake]
      exact h.applied (hown0 hown)
    · show m'.netPosition = Int64.ofInt (netTraded _ (e'.tradeLog.take w.scanned))
      rw [htake, hpos, if_neg hd, Int64.add_zero]
      exact h.position (hown0 hown)
    · show ∀ t ∈ e'.tradeLog.drop w.scanned, _
      rw [hdrop]
      intro t ht
      cases List.mem_append.mp ht with
      | inl ht =>
        exact h.quiet t ht
      | inr ht =>
        obtain ⟨hb, hs⟩ := hquiet.1 hd' t (hwindow ▸ ht)
        exact ⟨fun hown => hb ((hnew t ht).buy hown), fun hown => hs ((hnew t ht).sell hown)⟩
    · show w.scanned ≤ e'.tradeLog.length
      rw [hlog', hlog, List.length_append]
      exact Nat.le_add_right_of_le h.scanned_le

theorem seeded_kept {poolSize : Nat} {udpPub : Bool} {cfg : MarketMakerConfig} {seed : List Op}
    (hseed : Along Session.step Session.Owned (Session.new poolSize udpPub) seed)
    (hids : ∀ op ∈ seed, ∀ id ∈ op.ids, Foreign own id) :
    ∃ w : Desk D, seeded poolSize udpPub cfg seed = some w ∧ w.Kept own := by
  have hlog : (Session.new poolSize udpPub).engine.tradeLog = [] := rfl
  obtain ⟨S, hS, hshared, new, hnewlog, hquotes⟩ :=
    (Session.Shared.new poolSize udpPub own fun _ => 0).run hseed hids
  rw [hlog, List.nil_append] at hnewlog
  have hcur := MarketMaker.current_new (D := D) cfg
  have hnone : ∀ t ∈ new, ¬ own t.buyOrderId ∧ ¬ own t.sellOrderId := by
    intro t ht
    have hq := hquotes t ht
    exact ⟨fun hown => hq.buy_ne (hq.buy hown), fun hown => hq.sell_ne (hq.sell hown)⟩
  refine ⟨⟨S, .new cfg, [], [], 0⟩, by simp [seeded, hS], ⟨?_, ?_, ?_, ?_, ?_, ?_, ?_⟩⟩
  · simpa only [hcur] using hshared
  · intro s hs
    exact absurd (congrFun hcur s) hs
  · intro t ht
    rw [hnewlog] at ht
    obtain ⟨hb, hs⟩ := hnone t ht
    exact ⟨fun hown => absurd hown hb, fun hown => absurd hown hs⟩
  · intro _
    rfl
  · intro _
    rfl
  · intro t ht
    rw [List.drop_zero, hnewlog] at ht
    exact hnone t ht
  · exact Nat.zero_le _

/-- In every run of quiet ticks among others who keep off the ids that `placeQuote` issues,
every fill is applied once and the position is what was bought minus what was sold. -/
theorem simulate_accounted {poolSize : Nat} {udpPub : Bool} {cfg : MarketMakerConfig}
    {seed : List Op} {ticks : List Tick}
    (hseed : Along Session.step Session.Owned (Session.new poolSize udpPub) seed)
    (hne : ∀ op ∈ seed ++ ticks.flatMap Tick.ops, ∀ id ∈ op.ids, id ≠ 0)
    (hfair : ∀ w : Desk D, seeded poolSize udpPub cfg seed = some w → Along step Fair w ticks)
    (hcareful : ∀ w : Desk D, seeded poolSize udpPub cfg seed = some w →
      Along step Careful w ticks) :
    ∃ w : Desk D, simulate poolSize udpPub cfg seed ticks = some w ∧
      ((∀ op ∈ seed ++ ticks.flatMap Tick.ops, ∀ id ∈ op.ids, id ∉ w.issued) → w.Accounted) := by
  set own := KeptOff Op.ids (seed ++ ticks.flatMap Tick.ops)
  have hforeign : ∀ op ∈ seed ++ ticks.flatMap Tick.ops, ∀ id ∈ op.ids, Foreign own id :=
    KeptOff.foreign hne
  obtain ⟨w0, hw0, hkept0⟩ : ∃ w : Desk D, seeded poolSize udpPub cfg seed = some w ∧ w.Kept own :=
    seeded_kept hseed fun op hop => hforeign op (List.mem_append_left _ hop)
  have hticks := along_ids hforeign w0
  have hstep : ∀ (u : Desk D) (tick : Tick), u.Kept own →
      ((u.Fair tick ∧ u.Careful tick) ∧ ∀ op ∈ tick.ops, ∀ id ∈ op.ids, Foreign own id) →
      ∃ u', u.step tick = some u' ∧ u'.Kept own :=
    fun u tick hu hok => hu.step hok.1.1 hok.1.2 hok.2
  obtain ⟨w, hw, hkept⟩ := run_invariant hstep hkept0
    (((hfair w0 hw0).and (hcareful w0 hw0)).and hticks)
  exact ⟨w, by simp [simulate, hw0, hw], fun hkeep => hkept.accounted (KeptOff.of_unused hkeep)⟩

section Runs

/-- Exact on the prices below. -/
instance : Double ℚ where
  ofInt64 x := x.toInt
  lt a b := a < b

def quoteConfig : MarketMakerConfig := { halfSpread := 10000, quoteSize := 5, startingId := 50 }

def quoteSeed : List Op :=
  [.acquire 1 1000000 5 .buy false, .process 7 1 1, .acquire 2 2000000 5 .sell false, .process 6 1 1]

def quoteClock : TickClock := ⟨20, 21, 22, 23, 24, 25⟩

def soldTicks : List Tick :=
  [⟨[], quoteClock⟩, ⟨[.acquire 3 0 3 .sell true, .process 3 1 1], quoteClock⟩]

theorem simulate_accounted_sold :
    ∃ w : Desk ℚ, simulate 8 false quoteConfig quoteSeed soldTicks = some w ∧
      w.scanned = 1 ∧ w.applied = [(0, .buy)] ∧ w.maker.netPosition = 3 ∧ w.Accounted := by
  have hseed : Along Session.step Session.Owned (Session.new 8 false) quoteSeed := by decide +kernel
  have hall : (seeded 8 false quoteConfig quoteSeed).all (fun w : Desk ℚ =>
      decide (Along step Fair w soldTicks) && decide (Along step Careful w soldTicks)) = true := by
    decide +kernel
  have hticks (w : Desk ℚ) (hw : seeded 8 false quoteConfig quoteSeed = some w) :
      Along step Fair w soldTicks ∧ Along step Careful w soldTicks := by
    simpa using (Option.all_eq_true _ _).mp hall w hw
  have hne : ∀ op ∈ quoteSeed ++ soldTicks.flatMap Tick.ops, ∀ id ∈ op.ids, id ≠ 0 := by
    simp [quoteSeed, soldTicks, Op.ids]
  obtain ⟨w, hw, hacc⟩ := simulate_accounted hseed hne
    (fun w0 hw0 => (hticks w0 hw0).1) fun w0 hw0 => (hticks w0 hw0).2
  have hend : (simulate 8 false quoteConfig quoteSeed soldTicks).map (fun w : Desk ℚ =>
      (w.issued, w.scanned, w.applied, w.maker.netPosition)) =
      some ([50, 51, 52, 53], 1, [(0, .buy)], 3) := by decide +kernel
  rw [hw] at hend
  obtain ⟨hissued, hrest⟩ := Prod.mk.inj (Option.some.inj hend)
  obtain ⟨hscanned, hrest⟩ := Prod.mk.inj hrest
  obtain ⟨happlied, hposition⟩ := Prod.mk.inj hrest
  refine ⟨w, hw, hscanned, happlied, hposition, hacc ?_⟩
  simp [hissued, quoteSeed, soldTicks, Op.ids]

/-- In the second tick the only other buy is cancelled and someone sells 5 to the quotes:
the tick ends without a best bid. In the third somebody bids again. -/
def lostTicks : List Tick :=
  [⟨[], quoteClock⟩,
   ⟨[.cancel 1 1, .acquire 3 0 5 .sell true, .process 7 1 1], quoteClock⟩,
   ⟨[.acquire 4 1000000 5 .buy false, .process 7 1 1], quoteClock⟩]

/-- The quote 50 bought 5, which the detection of the third tick has behind it, and the
position is 0. -/
theorem lostTicks_unaccounted :
    (∀ op ∈ quoteSeed ++ lostTicks.flatMap Tick.ops, ∀ id ∈ op.ids, id ≠ 0) ∧
    Along Session.step Session.Owned (Session.new 8 false) quoteSeed ∧
    (∀ w : Desk ℚ, seeded 8 false quoteConfig quoteSeed = some w → Along step Fair w lostTicks) ∧
    ∃ w : Desk ℚ, simulate 8 false quoteConfig quoteSeed lostTicks = some w ∧
      (∀ op ∈ quoteSeed ++ lostTicks.flatMap Tick.ops, ∀ id ∈ op.ids, id ∉ w.issued) ∧
      w.session.engine.tradeLog = [⟨50, 3, 1490000, 5, 1⟩] ∧ 50 ∈ w.issued ∧ w.scanned = 1 ∧
      w.maker.netPosition = 0 ∧ ¬ w.Accounted := by
  have hall : (seeded 8 false quoteConfig quoteSeed).all (fun w : Desk ℚ =>
      decide (Along step Fair w lostTicks)) = true := by decide +kernel
  refine ⟨?_, by decide +kernel, fun w hw => ?_, ?_⟩
  · simp [quoteSeed, lostTicks, Op.ids]
  · exact of_decide_eq_true ((Option.all_eq_true _ _).mp hall w hw)
  have hend : (simulate 8 false quoteConfig quoteSeed lostTicks).map (fun w : Desk ℚ =>
      (w.session.engine.tradeLog, w.issued, w.scanned, w.maker.netPosition)) =
      some ([⟨50, 3, 1490000, 5, 1⟩], [50, 51, 52, 53], 1, 0) := by decide +kernel
  obtain ⟨w, hw, heq⟩ := Option.map_eq_some_iff.mp hend
  obtain ⟨hlog, hrest⟩ := Prod.mk.inj heq
  obtain ⟨hissued, hrest⟩ := Prod.mk.inj hrest
  obtain ⟨hscanned, hposition⟩ := Prod.mk.inj hrest
  refine ⟨w, hw, ?_, hlog, by simp [hissued], hscanned, hposition, fun hacc => ?_⟩
  · simp [hissued, quoteSeed, lostTicks, Op.ids]
  · have hbought := hacc.position
    rw [hposition, hlog, hissued, hscanned] at hbought
    exact absurd hbought (by decide)

end Runs

end Desk
end LobCity
