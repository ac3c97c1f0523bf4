import LobCity.FillRuns
import LobCity.PriceChecks
import Mathlib.Algebra.Order.Ring.Rat

/-! Quantities on their way from a message to the book and the trade statistics. A message
carries 64 bits; the check and the handlers each keep the lower 32. -/
namespace LobCity
open Library

namespace Engine
variable {D : Type} [Double D]
open Double (ofInt64)

def vwapSums (log : List Trade) : D × D :=
  log.foldl (fun (cumulativePxQty, cumulativeQty) t =>
    let px := ofInt64 t.price / ofInt64 10000
    (cumulativePxQty + px * ofInt64 t.quantity.toSigned, cumulativeQty + ofInt64 t.quantity.toSigned))
    (ofInt64 0, ofInt64 0)

def getVWAP (e : Engine) : D :=
  if e.tradeLog = [] then ofInt64 0
  else
    let (cumulativePxQty, cumulativeQty) := vwapSums e.tradeLog
    cumulativePxQty / cumulativeQty

end Engine

/-- What is asked of the sums of a `double`: adding positive whole numbers to zero gives
numbers of a kind that zero is not. -/
structure Double.Grows (D : Type) [Double D] (pos : D → Prop) : Prop where
  first : ∀ q : Quantity, 0 < q → pos (Double.ofInt64 0 + Double.ofInt64 q.toSigned)
  next : ∀ x (q : Quantity), pos x → 0 < q → pos (x + Double.ofInt64 q.toSigned)
  ne_zero : ∀ x, pos x → x ≠ Double.ofInt64 0

theorem Double.Grows.vwapSums {D : Type} [Double D] {pos : D → Prop} (h : Double.Grows D pos)
    {log : List Trade} (hne : log ≠ []) (hlog : ∀ t ∈ log, 0 < t.quantity) :
    (Engine.vwapSums log : D × D).2 ≠ Double.ofInt64 0 := by
  have hpos : pos (Engine.vwapSums log : D × D).2 := by
    induction log using List.reverseRecOn with
    | nil => exact absurd rfl hne
    | append_singleton log t ih =>
      have hsum : (Engine.vwapSums (log ++ [t]) : D × D).2 =
          (Engine.vwapSums log : D × D).2 + Double.ofInt64 t.quantity.toSigned := by
        simp [Engine.vwapSums]
      rw [hsum]
      by_cases hnil : log = []
      · subst hnil
        exact h.first t.quantity (hlog t (by simp))
      · exact h.next _ _ (ih hnil fun t' ht => hlog t' (by simp [ht])) (hlog t (by simp))
  exact h.ne_zero _ hpos

theorem fillGreedily_pos {reaches : Price → Bool} {L : List Resting} {q : Quantity}
    (hL : ∀ r ∈ L, 0 < r.quantity) : ∀ f ∈ (fillGreedily reaches L q).fills, 0 < f.quantity := by
  intro f hf
  cases fillGreedily_split reaches L q with
  | inl h =>
    obtain ⟨hL', hF, -⟩ := h
    rw [hF] at hf
    obtain ⟨r, hr, rfl⟩ := List.mem_map.mp hf
    exact hL r (by rw [hL']; simp [hr])
  | inr h =>
    obtain ⟨r, B, n, hL', hF, h0, -⟩ := h
    rw [hF] at hf
    cases List.mem_append.mp hf with
    | inl hf =>
      obtain ⟨r', hr', rfl⟩ := List.mem_map.mp hf
      exact hL r' (by rw [hL']; simp [hr'])
    | inr hf =>
      obtain rfl := List.mem_singleton.mp hf
      exact h0

namespace Book
variable {b : Book}

structure Filled (b : Book) : Prop where
  positive : b.Positive
  trades : ∀ t ∈ b.trades, 0 < t.quantity

namespace Filled

theorem acquire (h : b.Filled) (id : OrderId) (p : Price) (q : Quantity) (s : Side) (m : Bool) :
    (b.acquire id p q s m).2.Filled :=
  ⟨h.positive.acquire id p q s m, by rw [trades_acquire]; exact h.trades⟩

theorem process (h : b.Filled) (o : Incoming) (time : Timestamp) : (b.process o time).Filled := by
  refine ⟨h.positive.process o time, fun t ht => ?_⟩
  rw [trades_process_eq] at ht
  cases List.mem_append.mp ht with
  | inl ht =>
    exact h.trades t ht
  | inr ht =>
    obtain ⟨f, hf, rfl⟩ := List.mem_map.mp ht
    exact fillGreedily_pos (h.positive o.side.opposite) f hf

theorem cancel (h : b.Filled) (hd : b.Distinct) (hi : b.Indexed) (id : OrderId) :
    (b.cancel id).Filled :=
  ⟨h.positive.cancel hd hi id, by rw [trades_cancel]; exact h.trades⟩

theorem modify (h : b.Filled) (hd : b.Distinct) (hi : b.Indexed) (origId newId : OrderId)
    (newPrice : Price) {newQty : Quantity} (hq : 0 < newQty) :
    (b.modify origId newId newPrice newQty).Filled :=
  ⟨h.positive.modify hd hi origId newId newPrice hq, by rw [trades_modify]; exact h.trades⟩

end Filled
end Book

namespace OrderEntryGateway
variable {g : OrderEntryGateway}

/-- An admitted `D` or `G` message is for 1 to `maxOrderQty` shares, and the quantity that is
handed on is that of the message. -/
def Faithful (g : OrderEntryGateway) (m : FixMessage × Clock) : Prop :=
  (m.1.msgType = byte 'D' ∨ m.1.msgType = byte 'G') → g.verdict m.1 m.2 = .none →
    1 ≤ m.1.qty.toInt ∧ m.1.qty.toInt ≤ g.risk.config.maxOrderQty.toNat ∧
      ((toQuantity m.1.qty).toNat : Int) = m.1.qty.toInt

instance (g : OrderEntryGateway) : DecidablePred g.Faithful := fun _ =>
  inferInstanceAs (Decidable (_ → _ → _ ∧ _ ∧ _))

/-- A `D` or `G` message for `2 ^ 32` shares or more, of which the lower 32 bits pass. -/
def Oversized (g : OrderEntryGateway) (m : FixMessage × Clock) : Prop :=
  (m.1.msgType = byte 'D' ∨ m.1.msgType = byte 'G') ∧ 2 ^ 32 ≤ m.1.qty.toInt ∧
    toQuantity m.1.qty ≤ g.risk.config.maxOrderQty ∧
    (m.1.ordType ≠ byte '1' → (g.admission m.1).Checked g.risk.config) ∧
    (g.synced.checkRateLimit m.2.risk).1 = .none

/-- No order rests with quantity 0, no trade has it, and the average price has a divisor. -/
structure Quantified (D : Type) [Double D] (g : OrderEntryGateway) : Prop where
  resting : ∀ s, ∀ order ∈ g.engine.orders s, (g.engine.heap order).quantity ≠ 0
  traded : ∀ t ∈ g.engine.tradeLog, t.quantity ≠ 0
  divisor : g.engine.tradeLog ≠ [] → (Engine.vwapSums g.engine.tradeLog : D × D).2 ≠ Double.ofInt64 0

theorem faithful_iff (m : FixMessage × Clock) : g.Faithful m ↔ ¬ g.Oversized m := by
  unfold Faithful Oversized
  rw [verdict_iff]
  constructor
  · rintro hfaithful ⟨hscreened, hlarge, hs, hp, hr⟩
    have hzero : (0 : Int64).toInt = 0 := rfl
    have hq : 0 < m.1.qty := Int64.lt_iff_toInt_lt.mpr (by omega)
    obtain ⟨-, hle, -⟩ := hfaithful hscreened ⟨hq, hs, hp, hr⟩
    have hmax := g.risk.config.maxOrderQty.toNat_lt
    omega
  · rintro hsmall hscreened ⟨hq, hs, hp, hr⟩
    have hq : 0 < m.1.qty.toInt := Int64.lt_iff_toInt_lt.mp hq
    have hlt : m.1.qty.toInt < 2 ^ 32 := Int.not_le.mp fun hle => hsmall ⟨hscreened, hle, hs, hp, hr⟩
    have hsame : ((toQuantity m.1.qty).toNat : Int) = m.1.qty.toInt := by
      rw [toNat_toQuantity hq.le, Int.emod_eq_of_lt hq.le hlt]
    have hs := UInt32.le_iff_toNat_le.mp hs
    exact ⟨hq, by omega, hsame⟩

/-- A faithful message keeps orders and trades for nothing away. -/
theorem Sound.filled_step (h : g.Sound) (hf : g.engine.book.Filled) {m : FixMessage × Clock}
    (hm : g.Faithful m) :
    ∃ g', g.step m = some g' ∧ g'.Sound ∧ g'.engine.book.Filled := by
  obtain ⟨g', hg, h', hb, -⟩ := h.onParsedMessage m.1 m.2
  refine ⟨g', hg, h', ?_⟩
  rw [hb]
  rcases g.bookAfter_cases m.1 m.2 with ⟨-, -, hbook⟩ | ⟨-, hbook⟩ | ⟨hG, hv, hbook⟩ | ⟨-, -, hbook⟩
  · rw [hbook]
    have hnew : (g.engine.book.newOrder m.1).2.Filled := hf.acquire _ _ _ _ _
    exact hnew.process _ _
  · rw [hbook]
    exact hf.cancel h.distinct h.indexed _
  · rw [hbook]
    obtain ⟨hpos, -, hsame⟩ := hm (Or.inr hG) hv
    have hq : 0 < toQuantity m.1.qty := UInt32.lt_iff_toNat_lt.mpr (by
      have hzero : (0 : Quantity).toNat = 0 := rfl
      omega)
    exact hf.modify h.distinct h.indexed _ _ _ hq
  · rw [hbook]
    exact hf

theorem quantified_of_filled {D : Type} [Double D] {pos : D → Prop} (hD : Double.Grows D pos)
    (h : g.engine.book.Filled) : g.Quantified D where
  resting s order horder := by
    have hr : g.engine.resting order ∈ g.engine.book.side s := List.mem_map_of_mem horder
    exact UInt32.pos_iff_ne_zero.mp (h.positive s _ hr)
  traded t ht := UInt32.pos_iff_ne_zero.mp (h.trades t ht)
  divisor hne := hD.vwapSums hne h.trades

/-- In every state a message is faithful exactly when it is not oversized. And over every
history of messages: all of them are faithful, and after each no order and no trade is for
nothing and `getVWAP` has a divisor, exactly when none is oversized. -/
theorem run_quantified_iff {D : Type} [Double D] {pos : D → Prop} (hD : Double.Grows D pos)
    (poolSize : Nat) (udpPub : Bool) (cfg : RiskConfig) (msgs : List (FixMessage × Clock)) :
    (∀ (g : OrderEntryGateway) (m : FixMessage × Clock), g.Faithful m ↔ ¬ g.Oversized m) ∧
      (Along step Faithful (new poolSize udpPub cfg) msgs ∧
          (∀ n g, run step (new poolSize udpPub cfg) (msgs.take n) = some g → g.Quantified D) ↔
        Along step (fun g m => ¬ g.Oversized m) (new poolSize udpPub cfg) msgs) := by
  refine ⟨fun g m => faithful_iff m, ?_⟩
  have hfaithful : Along step Faithful (new poolSize udpPub cfg) msgs ↔
      Along step (fun g m => ¬ g.Oversized m) (new poolSize udpPub cfg) msgs :=
    ⟨fun h => h.mono fun g m hm => (faithful_iff m).mp hm,
      fun h => h.mono fun g m hm => (faithful_iff m).mpr hm⟩
  rw [← hfaithful]
  refine ⟨And.left, fun hall => ⟨hall, fun n g hrun => ?_⟩⟩
  have hnew : (new poolSize udpPub cfg).engine.book.Filled := by
    show (Engine.new poolSize udpPub).book.Filled
    rw [(Engine.new_wellFormed poolSize udpPub).2]
    exact ⟨by simp [Book.Positive, Book.new], by simp [Book.new]⟩
  have hstep : ∀ (g : OrderEntryGateway) (m : FixMessage × Clock),
      g.Sound ∧ g.engine.book.Filled → g.Faithful m →
      ∃ g', g.step m = some g' ∧ g'.Sound ∧ g'.engine.book.Filled :=
    fun g m hg hm => hg.1.filled_step hg.2 hm
  rw [← List.take_append_drop n msgs] at hall
  obtain ⟨g', hrun', -, hfilled⟩ :=
    run_invariant hstep ⟨new_sound poolSize udpPub cfg, hnew⟩ (along_append.mp hall).1
  obtain rfl := Option.some.inj (hrun.symm.trans hrun')
  exact quantified_of_filled hD hfilled

theorem grows_rat : Double.Grows ℚ (0 < ·) := by
  have hcast (q : Quantity) (hq : 0 < q) : (0 : ℚ) < q.toSigned.toInt := by
    rw [q.toInt_toSigned]
    exact_mod_cast UInt32.lt_iff_toNat_lt.mp hq
  refine ⟨fun q hq => ?_, fun x q hx hq => ?_, fun x hx => ?_⟩
  · show (0 : ℚ) < 0 + q.toSigned.toInt
    rw [zero_add]
    exact hcast q hq
  · show (0 : ℚ) < x + q.toSigned.toInt
    exact add_pos hx (hcast q hq)
  · exact ne_of_gt hx

/-- A limit buy of 10 at 1 is replaced by one of `2 ^ 32`, and someone sells 5 at market. -/
def oversizedMsgs : List (FixMessage × Clock) :=
  [({ msgType := byte 'D', side := byte '1', ordType := byte '2', qty := 10, price := 1,
      clOrdID := [byte '1'], origClOrdID := [] }, ⟨5, 6, 7⟩),
   ({ msgType := byte 'G', side := byte '1', ordType := byte '2', qty := 4294967296, price := 1,
      clOrdID := [byte '2'], origClOrdID := [byte '1'] }, ⟨8, 9, 10⟩),
   ({ msgType := byte 'D', side := byte '2', ordType := byte '1', qty := 5, price := 0,
      clOrdID := [byte '3'], origClOrdID := [] }, ⟨11, 12, 13⟩)]

/-- The replaced order rests with quantity 0, then there is a trade of 0, and `getVWAP`
divides by 0. -/
theorem oversizedMsgs_unfilled :
    (∃ g, run step (new 2 false {}) (oversizedMsgs.take 2) = some g ∧
      g.engine.orders .buy = [1] ∧ (g.engine.heap 1).quantity = 0 ∧ ¬ g.Quantified ℚ) ∧
    (∃ g, run step (new 2 false {}) oversizedMsgs = some g ∧
      g.engine.tradeLog = [⟨2, 3, 1, 0, 12⟩] ∧
      (Engine.vwapSums g.engine.tradeLog : ℚ × ℚ).2 = 0 ∧ ¬ g.Quantified ℚ) ∧
    ¬ Along step Faithful (new 2 false {}) oversizedMsgs := by
  refine ⟨?_, ?_, by decide +kernel⟩
  · have hrun : (run step (new 2 false {}) (oversizedMsgs.take 2)).map (fun g =>
        (g.engine.orders .buy, (g.engine.heap 1).quantity)) = some ([1], 0) := by decide +kernel
    obtain ⟨g, hg, heq⟩ := Option.map_eq_some_iff.mp hrun
    obtain ⟨horders, hzero⟩ := Prod.mk.inj heq
    exact ⟨g, hg, horders, hzero, fun h => h.resting .buy 1 (by rw [horders]; simp) hzero⟩
  · have hrun : (run step (new 2 false {}) oversizedMsgs).map (fun g => g.engine.tradeLog) =
        some [⟨2, 3, 1, 0, 12⟩] := by decide +kernel
    obtain ⟨g, hg, hlog⟩ := Option.map_eq_some_iff.mp hrun
    have hsum : (Engine.vwapSums g.engine.tradeLog : ℚ × ℚ).2 = 0 := by
      rw [hlog]
      decide +kernel
    exact ⟨g, hg, hlog, hsum, fun h => h.traded ⟨2, 3, 1, 0, 12⟩ (by rw [hlog]; simp) rfl⟩

theorem run_quantified_first :
    Along step Faithful (new 2 false {}) (oversizedMsgs.take 1) ∧
      ∀ n g, run step (new 2 false {}) ((oversizedMsgs.take 1).take n) = some g →
        g.Quantified ℚ := by
  have hfaithful : Along step Faithful (new 2 false {}) (oversizedMsgs.take 1) := by decide +kernel
  exact (run_quantified_iff grows_rat 2 false {} (oversizedMsgs.take 1)).2.mpr
    (hfaithful.mono fun g m hm => (faithful_iff m).mp hm)

end OrderEntryGateway
end LobCity
