import LobCity.Gateway

/-! Two runs of the gateway, with and without the messages that the risk checks reject. The
rejected ones count in the rate window, but in a window that is over its limit already or
of a limiter that lets nothing through. -/
namespace LobCity
open Library

namespace RiskEngine
variable {r r' : RiskEngine} {msg : FixMessage} {nowNs : UInt64}

def ReachesRateCheck (r : RiskEngine) (msg : FixMessage) : Prop :=
  checkValidity msg = .none ∧ r.checkFatFingerSize msg = .none ∧ r.checkNotional msg = .none ∧
    r.checkPriceCollar msg = .none

instance (r : RiskEngine) (msg : FixMessage) : Decidable (r.ReachesRateCheck msg) :=
  inferInstanceAs (Decidable (_ ∧ _ ∧ _ ∧ _))

def Expired (r : RiskEngine) (nowNs : UInt64) : Prop :=
  nowNs - r.windowStartNs ≥ r.config.windowDurationNs

instance (r : RiskEngine) (nowNs : UInt64) : Decidable (r.Expired nowNs) :=
  inferInstanceAs (Decidable (_ ≥ _))

structure SameTerms (r r' : RiskEngine) : Prop where
  config : r'.config = r.config
  bestBid : r'.bestBid = r.bestBid
  bestAsk : r'.bestAsk = r.bestAsk

theorem SameTerms.reaches_iff (h : r.SameTerms r') :
    r'.ReachesRateCheck msg ↔ r.ReachesRateCheck msg := by
  have hsize : r'.checkFatFingerSize msg = r.checkFatFingerSize msg := by
    rw [checkFatFingerSize, h.config, checkFatFingerSize]
  have hnotional : r'.checkNotional msg = r.checkNotional msg := by
    rw [checkNotional, h.config, checkNotional]
  have hcollar : r'.checkPriceCollar msg = r.checkPriceCollar msg := by
    rw [checkPriceCollar, refPrice, h.config, h.bestBid, h.bestAsk, checkPriceCollar, refPrice]
  rw [ReachesRateCheck, hsize, hnotional, hcollar, ReachesRateCheck]

/-- The counter after a message that reaches the rate check. -/
def counted (r : RiskEngine) (nowNs : UInt64) : UInt32 :=
  if r.Expired nowNs then 1 else r.windowMsgCount + 1

theorem checkRateLimit_window (r : RiskEngine) (s : RiskStats) (nowNs : UInt64) :
    let x := { r with stats := s }.checkRateLimit nowNs
    (x.1 = .none ↔ r.counted nowNs ≤ r.config.maxMsgsPerWindow) ∧
      x.2.windowStartNs = (if r.Expired nowNs then nowNs else r.windowStartNs) ∧
      x.2.windowMsgCount = r.counted nowNs := by
  intro x
  have hcount : x.2.windowMsgCount = r.counted nowNs ∧
      x.2.windowStartNs = (if r.Expired nowNs then nowNs else r.windowStartNs) := by
    by_cases h : nowNs - r.windowStartNs ≥ r.config.windowDurationNs <;>
      simp [x, checkRateLimit, openWindow, counted, Expired, h]
  have hverdict :
      x.1 = if r.counted nowNs > r.config.maxMsgsPerWindow then .rateLimit else .none := by
    rw [← hcount.1]
    simp [x, checkRateLimit, openWindow_config]
  refine ⟨?_, hcount.2, hcount.1⟩
  rw [hverdict]
  split_ifs with h
  · simpa using h
  · simpa using h

/-- A message that one of the first four checks stops leaves the window alone. -/
theorem checkOrder_unreached (h : ¬ r.ReachesRateCheck msg) (nowNs : UInt64) :
    let x := r.checkOrder msg nowNs
    x.1 ≠ .none ∧ x.2.windowStartNs = r.windowStartNs ∧ x.2.windowMsgCount = r.windowMsgCount := by
  unfold checkOrder
  simp only [checks_withStats, reject]
  by_cases hv : checkValidity msg = .none
  · by_cases hs : r.checkFatFingerSize msg = .none
    · by_cases hn : r.checkNotional msg = .none
      · have hc : r.checkPriceCollar msg ≠ .none := fun hc => h ⟨hv, hs, hn, hc⟩
        simp [hv, hs, hn, hc]
      · simp [hv, hs, hn]
    · simp [hv, hs]
  · simp [hv]

/-- A message that gets to the rate check is judged by the counter it advances. -/
theorem checkOrder_reached (h : r.ReachesRateCheck msg) (nowNs : UInt64) :
    let x := r.checkOrder msg nowNs
    (x.1 = .none ↔ r.counted nowNs ≤ r.config.maxMsgsPerWindow) ∧
      x.2.windowStartNs = (if r.Expired nowNs then nowNs else r.windowStartNs) ∧
      x.2.windowMsgCount = r.counted nowNs := by
  intro x
  obtain ⟨hv, hs, hn, hc⟩ := h
  have hrate := r.checkRateLimit_window { r.stats with totalChecked := r.stats.totalChecked + 1 } nowNs
  have hx : x = r.checkOrder msg nowNs := rfl
  unfold checkOrder at hx
  simp only [checks_withStats, reject, hv, hs, hn, hc, ne_eq, not_true_eq_false,
    if_false] at hx
  generalize { r with stats.totalChecked := r.stats.totalChecked + 1 }.checkRateLimit nowNs = y
    at hx hrate
  obtain ⟨hverdict, hstart, hcount⟩ := hrate
  by_cases hr : y.1 = .none
  · rw [hx, if_neg (not_not.mpr hr)]
    exact ⟨iff_of_true rfl (hverdict.mp hr), hstart, hcount⟩
  · rw [hx, if_pos hr]
    exact ⟨hverdict, hstart, hcount⟩

end RiskEngine

namespace OrderEntryGateway

/-- Only `D` and `G` messages are put to the risk engine. -/
def Screened (m : FixMessage × Clock) : Prop := m.1.msgType = byte 'D' ∨ m.1.msgType = byte 'G'

instance : DecidablePred Screened := fun _ => inferInstanceAs (Decidable (_ ∨ _))

def decision (g : OrderEntryGateway) (m : FixMessage × Clock) : Option RiskRejectReason :=
  if Screened m then some (g.verdict m.1 m.2) else none

def Rejects (g : OrderEntryGateway) (m : FixMessage × Clock) : Prop :=
  Screened m ∧ g.verdict m.1 m.2 ≠ .none

instance (g : OrderEntryGateway) : DecidablePred g.Rejects := fun _ =>
  inferInstanceAs (Decidable (_ ∧ _))

def admitted (e : Engine) (m : FixMessage × Clock) : Option Engine :=
  let msg := m.1
  if msg.msgType = byte 'D' then
    let (order, e1) := e.acquire (numericId msg.clOrdID) msg.price (toQuantity msg.qty)
      (if msg.side = byte '1' then .buy else .sell) (msg.ordType = byte '1')
    e1.processOrder order m.2.time m.2.now
  else if msg.msgType = byte 'F' then some (e.cancelOrder (numericId msg.clOrdID) m.2.now)
  else if msg.msgType = byte 'G' then
    some (e.modifyOrder (numericId msg.origClOrdID) (numericId msg.clOrdID) msg.price
      (toQuantity msg.qty) m.2.now)
  else some e

def riskAfter (g : OrderEntryGateway) (m : FixMessage × Clock) : RiskEngine :=
  if Screened m then g.screened m.1 m.2 else g.risk

theorem step_rejected {g : OrderEntryGateway} {m : FixMessage × Clock} (h : g.Rejects m) :
    g.step m = some ⟨g.engine, g.riskAfter m⟩ := by
  obtain ⟨hs, hv⟩ := h
  rw [riskAfter, if_pos hs]
  unfold step onParsedMessage
  cases hs with
  | inl hD =>
    rw [if_pos hD]
    exact handleNewOrderSingle_rejected hv
  | inr hG =>
    have hD : m.1.msgType ≠ byte 'D' := by
      rw [hG]
      decide
    have hF : m.1.msgType ≠ byte 'F' := by
      rw [hG]
      decide
    rw [if_neg hD, if_neg hF, if_pos hG, handleCancelReplace_rejected hv]

theorem step_admitted {g : OrderEntryGateway} {m : FixMessage × Clock} (h : ¬ g.Rejects m) :
    g.step m = (admitted g.engine m).map fun e => ⟨e, g.riskAfter m⟩ := by
  have hverdict (hs : Screened m) : g.verdict m.1 m.2 = .none := by
    by_contra hv
    exact h ⟨hs, hv⟩
  unfold step onParsedMessage admitted
  by_cases hD : m.1.msgType = byte 'D'
  · have hv : (g.synced.checkOrder m.1 m.2.risk).1 = .none := hverdict (Or.inl hD)
    have hs : Screened m := Or.inl hD
    simp [hD, handleNewOrderSingle, hv, riskAfter, hs, screened]
  by_cases hF : m.1.msgType = byte 'F'
  · have hs : ¬ Screened m := by
      unfold Screened
      rw [hF]
      decide
    simp only [if_neg hD, if_pos hF, riskAfter, if_neg hs, Option.map_some, handleCancelRequest]
  by_cases hG : m.1.msgType = byte 'G'
  · have hs : Screened m := Or.inr hG
    simp only [if_neg hD, if_neg hF, if_pos hG, riskAfter, if_pos hs, Option.map_some,
      handleCancelReplace_accepted (hverdict hs)]
  · have hs : ¬ Screened m := not_or.mpr ⟨hD, hG⟩
    simp only [if_neg hD, if_neg hF, if_neg hG, riskAfter, if_neg hs, Option.map_some]

def kept (g : OrderEntryGateway) : List (FixMessage × Clock) → List (FixMessage × Clock)
  | [] => []
  | m :: msgs =>
    let rest := match g.step m with
      | none => []
      | some g' => g'.kept msgs
    if g.Rejects m then rest else m :: rest

def decisions (g : OrderEntryGateway) :
    List (FixMessage × Clock) → List ((FixMessage × Clock) × Option RiskRejectReason)
  | [] => []
  | m :: msgs => (m, g.decision m) :: match g.step m with
    | none => []
    | some g' => g'.decisions msgs

end OrderEntryGateway

structure Metered where
  gateway : OrderEntryGateway
  inWindow : Nat

namespace Metered

def inWindowAfter (w : Metered) (m : FixMessage × Clock) : Nat :=
  if OrderEntryGateway.Screened m ∧ w.gateway.synced.ReachesRateCheck m.1 then
    if w.gateway.synced.Expired m.2.risk then 1 else w.inWindow + 1
  else w.inWindow

def step (w : Metered) (m : FixMessage × Clock) : Option Metered :=
  (w.gateway.step m).map fun g => ⟨g, w.inWindowAfter m⟩

def Countable (w : Metered) (m : FixMessage × Clock) : Prop := w.inWindowAfter m < 2 ^ 32

instance (w : Metered) : DecidablePred w.Countable := fun _ => inferInstanceAs (Decidable (_ < _))

end Metered

namespace OrderEntryGateway
variable {g h : OrderEntryGateway} {m : FixMessage × Clock} {n : Nat}

/-- `h` has seen what `g` accepted: the same engine, and unless nothing gets through, the
same window with the same count, or with any if that of `g` is over its limit. -/
structure Mirrors (g h : OrderEntryGateway) (n : Nat) : Prop where
  engine : h.engine = g.engine
  config : h.risk.config = g.risk.config
  counter : g.risk.windowMsgCount.toNat = n
  window : g.risk.config.maxMsgsPerWindow = 0 ∨ h.risk.windowStartNs = g.risk.windowStartNs ∧
    (h.risk.windowMsgCount = g.risk.windowMsgCount ∨
      g.risk.config.maxMsgsPerWindow < g.risk.windowMsgCount)

theorem Mirrors.sameTerms (hm : g.Mirrors h n) : g.synced.SameTerms h.synced where
  config := hm.config
  bestBid := congrArg Engine.getBestBid hm.engine
  bestAsk := congrArg Engine.getBestAsk hm.engine

theorem reaches_of_not_rejects (h : ¬ g.Rejects m) (hs : Screened m) :
    g.synced.ReachesRateCheck m.1 := by
  by_contra hr
  exact h ⟨hs, (RiskEngine.checkOrder_unreached hr m.2.risk).1⟩

theorem inWindowAfter_reached (hs : Screened m) (hreach : g.synced.ReachesRateCheck m.1) :
    Metered.inWindowAfter ⟨g, n⟩ m = if g.synced.Expired m.2.risk then 1 else n + 1 :=
  if_pos ⟨hs, hreach⟩

theorem Mirrors.counted (hm : g.Mirrors h n) (hs : Screened m)
    (hreach : g.synced.ReachesRateCheck m.1) (hn : Metered.inWindowAfter ⟨g, n⟩ m < 2 ^ 32) :
    (g.synced.counted m.2.risk).toNat = Metered.inWindowAfter ⟨g, n⟩ m := by
  have hcount : g.synced.windowMsgCount.toNat = n := hm.counter
  rw [inWindowAfter_reached hs hreach] at hn ⊢
  unfold RiskEngine.counted
  by_cases hx : g.synced.Expired m.2.risk
  · rw [if_pos hx, if_pos hx]
    rfl
  · rw [if_neg hx] at hn
    rw [if_neg hx, if_neg hx, UInt32.toNat_add, hcount]
    exact Nat.mod_eq_of_lt hn

theorem inWindowAfter_unreached (hreach : ¬ g.synced.ReachesRateCheck m.1) :
    Metered.inWindowAfter ⟨g, n⟩ m = n := if_neg fun h => hreach h.2

/-- A message that the one run rejects is not missed in the other. -/
theorem Mirrors.rejected (hm : g.Mirrors h n) (hn : Metered.inWindowAfter ⟨g, n⟩ m < 2 ^ 32)
    (hr : g.Rejects m) :
    Mirrors ⟨g.engine, g.riskAfter m⟩ h (Metered.inWindowAfter ⟨g, n⟩ m) := by
  obtain ⟨hs, hv⟩ := hr
  have hafter : g.riskAfter m = (g.synced.checkOrder m.1 m.2.risk).2 := if_pos hs
  have hcfg : (g.riskAfter m).config = g.risk.config := by
    rw [hafter]
    exact g.synced.checkOrder_config m.1 m.2.risk
  by_cases hreach : g.synced.ReachesRateCheck m.1
  · obtain ⟨hverdict, hstart, hcount⟩ := RiskEngine.checkOrder_reached hreach m.2.risk
    rw [← hafter] at hstart hcount
    have hover : g.risk.config.maxMsgsPerWindow < g.synced.counted m.2.risk :=
      UInt32.not_le.mp fun hle => hv (hverdict.mpr hle)
    refine ⟨hm.engine, hm.config.trans hcfg.symm, ?_, ?_⟩
    · rw [hcount]
      exact hm.counted hs hreach hn
    · by_cases hzero : g.risk.config.maxMsgsPerWindow = 0
      · exact Or.inl (hcfg ▸ hzero)
      · have hlive : ¬ g.synced.Expired m.2.risk := by
          intro hx
          rw [RiskEngine.counted, if_pos hx] at hover
          grind
        rw [if_neg hlive] at hstart
        have hsame := (hm.window.resolve_left hzero).1
        refine Or.inr ⟨hsame.trans hstart.symm, Or.inr ?_⟩
        rw [hcfg, hcount]
        exact hover
  · obtain ⟨-, hstart, hcount⟩ := RiskEngine.checkOrder_unreached hreach m.2.risk
    rw [← hafter] at hstart hcount
    rw [inWindowAfter_unreached hreach]
    refine ⟨hm.engine, hm.config.trans hcfg.symm, ?_, ?_⟩
    · rw [hcount]
      exact hm.counter
    · rw [hcfg, hstart, hcount]
      exact hm.window

theorem Mirrors.expired_iff (hm : g.Mirrors h n)
    (hstart : h.risk.windowStartNs = g.risk.windowStartNs) (nowNs : UInt64) :
    h.synced.Expired nowNs ↔ g.synced.Expired nowNs := by
  have hstart : h.synced.windowStartNs = g.synced.windowStartNs := hstart
  have hcfg : h.synced.config = g.synced.config := hm.config
  rw [RiskEngine.Expired, hstart, hcfg, RiskEngine.Expired]

/-- Where the counter lets a message through, it is the same in both runs. -/
theorem Mirrors.counted_eq (hm : g.Mirrors h n) (hs : Screened m)
    (hreach : g.synced.ReachesRateCheck m.1) (hn : Metered.inWindowAfter ⟨g, n⟩ m < 2 ^ 32)
    (hunder : g.synced.counted m.2.risk ≤ g.risk.config.maxMsgsPerWindow) :
    h.risk.windowStartNs = g.risk.windowStartNs ∧
      h.synced.counted m.2.risk = g.synced.counted m.2.risk := by
  have hcounted := hm.counted hs hreach hn
  rw [inWindowAfter_reached hs hreach] at hcounted
  have hle := UInt32.le_iff_toNat_le.mp hunder
  have hsome : g.risk.config.maxMsgsPerWindow ≠ 0 := by
    intro hzero
    rw [hzero, hcounted] at hle
    split_ifs at hle
    · exact absurd hle (by decide)
    · exact absurd hle (Nat.not_succ_le_zero n)
  obtain ⟨hstart, hcount⟩ := hm.window.resolve_left hsome
  refine ⟨hstart, ?_⟩
  have hiff := hm.expired_iff hstart m.2.risk
  unfold RiskEngine.counted
  by_cases hx : g.synced.Expired m.2.risk
  · rw [if_pos hx, if_pos (hiff.mpr hx)]
  · rw [if_neg hx] at hcounted
    rw [if_neg hx, if_neg fun h => hx (hiff.mp h)]
    -- past its limit the window of the first run lets nothing through
    have hsame : h.risk.windowMsgCount = g.risk.windowMsgCount := by
      refine hcount.resolve_right fun hover => ?_
      have hover := UInt32.lt_iff_toNat_lt.mp hover
      have hcounter := hm.counter
      omega
    exact congrArg (· + 1) hsame

/-- A message that the one run does not reject the other does not reject either, and both
have counted it. -/
theorem Mirrors.admitted (hm : g.Mirrors h n) (hn : Metered.inWindowAfter ⟨g, n⟩ m < 2 ^ 32)
    (hr : ¬ g.Rejects m) :
    ¬ h.Rejects m ∧ ∀ e,
      Mirrors ⟨e, g.riskAfter m⟩ ⟨e, h.riskAfter m⟩ (Metered.inWindowAfter ⟨g, n⟩ m) := by
  by_cases hs : Screened m
  · have hafter : g.riskAfter m = (g.synced.checkOrder m.1 m.2.risk).2 := if_pos hs
    have hafter' : h.riskAfter m = (h.synced.checkOrder m.1 m.2.risk).2 := if_pos hs
    have hcfg : (g.riskAfter m).config = g.risk.config := by
      rw [hafter]
      exact g.synced.checkOrder_config m.1 m.2.risk
    have hcfg' : (h.riskAfter m).config = g.risk.config := by
      rw [hafter', ← hm.config]
      exact h.synced.checkOrder_config m.1 m.2.risk
    have hreach := reaches_of_not_rejects hr hs
    have hreach' : h.synced.ReachesRateCheck m.1 := hm.sameTerms.reaches_iff.mpr hreach
    obtain ⟨hverdict, hstart, hcount⟩ := RiskEngine.checkOrder_reached hreach m.2.risk
    obtain ⟨hverdict', hstart', hcount'⟩ := RiskEngine.checkOrder_reached hreach' m.2.risk
    rw [← hafter] at hstart hcount
    rw [← hafter'] at hstart' hcount'
    have hunder := hverdict.mp (by
      by_contra hv
      exact hr ⟨hs, hv⟩)
    obtain ⟨hsame, heq⟩ := hm.counted_eq hs hreach hn hunder
    have hsame' : h.synced.windowStartNs = g.synced.windowStartNs := hsame
    have hmax : h.synced.config = g.synced.config := hm.config
    refine ⟨fun hr' => hr'.2 (hverdict'.mpr ?_), fun e => ⟨rfl, hcfg'.trans hcfg.symm, ?_, ?_⟩⟩
    · rw [heq, hmax]
      exact hunder
    · rw [hcount]
      exact hm.counted hs hreach hn
    · refine Or.inr ⟨?_, Or.inl ?_⟩
      · rw [hstart, hstart', hsame', if_congr (hm.expired_iff hsame m.2.risk) rfl rfl]
      · rw [hcount, hcount', heq]
  · have hafter : g.riskAfter m = g.risk := if_neg hs
    have hafter' : h.riskAfter m = h.risk := if_neg hs
    have hsame : Metered.inWindowAfter ⟨g, n⟩ m = n := if_neg fun h => hs h.1
    rw [hafter, hafter', hsame]
    exact ⟨fun hr' => hs hr'.1, fun _ => ⟨rfl, hm.config, hm.counter, hm.window⟩⟩

theorem decision_eq (hr : ¬ g.Rejects m) (hr' : ¬ h.Rejects m) : h.decision m = g.decision m := by
  unfold decision
  by_cases hs : Screened m
  · have hv : g.verdict m.1 m.2 = .none := by
      by_contra hv
      exact hr ⟨hs, hv⟩
    have hv' : h.verdict m.1 m.2 = .none := by
      by_contra hv
      exact hr' ⟨hs, hv⟩
    rw [if_pos hs, if_pos hs, hv, hv']
  · rw [if_neg hs, if_neg hs]

theorem rejects_iff_decision :
    g.Rejects m ↔ g.decision m ≠ none ∧ g.decision m ≠ some .none := by
  unfold Rejects decision
  by_cases hs : Screened m <;> simp [hs]

def passes (d : (FixMessage × Clock) × Option RiskRejectReason) : Bool :=
  d.2 = none || d.2 = some .none

theorem passes_iff : passes (m, g.decision m) = true ↔ ¬ g.Rejects m := by
  rw [rejects_iff_decision]
  unfold passes
  grind

theorem Mirrors.run (hm : g.Mirrors h n) {msgs : List (FixMessage × Clock)}
    (hok : Along Metered.step Metered.Countable ⟨g, n⟩ msgs) :
    (Library.run step h (g.kept msgs)).map OrderEntryGateway.engine =
        (Library.run step g msgs).map OrderEntryGateway.engine ∧
      h.decisions (g.kept msgs) = (g.decisions msgs).filter passes := by
  induction msgs generalizing g h n with
  | nil => exact ⟨congrArg some hm.engine, rfl⟩
  | cons m msgs ih =>
    obtain ⟨hn, hrest⟩ := hok
    have hpasses := passes_iff (g := g) (m := m)
    by_cases hr : g.Rejects m
    · have hstep := step_rejected hr
      have hkept := ih (hm.rejected hn hr) (hrest _ (by rw [Metered.step, hstep]; rfl))
      simp only [kept, if_pos hr, hstep, Library.run, Option.bind_some, decisions,
        List.filter_cons, if_neg fun hp => hpasses.mp hp hr]
      exact hkept
    · have hstep := step_admitted hr
      obtain ⟨hr', hafter⟩ := hm.admitted hn hr
      have hstep' := step_admitted hr'
      rw [hm.engine] at hstep'
      simp only [kept, if_neg hr, Library.run, decisions, List.filter_cons, if_pos (hpasses.mpr hr),
        decision_eq hr hr', hstep']
      cases he : OrderEntryGateway.admitted g.engine m with
      | none =>
        rw [he] at hstep
        simp only [hstep]
        exact ⟨rfl, rfl⟩
      | some e =>
        rw [he] at hstep
        have hkept := ih (hafter e) (hrest _ (by rw [Metered.step, hstep]; rfl))
        simp only [hstep]
        exact ⟨hkept.1, congrArg _ hkept.2⟩

/-- From a fresh risk engine, whatever the gateway holds: the messages that a run rejects,
with their clock readings, change neither the decisions on the others nor the book, the
log and the pool it ends with. -/
theorem run_kept_eq (e : Engine) (cfg : RiskConfig) {msgs : List (FixMessage × Clock)}
    (hok : Along Metered.step Metered.Countable ⟨⟨e, { config := cfg }⟩, 0⟩ msgs) :
    let g : OrderEntryGateway := ⟨e, { config := cfg }⟩
    (Library.run step g (g.kept msgs)).map OrderEntryGateway.engine =
        (Library.run step g msgs).map OrderEntryGateway.engine ∧
      g.decisions (g.kept msgs) = (g.decisions msgs).filter passes ∧
      (g.Sound → Library.run step g msgs ≠ none) := by
  intro g
  have hstart : g.Mirrors g 0 := ⟨rfl, rfl, rfl, Or.inr ⟨rfl, Or.inl rfl⟩⟩
  refine ⟨(hstart.run hok).1, (hstart.run hok).2, fun hsound => ?_⟩
  have hall : Along step (fun _ _ => True) g msgs := along_of_forall fun _ _ => trivial
  have hstep : ∀ (g : OrderEntryGateway) (m : FixMessage × Clock), g.Sound → True →
      ∃ g', g.step m = some g' ∧ g'.Sound := fun g m hs _ => by
    obtain ⟨g', hg, hs', -⟩ := hs.onParsedMessage m.1 m.2
    exact ⟨g', hg, hs'⟩
  obtain ⟨g', hg, -⟩ := run_invariant hstep hsound hall
  rw [hg]
  exact Option.some_ne_none g'

def hastyMsgs : List (FixMessage × Clock) :=
  [byte '1', byte '2', byte '3'].map fun id =>
    ({ msgType := byte 'D', side := byte '1', ordType := byte '2', qty := 10, price := 100,
       clOrdID := [id], origClOrdID := [] }, ⟨5, 6, 7⟩)

theorem run_kept_eq_hasty :
    let g : OrderEntryGateway := .new 4 false { maxMsgsPerWindow := 1 }
    g.kept hastyMsgs = hastyMsgs.take 1 ∧
      (Library.run step g (g.kept hastyMsgs)).map OrderEntryGateway.engine =
        (Library.run step g hastyMsgs).map OrderEntryGateway.engine :=
  ⟨by decide +kernel, (run_kept_eq (Engine.new 4 false) { maxMsgsPerWindow := 1 }
    (by decide +kernel)).1⟩

end OrderEntryGateway
end LobCity
