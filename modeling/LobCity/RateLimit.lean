import LobCity.Screening
import LobCity.Library.Windows

/-! The rate limiter against windows that start anywhere. It counts the messages that reach
it from the opening of its own window; an observer keeps what was asked and answered. -/
namespace LobCity
open Library

namespace RiskEngine
variable {r r' : RiskEngine} {msg : FixMessage} {nowNs : UInt64}

theorem checks_ne_rateLimit (r : RiskEngine) (msg : FixMessage) :
    checkValidity msg ≠ .rateLimit ∧ r.checkFatFingerSize msg ≠ .rateLimit ∧
      r.checkNotional msg ≠ .rateLimit ∧ r.checkPriceCollar msg ≠ .rateLimit := by
  refine ⟨?_, ?_, ?_, ?_⟩
  · unfold checkValidity
    split_ifs <;> decide
  · unfold checkFatFingerSize
    split_ifs <;> decide
  · unfold checkNotional
    split_ifs <;> decide
  · unfold checkPriceCollar
    cases r.refPrice <;> dsimp only <;> split_ifs <;> decide

theorem checkOrder_rateLimit_iff : (r.checkOrder msg nowNs).1 = .rateLimit ↔
    r.ReachesRateCheck msg ∧ r.config.maxMsgsPerWindow < r.counted nowNs := by
  by_cases hreach : r.ReachesRateCheck msg
  · have hpass := (checkOrder_reached hreach nowNs).1
    rw [and_iff_right hreach, ← UInt32.not_le, ← hpass]
    obtain ⟨hv, hs, hn, hc⟩ := hreach
    unfold checkOrder checkRateLimit
    simp only [checks_withStats, reject, hv, hs, hn, hc, ne_eq, not_true_eq_false, if_false]
    split_ifs <;> simp_all
  · refine iff_of_false (fun hlimit => ?_) fun h => hreach h.1
    obtain ⟨hv', hs', hn', hc'⟩ := r.checks_ne_rateLimit msg
    unfold checkOrder at hlimit
    simp only [checks_withStats, reject] at hlimit
    by_cases hv : checkValidity msg = .none
    · by_cases hs : r.checkFatFingerSize msg = .none
      · by_cases hn : r.checkNotional msg = .none
        · have hc : r.checkPriceCollar msg ≠ .none := fun hc => hreach ⟨hv, hs, hn, hc⟩
          simp [hv, hs, hn, hc, hc'] at hlimit
        · simp [hv, hs, hn, hn'] at hlimit
      · simp [hv, hs, hs'] at hlimit
    · simp [hv, hv'] at hlimit

end RiskEngine

/-- A call of `checkOrder`, with the best prices that the engine was last told. -/
structure CheckCall where
  bestBid : Price
  bestAsk : Price
  msg : FixMessage
  nowNs : UInt64
deriving DecidableEq, Repr

/-- Whether a call gets to the rate check does not depend on the calls before. -/
def CheckCall.Reaches (cfg : RiskConfig) (c : CheckCall) : Prop :=
  ({ config := cfg, bestBid := c.bestBid, bestAsk := c.bestAsk } : RiskEngine).ReachesRateCheck c.msg

instance (cfg : RiskConfig) : DecidablePred (CheckCall.Reaches cfg) := fun c =>
  inferInstanceAs (Decidable (RiskEngine.ReachesRateCheck _ c.msg))

/-- The calls that get to the rate check, in the windows of a limiter that counts them. -/
def CheckCall.arrivals (cfg : RiskConfig) (calls : List CheckCall) : List Arrival :=
  Library.arrivals cfg.windowDurationNs.toNat ⟨0, 0, 0⟩
    ((calls.filter (CheckCall.Reaches cfg)).map fun c => c.nowNs.toNat)

/-- What became of a call: whether it reached the rate check, and the verdict. -/
structure CheckEntry where
  nowNs : UInt64
  reached : Bool
  result : RiskRejectReason
deriving DecidableEq, Repr

def timesOf (picked : CheckEntry → Bool) (entries : List CheckEntry) : List Nat :=
  (entries.filter picked).map fun e => e.nowNs.toNat

def CheckEntry.passed (e : CheckEntry) : Bool := e.result = .none

structure CheckLog where
  engine : RiskEngine
  entries : List CheckEntry
deriving DecidableEq, Repr

namespace CheckLog

def new (cfg : RiskConfig) : CheckLog := ⟨{ config := cfg }, []⟩

def told (w : CheckLog) (c : CheckCall) : RiskEngine := w.engine.updateBBO c.bestBid c.bestAsk

def entry (w : CheckLog) (c : CheckCall) : CheckEntry :=
  ⟨c.nowNs, (w.told c).ReachesRateCheck c.msg, ((w.told c).checkOrder c.msg c.nowNs).1⟩

def step (w : CheckLog) (c : CheckCall) : Option CheckLog :=
  some ⟨((w.told c).checkOrder c.msg c.nowNs).2, w.entries ++ [w.entry c]⟩

def reachedAt (w : CheckLog) : List Nat := timesOf CheckEntry.reached w.entries

def passedAt (w : CheckLog) : List Nat := timesOf CheckEntry.passed w.entries

def Ordered (w : CheckLog) (c : CheckCall) : Prop := ∀ e ∈ w.entries, e.nowNs ≤ c.nowNs

/-- The start of the limiter's window when it counts a call. -/
def windowAt (w : CheckLog) (c : CheckCall) : UInt64 :=
  if w.engine.Expired c.nowNs then c.nowNs else w.engine.windowStartNs

def inWindow (start : UInt64) (times : List Nat) : Nat := times.countP fun u => start.toNat ≤ u

/-- The number of the call among those that reach the rate check in the limiter's window. -/
def numberOf (w : CheckLog) (c : CheckCall) : Nat :=
  inWindow (w.windowAt c) w.reachedAt + 1

def Throttled (w : CheckLog) : Prop :=
  Spaced w.engine.config.windowDurationNs.toNat w.engine.config.maxMsgsPerWindow.toNat w.passedAt

def latest (cfg : RiskConfig) (w : CheckLog) : Arrival :=
  w.reachedAt.foldl (Arrival.next cfg.windowDurationNs.toNat) ⟨0, 0, 0⟩

def arrivals (cfg : RiskConfig) (w : CheckLog) : List Arrival :=
  Library.arrivals cfg.windowDurationNs.toNat ⟨0, 0, 0⟩ w.reachedAt

/-- The limiter's window in terms of the entries: how many calls it counted, and how many of
them it let through. -/
structure Windowed (cfg : RiskConfig) (w : CheckLog) : Prop where
  config : w.engine.config = cfg
  current : (w.latest cfg).opened = w.engine.windowStartNs.toNat ∧
    (w.latest cfg).number = inWindow w.engine.windowStartNs w.reachedAt
  opened : ∀ a ∈ w.arrivals cfg, a.opened ≤ a.time ∧ a.time ∈ w.reachedAt
  passed : w.passedAt = ((w.arrivals cfg).filter fun a =>
    a.number % 2 ^ 32 ≤ cfg.maxMsgsPerWindow.toNat).map Arrival.time
  started : ∀ nowNs, (∀ e ∈ w.entries, e.nowNs ≤ nowNs) → w.engine.windowStartNs ≤ nowNs
  recent : ∀ u ∈ w.reachedAt, u < w.engine.windowStartNs.toNat + cfg.windowDurationNs.toNat
  reached : ∀ e ∈ w.entries, e.result = .none → e.reached = true
  counter : w.engine.windowMsgCount.toNat =
    inWindow w.engine.windowStartNs w.reachedAt % 2 ^ 32
  few : inWindow w.engine.windowStartNs w.reachedAt < 2 ^ 32 →
    inWindow w.engine.windowStartNs w.passedAt =
      min (inWindow w.engine.windowStartNs w.reachedAt) cfg.maxMsgsPerWindow.toNat
  many : 2 ^ 32 ≤ inWindow w.engine.windowStartNs w.reachedAt →
    cfg.maxMsgsPerWindow.toNat < inWindow w.engine.windowStartNs w.passedAt

section Entries
variable {w w' : CheckLog} {c : CheckCall} {cfg : RiskConfig}

theorem timesOf_concat (picked : CheckEntry → Bool) (entries : List CheckEntry) (e : CheckEntry) :
    timesOf picked (entries ++ [e]) =
      timesOf picked entries ++ if picked e then [e.nowNs.toNat] else [] := by
  cases h : picked e <;> simp [timesOf, h]

theorem mem_timesOf {picked : CheckEntry → Bool} {entries : List CheckEntry} {u : Nat} :
    u ∈ timesOf picked entries ↔ ∃ e ∈ entries, picked e = true ∧ e.nowNs.toNat = u := by
  simp [timesOf, and_assoc]

theorem inWindow_append (start : UInt64) (xs ys : List Nat) :
    inWindow start (xs ++ ys) = inWindow start xs + inWindow start ys := List.countP_append

theorem inWindow_self {start now : UInt64} (h : start ≤ now) : inWindow start [now.toNat] = 1 := by
  simpa [inWindow] using UInt64.le_iff_toNat_le.mp h

theorem Ordered.le_now (hc : w.Ordered c) {picked : CheckEntry → Bool} {u : Nat}
    (hu : u ∈ timesOf picked w.entries) : u ≤ c.nowNs.toNat := by
  obtain ⟨e, he, -, rfl⟩ := mem_timesOf.mp hu
  exact UInt64.le_iff_toNat_le.mp (hc e he)

theorem inWindow_zero {start : UInt64} {times : List Nat} (h : ∀ u ∈ times, u < start.toNat) :
    inWindow start times = 0 := by
  refine List.countP_eq_zero.mpr fun u hu => ?_
  have hlt := h u hu
  simpa using hlt

theorem new_windowed (cfg : RiskConfig) : (new cfg).Windowed cfg where
  config := rfl
  current := ⟨rfl, rfl⟩
  opened _ ha := absurd ha List.not_mem_nil
  passed := rfl
  started _ _ := UInt64.zero_le
  recent _ hu := absurd hu List.not_mem_nil
  reached _ he := absurd he List.not_mem_nil
  counter := rfl
  few _ := (Nat.zero_min _).symm
  many h := by
    have hzero : inWindow (new cfg).engine.windowStartNs (new cfg).reachedAt = 0 := rfl
    rw [hzero] at h
    exact absurd h (by decide)

namespace Windowed
variable (h : w.Windowed cfg) (hc : w.Ordered c)
include h

theorem passed_recent {u : Nat} (hu : u ∈ w.passedAt) : u ∈ w.reachedAt := by
  obtain ⟨e, he, hp, rfl⟩ := mem_timesOf.mp hu
  exact mem_timesOf.mpr ⟨e, he, h.reached e he (of_decide_eq_true hp), rfl⟩

include hc

theorem expired_iff : w.engine.Expired c.nowNs ↔
    w.engine.windowStartNs.toNat + cfg.windowDurationNs.toNat ≤ c.nowNs.toNat := by
  have hstart := h.started c.nowNs hc
  have hle := UInt64.le_iff_toNat_le.mp hstart
  unfold RiskEngine.Expired
  rw [ge_iff_le, UInt64.le_iff_toNat_le, UInt64.toNat_sub_of_le _ _ hstart, h.config]
  omega

theorem windowAt_le : w.windowAt c ≤ c.nowNs := by
  unfold windowAt
  split_ifs
  · exact UInt64.le_refl _
  · exact h.started c.nowNs hc

/-- The call is in the window that counts it, and so is every earlier call of that window. -/
theorem now_lt (hw : cfg.windowDurationNs ≠ 0) :
    c.nowNs.toNat < (w.windowAt c).toNat + cfg.windowDurationNs.toNat := by
  have hpos : 0 < cfg.windowDurationNs.toNat :=
    Nat.pos_of_ne_zero fun hzero => hw (UInt64.toNat_inj.mp hzero)
  unfold windowAt
  split_ifs with hx
  · omega
  · rw [h.expired_iff hc] at hx
    omega

/-- What a window holds when it is about to count a call. -/
theorem opened_window :
    (w.told c).counted c.nowNs = UInt32.ofNat (w.numberOf c) ∧
      (inWindow (w.windowAt c) w.reachedAt < 2 ^ 32 → inWindow (w.windowAt c) w.passedAt =
        min (inWindow (w.windowAt c) w.reachedAt) cfg.maxMsgsPerWindow.toNat) ∧
      (2 ^ 32 ≤ inWindow (w.windowAt c) w.reachedAt →
        cfg.maxMsgsPerWindow.toNat < inWindow (w.windowAt c) w.passedAt) := by
  have hcounted : (w.told c).counted c.nowNs =
      if w.engine.Expired c.nowNs then 1 else w.engine.windowMsgCount + 1 := rfl
  unfold numberOf
  rw [hcounted]
  by_cases hx : w.engine.Expired c.nowNs
  · have hold : ∀ u ∈ w.reachedAt, u < c.nowNs.toNat := by
      intro u hu
      have hu := h.recent u hu
      have hx := (h.expired_iff hc).mp hx
      omega
    have hstart : w.windowAt c = c.nowNs := if_pos hx
    rw [if_pos hx, hstart, inWindow_zero hold,
      inWindow_zero fun u hu => hold u (h.passed_recent hu)]
    exact ⟨rfl, fun _ => (Nat.zero_min _).symm, fun hle => absurd hle (by decide)⟩
  · have hstart : w.windowAt c = w.engine.windowStartNs := if_neg hx
    rw [if_neg hx, hstart]
    refine ⟨?_, h.few, h.many⟩
    apply UInt32.toNat_inj.mp
    rw [UInt32.toNat_add, h.counter, UInt32.toNat_ofNat']
    simp

/-- The limiter counts a call in the window that the call arrives in. -/
theorem next_latest : (w.latest cfg).next cfg.windowDurationNs.toNat c.nowNs.toNat =
    ⟨c.nowNs.toNat, (w.windowAt c).toNat, w.numberOf c⟩ := by
  obtain ⟨hopened, hnumber⟩ := h.current
  unfold Arrival.next
  rw [hopened, hnumber]
  by_cases hx : w.engine.Expired c.nowNs
  · have hstart : w.windowAt c = c.nowNs := if_pos hx
    have hold : ∀ u ∈ w.reachedAt, u < c.nowNs.toNat := by
      intro u hu
      have hu := h.recent u hu
      have hx := (h.expired_iff hc).mp hx
      omega
    have hover := (h.expired_iff hc).mp hx
    rw [if_neg (by omega), numberOf, hstart, inWindow_zero hold]
  · have hstart : w.windowAt c = w.engine.windowStartNs := if_neg hx
    have hover := mt (h.expired_iff hc).mpr hx
    rw [if_pos (by omega), numberOf, hstart]

/-- A call passes if its number does, as the counter has it. -/
theorem passed_iff (hreach : (w.told c).ReachesRateCheck c.msg) :
    (w.entry c).passed = true ↔ w.numberOf c % 2 ^ 32 ≤ cfg.maxMsgsPerWindow.toNat := by
  have hverdict := (RiskEngine.checkOrder_reached hreach c.nowNs).1
  rw [(h.opened_window hc).1, UInt32.le_iff_toNat_le, UInt32.toNat_ofNat'] at hverdict
  have hcfg : (w.told c).config = cfg := h.config
  rw [hcfg] at hverdict
  exact decide_eq_true_iff.trans hverdict

theorem limited_iff : (w.entry c).result = .rateLimit ↔
    (w.told c).ReachesRateCheck c.msg ∧ cfg.maxMsgsPerWindow.toNat < w.numberOf c % 2 ^ 32 := by
  have hcfg : (w.told c).config = cfg := h.config
  have hlimit := @RiskEngine.checkOrder_rateLimit_iff (w.told c) c.msg c.nowNs
  rw [(h.opened_window hc).1, UInt32.lt_iff_toNat_lt, UInt32.toNat_ofNat', hcfg] at hlimit
  exact hlimit

end Windowed

theorem reaches_iff (h : w.engine.config = cfg) :
    (w.told c).ReachesRateCheck c.msg ↔ c.Reaches cfg :=
  RiskEngine.SameTerms.reaches_iff ⟨h, rfl, rfl⟩

theorem reachedAt_step (hs : w.step c = some w') : w'.reachedAt =
    w.reachedAt ++ if (w.told c).ReachesRateCheck c.msg then [c.nowNs.toNat] else [] := by
  obtain rfl := Option.some.inj hs
  refine (timesOf_concat CheckEntry.reached w.entries (w.entry c)).trans ?_
  simp [reachedAt, entry]

theorem arrivals_step (cfg : RiskConfig) (hs : w.step c = some w') (hreach : (w.told c).ReachesRateCheck c.msg) :
    w'.latest cfg = (w.latest cfg).next cfg.windowDurationNs.toNat c.nowNs.toNat ∧
      w'.arrivals cfg = w.arrivals cfg ++ [w'.latest cfg] := by
  have hreachedAt := reachedAt_step hs
  rw [if_pos hreach] at hreachedAt
  have hlatest : w'.latest cfg =
      (w.latest cfg).next cfg.windowDurationNs.toNat c.nowNs.toNat := by
    rw [latest, hreachedAt, List.foldl_append]
    rfl
  rw [hlatest]
  refine ⟨rfl, ?_⟩
  rw [arrivals, hreachedAt]
  exact arrivals_concat ⟨0, 0, 0⟩ w.reachedAt c.nowNs.toNat

theorem passedAt_step (hs : w.step c = some w') :
    w'.passedAt = w.passedAt ++ if (w.entry c).passed then [c.nowNs.toNat] else [] := by
  obtain rfl := Option.some.inj hs
  exact timesOf_concat CheckEntry.passed w.entries (w.entry c)

/-- A call that does not get to the rate check did not pass. -/
theorem unreached_passed (hreach : ¬ (w.told c).ReachesRateCheck c.msg) :
    (w.entry c).passed = false :=
  decide_eq_false (RiskEngine.checkOrder_unreached hreach c.nowNs).1

theorem step_config (hs : w.step c = some w') (h : w.engine.config = cfg) :
    w'.engine.config = cfg := by
  obtain rfl := Option.some.inj hs
  exact ((w.told c).checkOrder_config c.msg c.nowNs).trans h

theorem entries_step (hs : w.step c = some w') : w'.entries = w.entries ++ [w.entry c] := by
  obtain rfl := Option.some.inj hs
  rfl

/-- Who has seen all calls by then has seen the latest one and the others. -/
theorem latest_step (hs : w.step c = some w') {nowNs : UInt64}
    (hall : ∀ e ∈ w'.entries, e.nowNs ≤ nowNs) :
    c.nowNs ≤ nowNs ∧ ∀ e ∈ w.entries, e.nowNs ≤ nowNs := by
  rw [entries_step hs] at hall
  exact ⟨hall (w.entry c) (by simp), fun e he => hall e (by simp [he])⟩

theorem Windowed.reached_step (h : w.Windowed cfg) (hs : w.step c = some w') :
    ∀ e ∈ w'.entries, e.result = .none → e.reached = true := by
  intro e he hp
  rw [entries_step hs] at he
  cases List.mem_append.mp he with
  | inl he =>
    exact h.reached e he hp
  | inr he =>
    obtain rfl := List.mem_singleton.mp he
    by_contra hno
    have hunreached : ¬ (w.told c).ReachesRateCheck c.msg := fun hreach => hno (decide_eq_true hreach)
    exact (RiskEngine.checkOrder_unreached hunreached c.nowNs).1 hp

/-- A call that gets to the rate check is counted in its window, an old one or a new one. -/
theorem Windowed.step_counted (h : w.Windowed cfg) (hc : w.Ordered c)
    (hw : cfg.windowDurationNs ≠ 0) (hs : w.step c = some w')
    (hreach : (w.told c).ReachesRateCheck c.msg) : w'.Windowed cfg := by
  obtain ⟨hcounted, hfew, hmany⟩ := h.opened_window hc
  obtain ⟨-, hstart, hcount⟩ := RiskEngine.checkOrder_reached hreach c.nowNs
  have hstart : w'.engine.windowStartNs = w.windowAt c := by
    obtain rfl := Option.some.inj hs
    exact hstart
  have hcount : w'.engine.windowMsgCount = UInt32.ofNat (w.numberOf c) := by
    obtain rfl := Option.some.inj hs
    exact hcount.trans hcounted
  have hreachedAt := reachedAt_step hs
  rw [if_pos hreach] at hreachedAt
  have hle := h.windowAt_le hc
  have hnumber : inWindow (w.windowAt c) w'.reachedAt = w.numberOf c := by
    rw [hreachedAt, inWindow_append, inWindow_self hle]
    rfl
  have hpassed : inWindow (w.windowAt c) w'.passedAt = inWindow (w.windowAt c) w.passedAt +
      if w.numberOf c % 2 ^ 32 ≤ cfg.maxMsgsPerWindow.toNat then 1 else 0 := by
    rw [passedAt_step hs, inWindow_append, if_congr (h.passed_iff hc hreach) rfl rfl]
    split_ifs
    · rw [inWindow_self hle]
    · rfl
  obtain ⟨hlatest, harrivals⟩ := arrivals_step cfg hs hreach
  rw [h.next_latest hc] at hlatest
  rw [hlatest] at harrivals
  have hmax := cfg.maxMsgsPerWindow.toNat_lt
  have hj : w.numberOf c = inWindow (w.windowAt c) w.reachedAt + 1 := rfl
  refine ⟨step_config hs h.config, ?_, fun a ha => ?_, ?_, fun nowNs hall => ?_, fun u hu => ?_,
    h.reached_step hs, ?_, fun hlt => ?_, fun hge => ?_⟩
  · rw [hlatest, hstart, hnumber]
    exact ⟨rfl, rfl⟩
  · rw [hreachedAt]
    rw [harrivals] at ha
    cases List.mem_append.mp ha with
    | inl ha =>
      obtain ⟨hopened, htime⟩ := h.opened a ha
      exact ⟨hopened, List.mem_append_left _ htime⟩
    | inr ha =>
      obtain rfl := List.mem_singleton.mp ha
      exact ⟨UInt64.le_iff_toNat_le.mp hle, by simp⟩
  · rw [passedAt_step hs, h.passed, harrivals, List.filter_append, List.map_append,
      if_congr (h.passed_iff hc hreach) rfl rfl]
    simp only [List.filter_cons, List.filter_nil, decide_eq_true_eq]
    split_ifs <;> rfl
  · rw [hstart]
    exact UInt64.le_trans hle (latest_step hs hall).1
  · rw [hstart]
    have hnow := h.now_lt hc hw
    rw [hreachedAt] at hu
    have hu := List.forall_mem_append.mpr ⟨fun v hv => hc.le_now hv, by simp⟩ u hu
    omega
  · rw [hcount, hstart, hnumber, UInt32.toNat_ofNat']
  · rw [hstart] at hlt ⊢
    rw [hnumber] at hlt ⊢
    rw [hpassed]
    have hold := hfew (by omega)
    split_ifs <;> omega
  · rw [hstart] at hge ⊢
    rw [hnumber] at hge
    rw [hpassed]
    by_cases hwrap : w.numberOf c = 2 ^ 32
    · have hold := hfew (by omega)
      rw [if_pos (by rw [hwrap]; omega)]
      omega
    · have hold := hmany (by omega)
      omega

/-- Any other call leaves the window and its counter as they are. -/
theorem Windowed.step_uncounted (h : w.Windowed cfg) (hs : w.step c = some w')
    (hreach : ¬ (w.told c).ReachesRateCheck c.msg) : w'.Windowed cfg := by
  obtain ⟨-, hstart, hcount⟩ := RiskEngine.checkOrder_unreached hreach c.nowNs
  have hstart : w'.engine.windowStartNs = w.engine.windowStartNs := by
    obtain rfl := Option.some.inj hs
    exact hstart
  have hcount : w'.engine.windowMsgCount = w.engine.windowMsgCount := by
    obtain rfl := Option.some.inj hs
    exact hcount
  have hreachedAt := reachedAt_step hs
  rw [if_neg hreach, List.append_nil] at hreachedAt
  have hpassedAt := passedAt_step hs
  rw [unreached_passed hreach, if_neg (by decide), List.append_nil] at hpassedAt
  have hlatest : w'.latest cfg = w.latest cfg := by rw [latest, hreachedAt, latest]
  have harrivals : w'.arrivals cfg = w.arrivals cfg := by rw [arrivals, hreachedAt, arrivals]
  refine ⟨step_config hs h.config, ?_, ?_, ?_, fun nowNs hall => ?_, ?_, h.reached_step hs, ?_, ?_,
    ?_⟩
  · rw [hlatest, hstart, hreachedAt]
    exact h.current
  · rw [harrivals, hreachedAt]
    exact h.opened
  · rw [harrivals, hpassedAt]
    exact h.passed
  · rw [hstart]
    exact h.started nowNs (latest_step hs hall).2
  · rw [hreachedAt, hstart]
    exact h.recent
  · rw [hcount, hreachedAt, hstart]
    exact h.counter
  · rw [hreachedAt, hpassedAt, hstart]
    exact h.few
  · rw [hreachedAt, hpassedAt, hstart]
    exact h.many

theorem Windowed.step (h : w.Windowed cfg) (hc : w.Ordered c) (hw : cfg.windowDurationNs ≠ 0)
    (hs : w.step c = some w') : w'.Windowed cfg := by
  by_cases hreach : (w.told c).ReachesRateCheck c.msg
  · exact h.step_counted hc hw hs hreach
  · exact h.step_uncounted hs hreach

/-- Under the limit everywhere the counter has not wrapped. -/
theorem Windowed.few_of_throttled (h : w.Windowed cfg) (hc : w.Ordered c)
    (hw : cfg.windowDurationNs ≠ 0) (ht : w.Throttled) :
    inWindow (w.windowAt c) w.reachedAt < 2 ^ 32 := by
  by_contra hge
  have hmany := (h.opened_window hc).2.2 (Nat.not_lt.mp hge)
  have hall : inWindow (w.windowAt c) w.passedAt ≤
      countIn cfg.windowDurationNs.toNat (w.windowAt c).toNat w.passedAt := by
    refine List.countP_mono_left fun u hu hin => ?_
    have hle := hc.le_now hu
    have hnow := h.now_lt hc hw
    simp only [decide_eq_true_eq] at hin ⊢
    omega
  have hmax := ht (w.windowAt c).toNat
  rw [h.config] at hmax
  omega

/-- The calls that passed before the limiter's window, if no counter has wrapped. -/
theorem Windowed.carried_eq (h : w.Windowed cfg) (hc : w.Ordered c)
    (hsmall : ∀ a ∈ w.arrivals cfg, a.number < 2 ^ 32) :
    carried cfg.windowDurationNs.toNat cfg.maxMsgsPerWindow.toNat (w.arrivals cfg)
      ((w.latest cfg).next cfg.windowDurationNs.toNat c.nowNs.toNat) =
    w.passedAt.countP fun u => u < (w.windowAt c).toNat ∧
      c.nowNs.toNat < u + cfg.windowDurationNs.toNat := by
  rw [h.next_latest hc, h.passed, List.countP_map, List.countP_filter, carried]
  refine List.countP_congr fun a ha => ?_
  rw [Nat.mod_eq_of_lt (hsmall a ha)]
  simp [and_comm]

/-- The step lemma: a call that is within the limit with those carried over, and no other,
keeps every window under the limit. -/
theorem Windowed.throttled_iff (h : w.Windowed cfg) (hc : w.Ordered c)
    (hw : cfg.windowDurationNs ≠ 0) (ht : w.Throttled)
    (hsmall : ∀ a ∈ w.arrivals cfg, a.number < 2 ^ 32) (hs : w.step c = some w')
    (hreach : (w.told c).ReachesRateCheck c.msg) :
    w'.Throttled ↔ (w'.latest cfg).number < 2 ^ 32 ∧
      ((w'.latest cfg).number ≤ cfg.maxMsgsPerWindow.toNat →
        carried cfg.windowDurationNs.toNat cfg.maxMsgsPerWindow.toNat (w.arrivals cfg)
          (w'.latest cfg) + (w'.latest cfg).number ≤ cfg.maxMsgsPerWindow.toNat) := by
  rw [(arrivals_step cfg hs hreach).1, h.carried_eq hc hsmall, h.next_latest hc]
  dsimp only
  rw [Throttled, step_config hs h.config, passedAt_step hs]
  have hlt := h.few_of_throttled hc hw ht
  have hfew := (h.opened_window hc).2.1 hlt
  rw [Throttled, h.config] at ht
  have hpos : 0 < cfg.windowDurationNs.toNat :=
    Nat.pos_of_ne_zero fun hzero => hw (UInt64.toNat_inj.mp hzero)
  have hlast : ∀ u ∈ w.passedAt, u ≤ c.nowNs.toNat := fun u hu => hc.le_now hu
  have hsplit := countTo_split (h.now_lt hc hw) hlast
  have hfold : (w.passedAt.countP fun u => (w.windowAt c).toNat ≤ u) =
    inWindow (w.windowAt c) w.passedAt := rfl
  have hmax := cfg.maxMsgsPerWindow.toNat_lt
  have hj : w.numberOf c = inWindow (w.windowAt c) w.reachedAt + 1 := rfl
  rw [hfold, hfew] at hsplit
  by_cases hp : (w.entry c).passed = true
  · rw [if_pos hp, spaced_concat hpos hlast, and_iff_right ht, hsplit]
    have hnumber := (h.passed_iff hc hreach).mp hp
    constructor
    · intro hroom
      have hwrap : w.numberOf c ≠ 2 ^ 32 := by
        intro heq
        omega
      exact ⟨by omega, fun hle => by omega⟩
    · rintro ⟨hbelow, hroom⟩
      rw [Nat.mod_eq_of_lt hbelow] at hnumber
      have hroom := hroom hnumber
      omega
  · rw [if_neg hp, List.append_nil]
    have hnumber : ¬ w.numberOf c % 2 ^ 32 ≤ cfg.maxMsgsPerWindow.toNat :=
      fun hle => hp ((h.passed_iff hc hreach).mpr hle)
    have hwrap : w.numberOf c ≠ 2 ^ 32 := by
      intro heq
      rw [heq] at hnumber
      exact hnumber (Nat.zero_le _)
    have hbelow : w.numberOf c < 2 ^ 32 := by omega
    rw [Nat.mod_eq_of_lt hbelow] at hnumber
    exact iff_of_true ht ⟨hbelow, fun hle => absurd hle hnumber⟩

theorem throttled_of_step (hs : w.step c = some w') (ht : w'.Throttled) : w.Throttled := by
  unfold Throttled at ht ⊢
  rw [step_config hs rfl, passedAt_step hs] at ht
  exact ht.of_append

def Eased (cfg : RiskConfig) (w : CheckLog) : Prop :=
  (∀ a ∈ w.arrivals cfg, a.number < 2 ^ 32) ∧
    Smooth cfg.windowDurationNs.toNat cfg.maxMsgsPerWindow.toNat (w.arrivals cfg)

theorem Windowed.eased_step (h : w.Windowed cfg) (hc : w.Ordered c)
    (hw : cfg.windowDurationNs ≠ 0) (ht : w.Throttled ↔ w.Eased cfg) (hs : w.step c = some w') :
    w'.Throttled ↔ w'.Eased cfg := by
  by_cases hreach : (w.told c).ReachesRateCheck c.msg
  · obtain ⟨hlatest, harrivals⟩ := arrivals_step cfg hs hreach
    have htime : (w'.latest cfg).time = c.nowNs.toNat := by rw [hlatest, time_next]
    have hopened : (w'.latest cfg).opened ≤ (w'.latest cfg).time := by
      rw [hlatest, h.next_latest hc]
      exact UInt64.le_iff_toNat_le.mp (h.windowAt_le hc)
    have hold : ∀ a ∈ w.arrivals cfg, a.opened ≤ (w'.latest cfg).time := by
      intro a ha
      obtain ⟨hle, hmem⟩ := h.opened a ha
      rw [htime]
      exact hle.trans (hc.le_now hmem)
    have hsplit : w'.Eased cfg ↔ w.Eased cfg ∧ (w'.latest cfg).number < 2 ^ 32 ∧
        ((w'.latest cfg).number ≤ cfg.maxMsgsPerWindow.toNat →
          carried cfg.windowDurationNs.toNat cfg.maxMsgsPerWindow.toNat (w.arrivals cfg)
            (w'.latest cfg) + (w'.latest cfg).number ≤ cfg.maxMsgsPerWindow.toNat) := by
      rw [Eased, harrivals, smooth_concat hold hopened, List.forall_mem_append,
        List.forall_mem_singleton, and_and_and_comm]
      rfl
    rw [hsplit, ← ht]
    constructor
    · intro ht'
      have ht0 := throttled_of_step hs ht'
      exact ⟨ht0, (h.throttled_iff hc hw ht0 (ht.mp ht0).1 hs hreach).mp ht'⟩
    · rintro ⟨ht0, hgood⟩
      exact (h.throttled_iff hc hw ht0 (ht.mp ht0).1 hs hreach).mpr hgood
  · have hreachedAt := reachedAt_step hs
    rw [if_neg hreach, List.append_nil] at hreachedAt
    have hpassedAt := passedAt_step hs
    rw [unreached_passed hreach, if_neg (by decide), List.append_nil] at hpassedAt
    unfold Eased arrivals Throttled at ht ⊢
    rw [hpassedAt, hreachedAt, step_config hs rfl]
    exact ht

end Entries

section Runs
variable {cfg : RiskConfig} {calls : List CheckCall}

theorem along_ordered {w : CheckLog} (hsorted : calls.Pairwise fun c c' => c.nowNs ≤ c'.nowNs)
    (hfirst : ∀ c ∈ calls, w.Ordered c) : Along step Ordered w calls := by
  induction calls generalizing w with
  | nil => trivial
  | cons c calls ih =>
    obtain ⟨hc, hrest⟩ := List.pairwise_cons.mp hsorted
    refine ⟨hfirst c (by simp), fun w' hs => ih hrest fun c' hc' e he => ?_⟩
    obtain rfl := Option.some.inj hs
    cases List.mem_append.mp he with
    | inl he =>
      exact hfirst c' (by simp [hc']) e he
    | inr he =>
      obtain rfl := List.mem_singleton.mp he
      exact hc c' hc'

theorem run_reachedAt {w w' : CheckLog} (hcfg : w.engine.config = cfg)
    (hrun : run step w calls = some w') : w'.reachedAt =
    w.reachedAt ++ (calls.filter (CheckCall.Reaches cfg)).map fun c => c.nowNs.toNat := by
  induction calls generalizing w with
  | nil =>
    obtain rfl := Option.some.inj hrun
    exact (List.append_nil _).symm
  | cons c calls ih =>
    obtain ⟨w1, hs, hrest⟩ := Option.bind_eq_some_iff.mp hrun
    rw [ih (step_config hs hcfg) hrest, reachedAt_step hs, List.append_assoc,
      if_congr (reaches_iff hcfg) rfl rfl, List.filter_cons]
    simp only [decide_eq_true_eq]
    split_ifs <;> rfl

/-- From a fresh engine, with a clock that does not go back: no window of the configured
length has more passed calls than allowed, after any of the calls, exactly when each arrival
at the rate check that is within the limit of its window is within the limit also together
with those carried over, and none has a number that the counter does not hold. -/
theorem run_throttled_iff (hsorted : calls.Pairwise fun c c' => c.nowNs ≤ c'.nowNs) :
    (∀ n w, run step (new cfg) (calls.take n) = some w → w.Throttled) ↔
      cfg.windowDurationNs = 0 ∨
        (∀ a ∈ CheckCall.arrivals cfg calls, a.number < 2 ^ 32) ∧
          Smooth cfg.windowDurationNs.toNat cfg.maxMsgsPerWindow.toNat
            (CheckCall.arrivals cfg calls) := by
  have hcfg : ∀ (w : CheckLog) (c : CheckCall) (w' : CheckLog), w.engine.config = cfg →
      w.step c = some w' → w'.engine.config = cfg := fun w c w' h hs => step_config hs h
  by_cases hw : cfg.windowDurationNs = 0
  · refine iff_of_true (fun n w hrun => ?_) (Or.inl hw)
    have hend : w.engine.config = cfg := run_kept hcfg rfl hrun
    unfold Throttled
    rw [hend, hw]
    exact spaced_zero
  · have hstep : ∀ (w : CheckLog) (c : CheckCall),
        w.Windowed cfg ∧ (w.Throttled ↔ w.Eased cfg) → w.Ordered c →
        ∃ w', w.step c = some w' ∧ w'.Windowed cfg ∧ (w'.Throttled ↔ w'.Eased cfg) :=
      fun w c h hc => ⟨_, rfl, h.1.step hc hw rfl, h.1.eased_step hc hw h.2 rfl⟩
    have hnew : (new cfg).Throttled ↔ (new cfg).Eased cfg := by
      refine iff_of_true spaced_nil ⟨fun a ha => absurd ha List.not_mem_nil, ?_⟩
      exact fun a ha => absurd ha List.not_mem_nil
    obtain ⟨w, hrun, -, hend⟩ := run_invariant hstep ⟨new_windowed cfg, hnew⟩
      (along_ordered hsorted fun _ _ _ he => absurd he List.not_mem_nil)
    have hreachedAt := run_reachedAt rfl hrun
    rw [or_iff_right hw]
    have heased : w.Eased cfg ↔ (∀ a ∈ CheckCall.arrivals cfg calls, a.number < 2 ^ 32) ∧
        Smooth cfg.windowDurationNs.toNat cfg.maxMsgsPerWindow.toNat
          (CheckCall.arrivals cfg calls) := by
      rw [Eased, arrivals, hreachedAt]
      rfl
    rw [← heased, ← hend]
    constructor
    · intro h
      exact h calls.length w (by rwa [List.take_length])
    · intro ht n u hu
      rw [← List.take_append_drop n calls, run_append, hu, Option.bind_some] at hrun
      have hkept : ∀ (u : CheckLog) (c : CheckCall) (u' : CheckLog), ¬ u.Throttled →
          u.step c = some u' → ¬ u'.Throttled := fun u c u' h hs ht => h (throttled_of_step hs ht)
      by_contra hnot
      exact run_kept hkept hnot hrun ht

def quickMsg : FixMessage :=
  { msgType := byte 'D', side := byte '1', ordType := byte '2', qty := 10, price := 100,
    clOrdID := [byte '1'], origClOrdID := [] }

def callsAt (times : List UInt64) : List CheckCall := times.map fun nowNs => ⟨0, 0, quickMsg, nowNs⟩

theorem run_throttled_iff_slow :
    let cfg : RiskConfig := { maxMsgsPerWindow := 2, windowDurationNs := 10 }
    let calls := callsAt [1000, 1010, 1020]
    Smooth 10 2 (CheckCall.arrivals cfg calls) ∧
      ∀ n w, run step (new cfg) (calls.take n) = some w → w.Throttled := by
  intro cfg calls
  have harrivals : CheckCall.arrivals cfg calls =
      [⟨1000, 1000, 1⟩, ⟨1010, 1010, 1⟩, ⟨1020, 1020, 1⟩] := by decide +kernel
  have hsmooth : Smooth 10 2 (CheckCall.arrivals cfg calls) := by
    rw [harrivals]
    decide
  refine ⟨hsmooth, (run_throttled_iff (by decide)).mpr (Or.inr ⟨?_, hsmooth⟩)⟩
  rw [harrivals]
  decide

/-- Two calls in each of two windows, the second of which opens at 1010. -/
theorem callsAt_burst :
    let cfg : RiskConfig := { maxMsgsPerWindow := 2, windowDurationNs := 10 }
    let calls := callsAt [1000, 1009, 1010, 1011]
    (calls.Pairwise fun c c' => c.nowNs ≤ c'.nowNs) ∧ ∃ w, run step (new cfg) calls = some w ∧
      w.passedAt = [1000, 1009, 1010, 1011] ∧ countIn 10 1009 w.passedAt = 3 ∧ ¬ w.Throttled := by
  intro cfg calls
  refine ⟨by decide, _, rfl, by decide +kernel, by decide +kernel, fun h => ?_⟩
  exact absurd (h 1009) (by decide +kernel)

end Runs

/-- A call that is turned away for its rate comes after more than the allowed number of
calls, itself included, that got to the rate check within a window's length. -/
def Justified (w : CheckLog) (c : CheckCall) : Prop :=
  (w.entry c).result = .rateLimit → w.engine.config.maxMsgsPerWindow.toNat <
    countTo w.engine.config.windowDurationNs.toNat c.nowNs.toNat
      (timesOf CheckEntry.reached (w.entries ++ [w.entry c]))

section Limited
variable {w w' : CheckLog} {c : CheckCall} {cfg : RiskConfig} {calls : List CheckCall}

theorem Windowed.justified (h : w.Windowed cfg) (hc : w.Ordered c) (hw : cfg.windowDurationNs ≠ 0) :
    w.Justified c := by
  intro hlimit
  obtain ⟨hreach, hover⟩ := (h.limited_iff hc).mp hlimit
  have hreachedAt := reachedAt_step (w := w) (c := c) rfl
  rw [if_pos hreach] at hreachedAt
  have hall : timesOf CheckEntry.reached (w.entries ++ [w.entry c]) =
      w.reachedAt ++ [c.nowNs.toNat] := hreachedAt
  have hnow := h.now_lt hc hw
  have hnumber : inWindow (w.windowAt c) (w.reachedAt ++ [c.nowNs.toNat]) = w.numberOf c := by
    rw [inWindow_append, inWindow_self (h.windowAt_le hc)]
    rfl
  have hle : inWindow (w.windowAt c) (w.reachedAt ++ [c.nowNs.toNat]) ≤
      countTo cfg.windowDurationNs.toNat c.nowNs.toNat (w.reachedAt ++ [c.nowNs.toNat]) := by
    refine List.countP_mono_left fun u hu hin => ?_
    have hlast := List.forall_mem_append.mpr ⟨fun v hv => hc.le_now hv, by simp⟩ u hu
    simp only [decide_eq_true_eq] at hin ⊢
    omega
  have hmod := Nat.mod_le (w.numberOf c) (2 ^ 32)
  rw [h.config, hall]
  omega

structure SameWindow (w w' : CheckLog) : Prop where
  config : w'.engine.config = w.engine.config
  start : w'.engine.windowStartNs = w.engine.windowStartNs
  count : w'.engine.windowMsgCount = w.engine.windowMsgCount

theorem SameWindow.told (h : w.SameWindow w') (c : CheckCall) :
    (w.told c).SameTerms (w'.told c) := ⟨h.config, rfl, rfl⟩

theorem entry_eq (hreach : (w.told c).ReachesRateCheck c.msg) :
    w.entry c = ⟨c.nowNs, true,
      if (w.told c).counted c.nowNs ≤ w.engine.config.maxMsgsPerWindow then .none else .rateLimit⟩ := by
  have hpass := (RiskEngine.checkOrder_reached hreach c.nowNs).1
  have hlimit := @RiskEngine.checkOrder_rateLimit_iff (w.told c) c.msg c.nowNs
  have hcfg : (w.told c).config = w.engine.config := rfl
  rw [hcfg] at hpass hlimit
  unfold entry
  rw [decide_eq_true hreach]
  split_ifs with hle
  · rw [hpass.mpr hle]
  · rw [hlimit.mpr ⟨hreach, UInt32.not_le.mp hle⟩]

/-- A call that gets to the rate check, put to two engines with the same window. -/
theorem SameWindow.step (h : w.SameWindow w') (hreach : (w.told c).ReachesRateCheck c.msg)
    {u u' : CheckLog} (hs : w.step c = some u) (hs' : w'.step c = some u') :
    w'.entry c = w.entry c ∧ u.SameWindow u' := by
  have hreach' := (h.told c).reaches_iff.mpr hreach
  have hcounted : (w'.told c).counted c.nowNs = (w.told c).counted c.nowNs := by
    show (if _ - w'.engine.windowStartNs ≥ w'.engine.config.windowDurationNs then (1 : UInt32) else
      w'.engine.windowMsgCount + 1) = _
    rw [h.start, h.config, h.count]
    rfl
  have hexpired : w'.engine.Expired c.nowNs ↔ w.engine.Expired c.nowNs := by
    unfold RiskEngine.Expired
    rw [h.start, h.config]
  refine ⟨?_, (step_config hs' h.config).trans (step_config hs rfl).symm, ?_, ?_⟩
  · rw [entry_eq hreach, entry_eq hreach', hcounted, h.config]
  · obtain ⟨-, hstart, -⟩ := RiskEngine.checkOrder_reached hreach c.nowNs
    obtain ⟨-, hstart', -⟩ := RiskEngine.checkOrder_reached hreach' c.nowNs
    obtain rfl := Option.some.inj hs
    obtain rfl := Option.some.inj hs'
    refine hstart'.trans (Eq.trans ?_ hstart.symm)
    exact if_congr hexpired rfl h.start
  · obtain ⟨-, -, hcount⟩ := RiskEngine.checkOrder_reached hreach c.nowNs
    obtain ⟨-, -, hcount'⟩ := RiskEngine.checkOrder_reached hreach' c.nowNs
    obtain rfl := Option.some.inj hs
    obtain rfl := Option.some.inj hs'
    exact hcount'.trans (hcounted.trans hcount.symm)

theorem SameWindow.skip (h : w.SameWindow w') (hreach : ¬ (w.told c).ReachesRateCheck c.msg)
    {u : CheckLog} (hs : w.step c = some u) : u.SameWindow w' := by
  obtain ⟨-, hstart, hcount⟩ := RiskEngine.checkOrder_unreached hreach c.nowNs
  refine ⟨h.config.trans (step_config hs rfl).symm, ?_, ?_⟩
  · obtain rfl := Option.some.inj hs
    exact h.start.trans hstart.symm
  · obtain rfl := Option.some.inj hs
    exact h.count.trans hcount.symm

/-- Without the calls that do not get to the rate check, the others fare the same. -/
theorem SameWindow.run (h : w.SameWindow w') (hcfg : w.engine.config = cfg) :
    ∃ u u' new, Library.run CheckLog.step w calls = some u ∧
      Library.run CheckLog.step w' (calls.filter (CheckCall.Reaches cfg)) = some u' ∧
      u.entries = w.entries ++ new ∧ u'.entries = w'.entries ++ new.filter CheckEntry.reached := by
  induction calls generalizing w w' with
  | nil => exact ⟨w, w', [], rfl, rfl, by simp, by simp⟩
  | cons c calls ih =>
    obtain ⟨w1, hs⟩ : ∃ w1, w.step c = some w1 := ⟨_, rfl⟩
    have hentries : w1.entries = w.entries ++ [w.entry c] := by
      obtain rfl := Option.some.inj hs
      rfl
    have hcfg1 := step_config hs hcfg
    by_cases hreach : (w.told c).ReachesRateCheck c.msg
    · obtain ⟨w1', hs'⟩ : ∃ w1', w'.step c = some w1' := ⟨_, rfl⟩
      obtain ⟨hentry, h1⟩ := h.step hreach hs hs'
      obtain ⟨u, u', new, hu, hu', hnew, hnew'⟩ := ih h1 hcfg1
      have hreached : (w.entry c).reached = true := decide_eq_true hreach
      have hentries' : w1'.entries = w'.entries ++ [w.entry c] := by
        obtain rfl := Option.some.inj hs'
        rw [← hentry]
      refine ⟨u, u', w.entry c :: new, by simp [Library.run, hs, hu], ?_, ?_, ?_⟩
      · have hkeep := (reaches_iff hcfg).mp hreach
        simp [hkeep, Library.run, hs', hu']
      · rw [hnew, hentries, List.append_assoc]
        rfl
      · rw [hnew', hentries', List.filter_cons_of_pos hreached, List.append_assoc]
        rfl
    · obtain ⟨u, u', new, hu, hu', hnew, hnew'⟩ := ih (h.skip hreach hs) hcfg1
      have hreached : (w.entry c).reached = false := decide_eq_false hreach
      refine ⟨u, u', w.entry c :: new, by simp [Library.run, hs, hu], ?_, ?_, ?_⟩
      · have hdrop := mt (reaches_iff hcfg).mpr hreach
        simpa [List.filter_cons, hdrop] using hu'
      · rw [hnew, hentries, List.append_assoc]
        rfl
      · rw [hnew', List.filter_cons_of_neg (by simp [hreached])]

def Warranted (w : CheckLog) : Prop :=
  ∀ e ∈ w.entries, e.result = .rateLimit → w.engine.config.maxMsgsPerWindow.toNat <
    countTo w.engine.config.windowDurationNs.toNat e.nowNs.toNat w.reachedAt

theorem Warranted.step (h : w.Warranted) (hj : w.Justified c) (hs : w.step c = some w') :
    w'.Warranted := by
  have hcfg := step_config hs rfl
  have hreachedAt := reachedAt_step hs
  intro e he hlimit
  obtain rfl := Option.some.inj hs
  rw [hcfg]
  cases List.mem_append.mp he with
  | inl he =>
    have hmore := h e he hlimit
    rw [hreachedAt]
    unfold countTo at hmore ⊢
    rw [List.countP_append]
    omega
  | inr he =>
    obtain rfl := List.mem_singleton.mp he
    exact hj hlimit

/-- From a fresh engine, with a clock that does not go back: a call that is turned away for
its rate is one of more than the allowed number within a window's length; so a client that
keeps to that number never is; and the calls that the first four checks stop change nothing
for the others. -/
theorem run_justified (hw : 0 < cfg.windowDurationNs)
    (hsorted : calls.Pairwise fun c c' => c.nowNs ≤ c'.nowNs) :
    Along step Justified (new cfg) calls ∧
      ∃ w, run step (new cfg) calls = some w ∧
        (Spaced cfg.windowDurationNs.toNat cfg.maxMsgsPerWindow.toNat w.reachedAt →
          ∀ e ∈ w.entries, e.result ≠ .rateLimit) ∧
        ∃ w', run step (new cfg) (calls.filter (CheckCall.Reaches cfg)) = some w' ∧
          w'.entries = w.entries.filter CheckEntry.reached := by
  have hw : cfg.windowDurationNs ≠ 0 := by grind
  have hordered : Along step Ordered (new cfg) calls :=
    along_ordered hsorted fun _ _ _ he => absurd he List.not_mem_nil
  have hwindowed : ∀ (w : CheckLog) (c : CheckCall), w.Windowed cfg → w.Ordered c →
      w.Justified c ∧ ∀ w', w.step c = some w' → w'.Windowed cfg :=
    fun w c h hc => ⟨h.justified hc hw, fun w' hs => h.step hc hw hs⟩
  have hjustified := along_of_invariant hwindowed (new_windowed cfg) hordered
  have hstep : ∀ (w : CheckLog) (c : CheckCall), w.Warranted ∧ w.engine.config = cfg →
      w.Justified c → ∃ w', w.step c = some w' ∧ w'.Warranted ∧ w'.engine.config = cfg :=
    fun w c h hj => ⟨_, rfl, h.1.step hj rfl, step_config rfl h.2⟩
  have hnew : (new cfg).Warranted := fun _ he => absurd he List.not_mem_nil
  obtain ⟨w, hrun, hwarranted, hcfg⟩ := run_invariant hstep ⟨hnew, rfl⟩ hjustified
  obtain ⟨u, u', entries, hu, hu', hentries, hentries'⟩ :=
    @SameWindow.run (new cfg) (new cfg) cfg calls ⟨rfl, rfl, rfl⟩ rfl
  obtain rfl := Option.some.inj (hrun.symm.trans hu)
  refine ⟨hjustified, w, hrun, fun hspaced e he hlimit => ?_, u', hu', ?_⟩
  · have hmany := hwarranted e he hlimit
    have hle := @countTo_le_countIn cfg.windowDurationNs.toNat e.nowNs.toNat w.reachedAt
    have hfew := hspaced (e.nowNs.toNat + 1 - cfg.windowDurationNs.toNat)
    rw [hcfg] at hmany
    omega
  · have hempty : (new cfg).entries = [] := rfl
    rw [hentries', hentries, hempty, List.nil_append, List.nil_append]

/-- A third call within a window of two, after one that is stopped for its quantity. -/
theorem run_justified_third :
    let cfg : RiskConfig := { maxMsgsPerWindow := 2, windowDurationNs := 10 }
    let calls := ⟨0, 0, { quickMsg with qty := 0 }, 1000⟩ :: callsAt [1000, 1001, 1002]
    Along step Justified (new cfg) calls ∧ ∃ w, run step (new cfg) calls = some w ∧
      w.entries.map CheckEntry.result = [.invalidQuantity, .none, .none, .rateLimit] ∧
      ∃ w', run step (new cfg) (callsAt [1000, 1001, 1002]) = some w' ∧
        w'.entries = w.entries.filter CheckEntry.reached := by
  intro cfg calls
  obtain ⟨hjustified, w, hrun, -, hfilter⟩ :=
    @run_justified cfg calls (by decide) (by decide)
  have hreaching : calls.filter (CheckCall.Reaches cfg) = callsAt [1000, 1001, 1002] := by
    decide +kernel
  rw [hreaching] at hfilter
  refine ⟨hjustified, w, hrun, ?_, hfilter⟩
  have hend : (run step (new cfg) calls).map (fun w => w.entries.map CheckEntry.result) =
      some [.invalidQuantity, .none, .none, .rateLimit] := by decide +kernel
  rw [hrun] at hend
  exact Option.some.inj hend

end Limited
end CheckLog
end LobCity
