import LobCity.Screening
import LobCity.Backtests

/-! The statistics of the risk engine and the report on them. The gateway and direct calls
work on one book, the risk engine may be tuned in between; the counters count the verdicts
that the gateway's messages got, and nothing else. -/
namespace LobCity
open Library

structure RiskReport (D : Type) where
  totalChecked : UInt64
  totalPassed : UInt64
  totalRejected : UInt64
  breakdown : List (String × UInt64)
  passRate : Option D

namespace RiskStats

def countOf (s : RiskStats) : RiskRejectReason → UInt64
  | .none => s.totalPassed
  | .invalidPrice => s.rejectInvalidPx
  | .invalidQuantity => s.rejectInvalidQty
  | .fatFingerSize => s.rejectFatFinger
  | .fatFingerNotional => s.rejectNotional
  | .priceCollar => s.rejectCollar
  | .rateLimit => s.rejectRateLimit

/-- The line of the report in front of the counter of a rejection. -/
def line : RiskRejectReason → String
  | .none => ""
  | .invalidPrice => "  Invalid Price   : "
  | .invalidQuantity => "  Invalid Qty     : "
  | .fatFingerSize => "  Fat Finger Size : "
  | .fatFingerNotional => "  Fat Finger $    : "
  | .priceCollar => "  Price Collar    : "
  | .rateLimit => "  Rate Limited    : "

def rejections : List RiskRejectReason :=
  [.invalidPrice, .invalidQuantity, .fatFingerSize, .fatFingerNotional, .priceCollar, .rateLimit]

/-- What `checkOrder` adds to the statistics, given its verdict. -/
def note (s : RiskStats) (result : RiskRejectReason) : RiskStats :=
  let s1 := { s with totalChecked := s.totalChecked + 1 }
  if result = .none then { s1 with totalPassed := s1.totalPassed + 1 } else s1.recordReject result

structure Tallies (s : RiskStats) (verdicts : List RiskRejectReason) : Prop where
  totalChecked : s.totalChecked = UInt64.ofNat verdicts.length
  countOf : ∀ reason, s.countOf reason = UInt64.ofNat (verdicts.count reason)

variable {s : RiskStats} {verdicts : List RiskRejectReason}

theorem new_tallies : ({} : RiskStats).Tallies [] := ⟨rfl, fun reason => by cases reason <;> rfl⟩

theorem countOf_note (s : RiskStats) (result reason : RiskRejectReason) :
    (s.note result).countOf reason = s.countOf reason + if reason = result then 1 else 0 := by
  cases result <;> cases reason <;> simp [note, recordReject, countOf]

theorem totalChecked_note (s : RiskStats) (result : RiskRejectReason) :
    (s.note result).totalChecked = s.totalChecked + 1 := by
  cases result <;> rfl

theorem Tallies.note (h : s.Tallies verdicts) (result : RiskRejectReason) :
    (s.note result).Tallies (verdicts ++ [result]) := by
  refine ⟨?_, fun reason => ?_⟩
  · rw [totalChecked_note, h.totalChecked, List.length_append, UInt64.ofNat_add]
    rfl
  · have hone : UInt64.ofNat (List.count reason [result]) = if reason = result then 1 else 0 := by
      rw [List.count_singleton]
      by_cases heq : reason = result
      · simp [heq]
      · have hne : ¬ result = reason := fun h => heq h.symm
        simp [heq, hne]
    rw [countOf_note, h.countOf, List.count_append, UInt64.ofNat_add, hone]

def printReport {D : Type} [DoubleCasts D] (s : RiskStats) : RiskReport D where
  totalChecked := s.totalChecked
  totalPassed := s.totalPassed
  totalRejected := s.totalChecked - s.totalPassed
  breakdown :=
    if s.totalChecked > s.totalPassed then
      (if s.rejectInvalidPx > 0 then [("  Invalid Price   : ", s.rejectInvalidPx)] else []) ++
      (if s.rejectInvalidQty > 0 then [("  Invalid Qty     : ", s.rejectInvalidQty)] else []) ++
      (if s.rejectFatFinger > 0 then [("  Fat Finger Size : ", s.rejectFatFinger)] else []) ++
      (if s.rejectNotional > 0 then [("  Fat Finger $    : ", s.rejectNotional)] else []) ++
      (if s.rejectCollar > 0 then [("  Price Collar    : ", s.rejectCollar)] else []) ++
      (if s.rejectRateLimit > 0 then [("  Rate Limited    : ", s.rejectRateLimit)] else [])
    else []
  passRate :=
    if s.totalChecked > 0 then
      some (Double.ofInt64 100 * DoubleCasts.ofSize s.totalPassed /
        DoubleCasts.ofSize s.totalChecked)
    else none

end RiskStats

namespace RiskEngine
variable {Id : Type}

theorem checkRateLimit_stats (r : RiskEngine) (nowNs : UInt64) :
    (r.checkRateLimit nowNs).2.stats = r.stats := by
  unfold checkRateLimit openWindow
  dsimp only
  split_ifs <;> rfl

theorem checkOrder_stats (r : RiskEngine) (msg : ParsedFixMessage Id) (nowNs : UInt64) :
    (r.checkOrder msg nowNs).2.stats = r.stats.note (r.checkOrder msg nowNs).1 := by
  set r1 := { r with stats.totalChecked := r.stats.totalChecked + 1 } with hr1
  have hrate := r1.checkRateLimit_stats nowNs
  have hreject {r2 : RiskEngine} (hstats : r2.stats = r1.stats) {result : RiskRejectReason}
      (hne : result ≠ .none) : (r2.reject result).2.stats = r.stats.note (r2.reject result).1 := by
    show r2.stats.recordReject result = r.stats.note result
    rw [hstats, RiskStats.note, if_neg hne]
  unfold checkOrder
  dsimp only
  rw [← hr1]
  split_ifs with hv hs hn hc hl
  · exact hreject rfl hv
  · exact hreject rfl hs
  · exact hreject rfl hn
  · exact hreject rfl hc
  · exact hreject hrate hl
  · rw [hrate]
    rfl

end RiskEngine

/-- What the server's `main` and the tests do with one gateway and its book, in any order: a
message, a call of the book or the pool, a new configuration through `getConfig`. -/
inductive ServerCall
  | message (m : FixMessage × Clock)
  | call (op : Op)
  | tune (cfg : RiskConfig)

structure Server where
  gateway : OrderEntryGateway
  hands : List Addr

namespace Server

def new (poolSize : Nat) (udpPub : Bool) (cfg : RiskConfig) : Server :=
  ⟨.new poolSize udpPub cfg, []⟩

def step (w : Server) : ServerCall → Option Server
  | .message m => (w.gateway.step m).map fun g => { w with gateway := g }
  | .call op => (Session.step ⟨w.gateway.engine, w.hands⟩ op).map fun S =>
      ⟨{ w.gateway with engine := S.engine }, S.hands⟩
  | .tune cfg => some { w with gateway.risk.config := cfg }

def verdict (w : Server) : ServerCall → Option RiskRejectReason
  | .message m => w.gateway.decision m
  | .call _ | .tune _ => none

def verdicts (w : Server) : List ServerCall → List RiskRejectReason
  | [] => []
  | c :: calls => (w.verdict c).toList ++ (w.step c).elim [] fun w' => w'.verdicts calls

variable {w w' : Server} {before : List RiskRejectReason}

theorem step_tallies {c : ServerCall} (h : w.gateway.risk.stats.Tallies before)
    (hs : w.step c = some w') :
    w'.gateway.risk.stats.Tallies (before ++ (w.verdict c).toList) := by
  cases c with
  | message m =>
    obtain ⟨g, hg, rfl⟩ := Option.map_eq_some_iff.mp hs
    have hrisk : g.risk = w.gateway.riskAfter m := by
      by_cases hr : w.gateway.Rejects m
      · rw [OrderEntryGateway.step_rejected hr] at hg
        rw [← Option.some.inj hg]
      · rw [OrderEntryGateway.step_admitted hr] at hg
        obtain ⟨e, -, rfl⟩ := Option.map_eq_some_iff.mp hg
        rfl
    show g.risk.stats.Tallies (before ++ (w.gateway.decision m).toList)
    rw [hrisk, OrderEntryGateway.riskAfter, OrderEntryGateway.decision]
    by_cases hm : OrderEntryGateway.Screened m
    · rw [if_pos hm, if_pos hm, OrderEntryGateway.screened, RiskEngine.checkOrder_stats]
      exact RiskStats.Tallies.note h _
    · rw [if_neg hm, if_neg hm]
      simpa using h
  | call op =>
    obtain ⟨S, -, rfl⟩ := Option.map_eq_some_iff.mp hs
    simpa [verdict] using h
  | tune cfg =>
    obtain rfl := Option.some.inj hs
    simpa [verdict] using h

theorem run_tallies {calls : List ServerCall} (h : w.gateway.risk.stats.Tallies before)
    (hrun : Library.run step w calls = some w') :
    w'.gateway.risk.stats.Tallies (before ++ w.verdicts calls) := by
  induction calls generalizing w before with
  | nil =>
    obtain rfl := Option.some.inj hrun
    rwa [verdicts, List.append_nil]
  | cons c calls ih =>
    obtain ⟨w1, hs, hrest⟩ := Option.bind_eq_some_iff.mp hrun
    rw [verdicts, hs, ← List.append_assoc]
    exact ih (step_tallies h hs) hrest

end Server

/-- What the report says of verdicts: every one is checked, and passed or in one line of the
breakdown, which has a line for each reason that occurred. -/
structure RiskReport.AddsUp {D : Type} [DoubleCasts D] (report : RiskReport D)
    (verdicts : List RiskRejectReason) : Prop where
  totalChecked : report.totalChecked.toNat = verdicts.length
  totalPassed : report.totalPassed.toNat = verdicts.count .none
  totalRejected : report.totalRejected.toNat = (verdicts.filter (· ≠ .none)).length
  breakdown : report.breakdown = (RiskStats.rejections.filter (· ∈ verdicts)).map fun reason =>
    (RiskStats.line reason, UInt64.ofNat (verdicts.count reason))
  lines : (report.breakdown.map fun l => l.2.toNat).sum = report.totalRejected.toNat
  passRate : report.passRate = if verdicts = [] then none else
    some (Double.ofInt64 100 * DoubleCasts.ofSize report.totalPassed /
      DoubleCasts.ofSize report.totalChecked)

namespace RiskStats
variable {D : Type} [DoubleCasts D] {s : RiskStats} {verdicts : List RiskRejectReason}

theorem length_eq_counts (verdicts : List RiskRejectReason) :
    verdicts.length = verdicts.count .none + (rejections.map fun r => verdicts.count r).sum := by
  induction verdicts with
  | nil => rfl
  | cons r verdicts ih =>
    simp only [rejections, List.map_cons, List.map_nil, List.sum_cons, List.sum_nil] at ih ⊢
    rw [List.length_cons, ih]
    cases r <;> simp <;> omega

theorem length_rejected (verdicts : List RiskRejectReason) :
    (verdicts.filter (· ≠ .none)).length + verdicts.count .none = verdicts.length := by
  induction verdicts with
  | nil => rfl
  | cons r verdicts ih => cases r <;> simp at ih ⊢ <;> omega

theorem Tallies.toNat_countOf (h : s.Tallies verdicts) (hlt : verdicts.length < 2 ^ 64)
    (reason : RiskRejectReason) : (s.countOf reason).toNat = verdicts.count reason := by
  have hle : verdicts.count reason ≤ verdicts.length := List.count_le_length
  rw [h.countOf, UInt64.toNat_ofNat_of_lt' (Nat.lt_of_le_of_lt hle hlt)]

theorem Tallies.pos_iff (h : s.Tallies verdicts) (hlt : verdicts.length < 2 ^ 64)
    (reason : RiskRejectReason) : s.countOf reason > 0 ↔ reason ∈ verdicts := by
  rw [gt_iff_lt, UInt64.lt_iff_toNat_lt, h.toNat_countOf hlt]
  exact List.count_pos_iff

theorem sum_count_filter (l : List RiskRejectReason) :
    ((l.filter (· ∈ verdicts)).map fun r => verdicts.count r).sum =
      (l.map fun r => verdicts.count r).sum := by
  induction l with
  | nil => rfl
  | cons r l ih =>
    by_cases hr : r ∈ verdicts
    · simp [hr, ih]
    · simp [hr, ih, List.count_eq_zero_of_not_mem hr]

theorem filter_map_eq {α β : Type} (p : α → Prop) [DecidablePred p] (f : α → β) (l : List α) :
    (l.filter p).map f = l.flatMap fun x => if p x then [f x] else [] := by
  induction l with
  | nil => rfl
  | cons x l ih =>
    rw [List.flatMap_cons, ← ih]
    by_cases hx : p x <;> simp [hx]

theorem Tallies.addsUp (h : s.Tallies verdicts) (hlt : verdicts.length < 2 ^ 64) :
    (s.printReport : RiskReport D).AddsUp verdicts := by
  have hchecked : s.totalChecked.toNat = verdicts.length := by
    rw [h.totalChecked, UInt64.toNat_ofNat_of_lt' hlt]
  have hpassed : s.totalPassed.toNat = verdicts.count .none := h.toNat_countOf hlt .none
  have hsplit := length_rejected verdicts
  have hle : s.totalPassed ≤ s.totalChecked := by
    rw [UInt64.le_iff_toNat_le, hchecked, hpassed]
    exact List.count_le_length
  have hrejected : (s.totalChecked - s.totalPassed).toNat = (verdicts.filter (· ≠ .none)).length := by
    rw [UInt64.toNat_sub_of_le _ _ hle, hchecked, hpassed]
    omega
  have hmore : s.totalChecked > s.totalPassed ↔ verdicts.count .none < verdicts.length := by
    rw [gt_iff_lt, UInt64.lt_iff_toNat_lt, hchecked, hpassed]
  have hbreakdown : (s.printReport : RiskReport D).breakdown =
      (rejections.filter (· ∈ verdicts)).map fun reason =>
        (line reason, UInt64.ofNat (verdicts.count reason)) := by
    rw [filter_map_eq]
    by_cases hm : s.totalChecked > s.totalPassed
    · simp only [printReport, if_pos hm, rejections, List.flatMap_cons, List.flatMap_nil,
        ← h.pos_iff hlt, ← h.countOf, List.append_nil, ← List.append_assoc]
      rfl
    · -- nothing is rejected
      have hnone : ∀ reason ∈ rejections, reason ∉ verdicts := by
        intro reason hreason hmem
        have hne : reason ≠ .none := by
          rintro rfl
          simp [rejections] at hreason
        have hpos : 0 < (verdicts.filter (· ≠ .none)).length :=
          List.length_pos_of_mem (List.mem_filter.mpr ⟨hmem, by simpa using hne⟩)
        exact hm (hmore.mpr (by omega))
      rw [List.flatMap_eq_nil_iff.mpr fun reason hreason => if_neg (hnone reason hreason)]
      simp only [printReport, if_neg hm]
  refine ⟨hchecked, hpassed, hrejected, hbreakdown, ?_, ?_⟩
  · have htotal := length_eq_counts verdicts
    have hcount (reason : RiskRejectReason) :
        (UInt64.ofNat (verdicts.count reason)).toNat = verdicts.count reason := by
      rw [← h.countOf, h.toNat_countOf hlt]
    rw [hbreakdown, List.map_map]
    show ((rejections.filter (· ∈ verdicts)).map fun reason =>
      (UInt64.ofNat (verdicts.count reason)).toNat).sum = (s.totalChecked - s.totalPassed).toNat
    simp only [hcount]
    rw [sum_count_filter, hrejected]
    omega
  · have hpos : s.totalChecked > 0 ↔ verdicts ≠ [] := by
      rw [gt_iff_lt, UInt64.lt_iff_toNat_lt, hchecked]
      exact List.length_pos_iff
    show (if s.totalChecked > 0 then _ else none) = _
    by_cases hnil : verdicts = []
    · rw [if_neg fun hp => hpos.mp hp hnil, if_pos hnil]
    · rw [if_pos (hpos.mpr hnil), if_neg hnil]
      rfl

end RiskStats

namespace Server
variable {D : Type} [DoubleCasts D]

/-- After every run the report is about the verdicts of the run: whatever direct calls and
new configurations stand in between, each message that is put to the risk engine is counted
once, under its verdict. -/
theorem run_addsUp {poolSize : Nat} {udpPub : Bool} {cfg : RiskConfig} {calls : List ServerCall}
    {w : Server} (hrun : Library.run step (new poolSize udpPub cfg) calls = some w)
    (hlt : ((new poolSize udpPub cfg).verdicts calls).length < 2 ^ 64) :
    (w.gateway.risk.stats.printReport : RiskReport D).AddsUp
      ((new poolSize udpPub cfg).verdicts calls) :=
  (run_tallies RiskStats.new_tallies hrun).addsUp hlt

def tunedCalls : List ServerCall :=
  let order : FixMessage := { msgType := byte 'D', side := byte '1', ordType := byte '2', qty := 5,
                              price := 1000000, clOrdID := [byte '1'], origClOrdID := [] }
  [.message (order, ⟨1, 1, 1⟩), .call (.acquire 7 1010000 5 .sell false), .call (.process 2 1 1),
   .tune { maxOrderQty := 4 }, .message ({ order with clOrdID := [byte '2'] }, ⟨2, 2, 2⟩),
   .message ({ order with price := 0 }, ⟨3, 3, 3⟩)]

theorem run_addsUp_tuned :
    ∃ w : Server, Library.run step (new 4 false {}) tunedCalls = some w ∧
      (w.gateway.risk.stats.printReport : RiskReport ℚ).breakdown =
        [("  Invalid Price   : ", 1), ("  Fat Finger Size : ", 1)] ∧
      (w.gateway.risk.stats.printReport : RiskReport ℚ).AddsUp ((new 4 false {}).verdicts tunedCalls) := by
  have hverdicts : (new 4 false {}).verdicts tunedCalls = [.none, .fatFingerSize, .invalidPrice] := by
    decide +kernel
  have hstats : (Library.run step (new 4 false {}) tunedCalls).isSome = true := by decide +kernel
  obtain ⟨w, hw⟩ := Option.isSome_iff_exists.mp hstats
  have hlt : ((new 4 false {}).verdicts tunedCalls).length < 2 ^ 64 := by rw [hverdicts]; decide
  have hadds : (w.gateway.risk.stats.printReport : RiskReport ℚ).AddsUp _ := run_addsUp hw hlt
  refine ⟨w, hw, ?_, hadds⟩
  rw [hadds.breakdown, hverdicts]
  rfl

end Server
end LobCity
