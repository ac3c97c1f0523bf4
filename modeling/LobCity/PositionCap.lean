import LobCity.Requotes
import LobCity.FillRuns

/-! The position cap. At every point the position stays within the cap even if all that is
left of the two quotes is traded; fills move shares from a quote to the position, and a new
quote is no larger than the room that there is. -/
namespace LobCity
open Library

section Arithmetic

theorem toInt_add_of_bounds {x : Int64} {n : Int} (hlo : -2 ^ 63 ≤ x.toInt + n)
    (hhi : x.toInt + n < 2 ^ 63) : (x + Int64.ofInt n).toInt = x.toInt + n := by
  have hsum : x + Int64.ofInt n = Int64.ofInt (x.toInt + n) := by
    rw [Int64.ofInt_add, Int64.ofInt_toInt]
  rw [hsum, Int64.toInt_ofInt_of_le hlo hhi]

theorem toNat_toQuantity_le {x : Int64} (hx : 0 ≤ x.toInt) :
    ((toQuantity x).toNat : Int) ≤ x.toInt := by
  rw [toNat_toQuantity hx]
  omega

end Arithmetic

def MarketMakerConfig.Allows (cfg : MarketMakerConfig) (position : Int64) : Prop :=
  -cfg.maxPosition ≤ position ∧ position ≤ cfg.maxPosition

namespace MarketMaker
variable {D : Type} {m m' : MarketMaker D} {lim lim' : Side → Nat}

/-- The position stays within the cap if up to `lim` shares of the quotes are traded. -/
structure Covers (m : MarketMaker D) (lim : Side → Nat) : Prop where
  buy : m.netPosition.toInt + lim .buy ≤ m.config.maxPosition.toInt
  sell : -m.config.maxPosition.toInt ≤ m.netPosition.toInt - lim .sell

theorem Covers.mono (h : m.Covers lim) (hlim : ∀ s, lim' s ≤ lim s) : m.Covers lim' := by
  obtain ⟨hbuy, hsell⟩ := h
  have hb := hlim .buy
  have hs := hlim .sell
  exact ⟨by omega, by omega⟩

theorem Covers.of_same (h : m.Covers lim) (hcfg : m'.config = m.config)
    (hpos : m'.netPosition = m.netPosition) : m'.Covers lim :=
  ⟨by rw [hcfg, hpos]; exact h.buy, by rw [hcfg, hpos]; exact h.sell⟩

theorem Covers.allows (h : m.Covers lim) (hmax : 0 ≤ m.config.maxPosition) :
    m.config.Allows m.netPosition := by
  obtain ⟨hbuy, hsell⟩ := h
  have hmax := Int64.le_iff_toInt_le.mp hmax
  have hneg : (-m.config.maxPosition).toInt = -m.config.maxPosition.toInt := by
    have hlt := m.config.maxPosition.toInt_lt
    have hzero : (0 : Int64).toInt = 0 := rfl
    rw [Int64.toInt_neg, Int.bmod_eq_of_le (by omega) (by omega)]
  refine ⟨Int64.le_iff_toInt_le.mpr ?_, Int64.le_iff_toInt_le.mpr ?_⟩
  · omega
  · omega

/-- A size that is capped by the room, of which the code computes the 64-bit remainder. -/
theorem cappedSize_le (m : MarketMaker D) {room : Int64} {n : Int} (h0 : 0 ≤ n)
    (hroom : n < 2 ^ 63 → room.toInt = n) : ((m.cappedSize true room).toNat : Int) ≤ n := by
  by_cases hn : n < 2 ^ 63
  · have hroom := hroom hn
    unfold cappedSize
    split_ifs with h
    · rw [← hroom]
      exact toNat_toQuantity_le (by omega)
    · have hle : m.config.quoteSize.toSigned ≤ room := by
        simpa using h
      rw [Int64.le_iff_toInt_le, Quantity.toInt_toSigned] at hle
      omega
  · have hlt := (m.cappedSize true room).toNat_lt
    omega

theorem quoteShares_le {c : Prop} [Decidable c] {q : Price × Quantity} {n : Int} (h0 : 0 ≤ n)
    (hq : c → (q.2.toNat : Int) ≤ n) : (quoteShares (if c then some q else none) : Int) ≤ n := by
  split_ifs with hc
  · exact hq hc
  · exact h0

theorem Covers.requote (h : m.Covers fun _ => 0) {mid : Price}
    {bid ask : Option (Price × Quantity)} (hquotes : m.requote mid = some (bid, ask)) :
    m.netPosition.toInt + quoteShares bid ≤ m.config.maxPosition.toInt ∧
      -m.config.maxPosition.toInt ≤ m.netPosition.toInt - quoteShares ask := by
  obtain ⟨hbuy, hsell⟩ := h
  unfold MarketMaker.requote at hquotes
  dsimp only at hquotes
  rw [Option.ite_none_right_eq_some] at hquotes
  obtain ⟨hbid, hask⟩ := Prod.mk.inj (Option.some.inj hquotes.2)
  have hlo := m.netPosition.le_toInt
  constructor
  · have hle : (quoteShares bid : Int) ≤ m.config.maxPosition.toInt - m.netPosition.toInt := by
      rw [← hbid]
      refine quoteShares_le (by omega) fun hc => ?_
      rw [hc.1]
      refine m.cappedSize_le (by omega) fun hlt => ?_
      rw [Int64.toInt_sub, Int.bmod_eq_of_le (by omega) (by omega)]
    omega
  · have hle : (quoteShares ask : Int) ≤ m.config.maxPosition.toInt + m.netPosition.toInt := by
      rw [← hask]
      refine quoteShares_le (by omega) fun hc => ?_
      rw [hc.1]
      refine m.cappedSize_le (by omega) fun hlt => ?_
      rw [Int64.toInt_add, Int.bmod_eq_of_le (by omega) (by omega)]
    omega

variable [Double D]

/-- A fill of at most what the quote has left. -/
theorem Covers.fill (h : m.Covers lim) (t : Trade) (s : Side) (c : Prop) [Decidable c]
    (hq : (if c then t.quantity.toNat else 0) ≤ lim s) :
    (if c then m.applyFill t s else m).Covers
      (Function.update lim s (lim s - if c then t.quantity.toNat else 0)) := by
  by_cases hc : c
  · simp only [if_pos hc] at hq ⊢
    obtain ⟨hbuy, hsell⟩ := h
    have hlt := m.config.maxPosition.toInt_lt
    have hcfg := (m.applyFill_same t s).config
    have hpos : (m.applyFill t s).netPosition = m.netPosition + s.signed t.quantity :=
      m.updatePosition_netPosition _ _
    cases s with
    | buy =>
      have hsum : (m.applyFill t .buy).netPosition.toInt = m.netPosition.toInt + t.quantity.toNat := by
        rw [hpos, Side.signed, t.quantity.toSigned_eq]
        exact toInt_add_of_bounds (by omega) (by omega)
      refine ⟨?_, ?_⟩
      · rw [hcfg, hsum, Function.update_self]
        omega
      · rw [hcfg, hsum, Function.update_of_ne (by decide)]
        omega
    | sell =>
      have hsum : (m.applyFill t .sell).netPosition.toInt = m.netPosition.toInt - t.quantity.toNat := by
        rw [hpos, Side.signed, t.quantity.toSigned_eq, ← Int64.ofInt_neg]
        exact toInt_add_of_bounds (by omega) (by omega)
      refine ⟨?_, ?_⟩
      · rw [hcfg, hsum, Function.update_of_ne (by decide)]
        omega
      · rw [hcfg, hsum, Function.update_self]
        omega
  · simp only [if_neg hc, Nat.sub_zero, Function.update_eq_self]
    exact h

/-- The positions that a scan of the log goes through, one for each `updatePosition`. -/
def positions (m : MarketMaker D) : List Trade → List Int64
  | [] => []
  | t :: log =>
    let m1 := if t.buyOrderId = m.currentBidId then m.applyFill t .buy else m
    let m2 := if t.sellOrderId = m1.currentAskId then m1.applyFill t .sell else m1
    (if t.buyOrderId = m.currentBidId then [m1.netPosition] else []) ++
      (if t.sellOrderId = m1.currentAskId then [m2.netPosition] else []) ++ m2.positions log

theorem mem_positions_cons {t : Trade} {log : List Trade} {p : Int64}
    (hp : p ∈ m.positions (t :: log)) :
    p = (if t.buyOrderId = m.currentBidId then m.applyFill t .buy else m).netPosition ∨
      p = (m.scanTrade t).netPosition ∨ p ∈ (m.scanTrade t).positions log := by
  rw [positions, List.mem_append, List.mem_append] at hp
  rcases hp with (hp | hp) | hp
  · exact Or.inl (List.mem_singleton.mp (List.mem_ite_nil_right.mp hp).2)
  · exact Or.inr (Or.inl (List.mem_singleton.mp (List.mem_ite_nil_right.mp hp).2))
  · exact Or.inr (Or.inr hp)

variable {own : OrderId → Prop} [DecidablePred own]

/-- One trade of the scan: what it takes from the quotes goes to the position, first what the
bid has bought, then what the ask has sold. -/
theorem Covers.scanTrade (h : m.Covers lim) {t : Trade}
    (hnames : ∀ s, t.orderId s = m.current s ↔ own (t.orderId s))
    (hlim : ∀ s, filled own s [t] ≤ lim s) :
    (if t.buyOrderId = m.currentBidId then m.applyFill t .buy else m).Covers (fun _ => 0) ∧
      (m.scanTrade t).Covers fun s => lim s - filled own s [t] := by
  have hfilled (s : Side) : filled own s [t] = if own (t.orderId s) then t.quantity.toNat else 0 :=
    Nat.add_zero _
  have hsame := (m.applyFill_if t .buy (t.buyOrderId = m.currentBidId)).1
  set m1 := if t.buyOrderId = m.currentBidId then m.applyFill t .buy else m with hm1
  have hask : m1.currentAskId = m.currentAskId := congrFun hsame.current .sell
  have hbuy : (if t.buyOrderId = m.currentBidId then t.quantity.toNat else 0) =
      filled own .buy [t] := by
    rw [hfilled]
    exact if_congr (hnames .buy) rfl rfl
  have hsell : (if t.sellOrderId = m1.currentAskId then t.quantity.toNat else 0) =
      filled own .sell [t] := by
    rw [hfilled, hask]
    exact if_congr (hnames .sell) rfl rfl
  have h1 := h.fill t .buy (t.buyOrderId = m.currentBidId) (hbuy ▸ hlim .buy)
  rw [← hm1, hbuy] at h1
  have h2 := h1.fill t .sell (t.sellOrderId = m1.currentAskId) (by
    rw [hsell, Function.update_of_ne (by decide)]
    exact hlim .sell)
  rw [hsell] at h2
  refine ⟨h1.mono fun s => Nat.zero_le _, Covers.mono h2 fun s => ?_⟩
  cases s <;> simp [Function.update]

/-- The scan moves what the quotes traded from them to the position, and stays within the
cap on the way. -/
theorem Covers.scan (h : m.Covers lim) (hmax : 0 ≤ m.config.maxPosition) {log : List Trade}
    (hnames : ∀ t ∈ log, ∀ s, t.orderId s = m.current s ↔ own (t.orderId s))
    (hlim : ∀ s, filled own s log ≤ lim s) :
    (log.foldl MarketMaker.scanTrade m).Covers (fun s => lim s - filled own s log) ∧
      ∀ p ∈ m.positions log, m.config.Allows p := by
  induction log generalizing m lim with
  | nil => exact ⟨h, by simp [positions]⟩
  | cons t log ih =>
    have hsplit (s : Side) : filled own s (t :: log) = filled own s [t] + filled own s log :=
      filled_append own [t] log
    have hsame := m.scanTrade_same t
    have hfirst := (m.applyFill_if t .buy (t.buyOrderId = m.currentBidId)).1
    obtain ⟨h1, h2⟩ := h.scanTrade (hnames t (by simp)) fun s =>
      (Nat.le_add_right _ _).trans ((hsplit s).symm.le.trans (hlim s))
    obtain ⟨hend, hpositions⟩ := ih h2 (hsame.config ▸ hmax)
      (fun t' ht' s => hsame.current ▸ hnames t' (by simp [ht']) s)
      (fun s => Nat.le_sub_of_add_le' ((hsplit s).symm.le.trans (hlim s)))
    rw [hsame.config] at hpositions
    refine ⟨hend.mono fun s => ?_, fun p hp => ?_⟩
    · rw [hsplit, Nat.sub_add_eq]
    · rcases mem_positions_cons hp with rfl | rfl | hp
      · rw [← hfirst.config]
        exact h1.allows (hfirst.config ▸ hmax)
      · rw [← hsame.config]
        exact h2.allows (hsame.config ▸ hmax)
      · exact hpositions p hp

/-- A tick stays covered, `lim` being what the quotes had left before the trades that it scans. -/
theorem Covers.onTick (h : m.Covers lim) (hmax : 0 ≤ m.config.maxPosition) {S : Session}
    (hquoting : S.Quoting own m) {start : Nat} {clock : TickClock}
    (hnumbers : m.Numbers S.engine start clock)
    (hnames : ∀ t ∈ S.engine.tradeLog.drop start, ∀ s, t.orderId s = m.current s ↔ own (t.orderId s))
    (hlim : ∀ s, S.engine.book.openShares own s + filled own s (S.engine.tradeLog.drop start) =
      lim s) {e' : Engine} (htick : m.onTick S.engine start clock = some (m', e')) :
    m'.Covers (e'.book.openShares own) ∧
      ∀ p ∈ m.positions (S.engine.tradeLog.drop start), m.config.Allows p := by
  obtain ⟨m1, e1, htick1, hquoting1, hcfg, hpos, hcase⟩ := onTick_cases hquoting hnumbers
  obtain ⟨rfl, rfl⟩ := Prod.mk.inj (Option.some.inj (htick.symm.trans htick1))
  have hfilled : ∀ s, filled own s (S.engine.tradeLog.drop start) ≤ lim s :=
    fun s => (hlim s).le.trans' (Nat.le_add_left _ _)
  have hrest : (fun s => lim s - filled own s (S.engine.tradeLog.drop start)) =
      S.engine.book.openShares own := by
    funext s
    rw [← hlim s, Nat.add_sub_cancel]
  have hticked : { m with tickCount := m.tickCount + 1 }.Covers lim := h.of_same rfl rfl
  have hscanned : (m.scanned S.engine start).Covers (S.engine.book.openShares own) := by
    rw [← hrest]
    exact (hticked.scan hmax hnames hfilled).1
  refine ⟨?_, (h.scan hmax hnames hfilled).2⟩
  have hmid : m'.Covers (S.engine.book.openShares own) := by
    have hscan := m.scanned_same S.engine start
    by_cases hd : detects S.engine = true
    · rw [if_pos hd] at hpos
      exact hscanned.of_same (hcfg.trans hscan.config.symm) hpos
    · rw [if_neg hd] at hpos
      refine (h.of_same hcfg hpos).mono fun s => ?_
      exact (hlim s).le.trans' (Nat.le_add_right _ _)
  rcases hcase with ⟨-, -, -, -, rfl⟩ | ⟨-, hzero, -⟩ |
    ⟨-, -, -, hd, -, bid, ask, hquotes, hbid, hask⟩
  · exact hmid
  · refine hmid.mono fun s => ?_
    rw [hquoting1.no_open (hzero s)]
    exact Nat.zero_le _
  · have hempty : (m.scanned S.engine start).Covers fun _ => 0 :=
      hscanned.mono fun s => Nat.zero_le _
    obtain ⟨hbuy, hsell⟩ := hempty.requote hquotes
    rw [if_pos hd] at hpos
    have hscan := m.scanned_same S.engine start
    refine (⟨?_, ?_⟩ : (m.scanned S.engine start).Covers (e'.book.openShares own)).of_same
      (hcfg.trans hscan.config.symm) hpos
    · omega
    · omega

end MarketMaker

namespace Desk
variable {D : Type} [Double D]

def positions (w : Desk D) (tick : Tick) : List Int64 :=
  match run Session.step w.session tick.ops with
  | none => []
  | some S =>
    if MarketMaker.detects S.engine then
      w.maker.positions (S.engine.tradeLog.drop w.session.engine.tradeLog.length)
    else []

/-- The turn leaves the position within the cap, and so does each `updatePosition` in it. -/
structure KeepsCap (cfg : MarketMakerConfig) (w : Desk D) (tick : Tick) : Prop where
  updates : ∀ p ∈ w.positions tick, cfg.Allows p
  after : ∀ w', w.step tick = some w' → cfg.Allows w'.maker.netPosition

def Numbers (w : Desk D) (tick : Tick) : Prop :=
  ∀ S, run Session.step w.session tick.ops = some S →
    w.maker.Numbers S.engine w.session.engine.tradeLog.length tick.clock

instance (w : Desk D) : DecidablePred w.Numbers := fun tick =>
  decidableForallSome (run Session.step w.session tick.ops) _

variable {cfg : MarketMakerConfig} {own : OrderId → Prop} [DecidablePred own] {w w' : Desk D}
  {tick : Tick}

structure Capped (cfg : MarketMakerConfig) (own : OrderId → Prop) [DecidablePred own] (w : Desk D) :
    Prop where
  quoting : w.session.Quoting own w.maker
  config : w.maker.config = cfg
  owned : ∀ s, w.maker.current s ≠ 0 → w.maker.current s ∈ w.issued
  covers : (∀ id ∈ w.issued, own id) → w.maker.Covers (w.session.engine.book.openShares own)

theorem step_eq {S : Session} {m : MarketMaker D} {e : Engine}
    (hS : run Session.step w.session tick.ops = some S)
    (htick : w.maker.onTick S.engine w.session.engine.tradeLog.length tick.clock = some (m, e)) :
    ∃ w', w.step tick = some w' ∧ w'.session = { S with engine := e } ∧ w'.maker = m ∧
      w'.issued = w.issued ++ idsBetween w.maker.nextOrderId m.nextOrderId := by
  by_cases hd : MarketMaker.detects S.engine <;> simp [step, hS, htick, hd]

/-- The step lemma: the others' turn moves shares from the quotes to the log, the scan from
the log to the position. -/
theorem Capped.step (h : w.Capped cfg own) (hmax : 0 ≤ cfg.maxPosition) (hfair : w.Fair tick)
    (hnumbers : w.Numbers tick) (hids : ∀ op ∈ tick.ops, ∀ id ∈ op.ids, Foreign own id) :
    ∃ w', w.step tick = some w' ∧ w'.Capped cfg own ∧
      ((∀ id ∈ w'.issued, own id) → (∀ id ∈ w.issued, own id) ∧ w.KeepsCap cfg tick) := by
  obtain ⟨S, new, hS, hq, hlog, hnew, htrim⟩ := h.quoting.run hfair hids
  obtain ⟨m', e', htick, hq', hcfg, hpos, hcase⟩ :=
    MarketMaker.onTick_cases hq (hnumbers S hS)
  have hwindow : S.engine.tradeLog.drop w.session.engine.tradeLog.length = new := by
    rw [hlog]
    exact List.drop_left
  obtain ⟨w', hw', hsession, rfl, hissued⟩ := step_eq hS htick
  have hown0 (hown : ∀ id ∈ w'.issued, own id) : ∀ id ∈ w.issued, own id :=
    fun id hid => hown id (hissued ▸ List.mem_append_left _ hid)
  have hcovers (hown : ∀ id ∈ w.issued, own id) :
      w'.maker.Covers (e'.book.openShares own) ∧ ∀ p ∈ w.maker.positions new, cfg.Allows p := by
    have h' := (h.covers hown).onTick (h.config ▸ hmax) hq (hnumbers S hS)
      (by rw [hwindow]; exact fun t ht s => (hnew t ht).orderId (fun s hs => hown _ (h.owned s hs)) s)
      (by rw [hwindow]; exact htrim.open_add_filled) htick
    rwa [hwindow, h.config] at h'
  refine ⟨w', hw', ⟨?_, hcfg.trans h.config, fun s hs => ?_, fun hown => ?_⟩, fun hown => ?_⟩
  · rw [hsession]
    exact hq'
  · rw [hissued]
    rcases hcase with ⟨-, -, hcur, -⟩ | ⟨-, hzero, -⟩ | ⟨-, -, -, -, hnew, -⟩
    · rw [hcur] at hs ⊢
      exact List.mem_append_left _ (h.owned s hs)
    · exact absurd (hzero s) hs
    · exact List.mem_append_right _ (hnew s hs)
  · rw [hsession]
    exact (hcovers (hown0 hown)).1
  · refine ⟨hown0 hown, fun p hp => ?_, fun w1 hw1 => ?_⟩
    · unfold positions at hp
      simp only [hS, hwindow] at hp
      exact (hcovers (hown0 hown)).2 p (List.mem_ite_nil_right.mp hp).2
    · obtain rfl := Option.some.inj (hw'.symm.trans hw1)
      have hallows := (hcovers (hown0 hown)).1.allows (by rw [hcfg, h.config]; exact hmax)
      rwa [hcfg, h.config] at hallows

theorem seeded_capped {poolSize : Nat} {udpPub : Bool} {seed : List Op}
    (hmax : 0 ≤ cfg.maxPosition)
    (hseed : Along Session.step Session.Owned (Session.new poolSize udpPub) seed)
    (hids : ∀ op ∈ seed, ∀ id ∈ op.ids, Foreign own id) :
    ∃ w : Desk D, seeded poolSize udpPub cfg seed = some w ∧ w.Capped cfg own := by
  obtain ⟨S, -, hS, hquoting, -⟩ :=
    (Session.Quoting.new (D := D) poolSize udpPub cfg own).run hseed hids
  have hcur := congrFun (MarketMaker.current_new (D := D) cfg)
  refine ⟨⟨S, .new cfg, [], [], 0⟩, by simp [seeded, hS], hquoting, rfl,
    fun s hs => absurd (hcur s) hs, fun _ => ?_⟩
  have hmax := Int64.le_iff_toInt_le.mp hmax
  have hzero : (0 : Int64).toInt = 0 := rfl
  have hbuy := hquoting.no_open (hcur .buy)
  have hsell := hquoting.no_open (hcur .sell)
  refine ⟨?_, ?_⟩
  · show (0 : Int64).toInt + (S.engine.book.openShares own .buy : Int) ≤ cfg.maxPosition.toInt
    omega
  · show -cfg.maxPosition.toInt ≤ (0 : Int64).toInt - S.engine.book.openShares own .sell
    omega

/-- In every run among others who keep off the ids that `placeQuote` issues, and in which no
quote gets the id 0, the position stays within the cap. -/
theorem simulate_capped {poolSize : Nat} {udpPub : Bool} {cfg : MarketMakerConfig}
    {seed : List Op} {ticks : List Tick} (hmax : 0 ≤ cfg.maxPosition)
    (hseed : Along Session.step Session.Owned (Session.new poolSize udpPub) seed)
    (hne : ∀ op ∈ seed ++ ticks.flatMap Tick.ops, ∀ id ∈ op.ids, id ≠ 0)
    (hfair : ∀ w : Desk D, seeded poolSize udpPub cfg seed = some w → Along step Fair w ticks)
    (hnumbers : ∀ w : Desk D, seeded poolSize udpPub cfg seed = some w →
      Along step Numbers w ticks) :
    ∃ w0 w : Desk D, seeded poolSize udpPub cfg seed = some w0 ∧ run step w0 ticks = some w ∧
      ((∀ op ∈ seed ++ ticks.flatMap Tick.ops, ∀ id ∈ op.ids, id ∉ w.issued) →
        Along step (KeepsCap cfg) w0 ticks) := by
  set own := KeptOff Op.ids (seed ++ ticks.flatMap Tick.ops)
  have hforeign : ∀ op ∈ seed ++ ticks.flatMap Tick.ops, ∀ id ∈ op.ids, Foreign own id :=
    KeptOff.foreign hne
  obtain ⟨w0, hw0, hcapped0⟩ : ∃ w : Desk D, seeded poolSize udpPub cfg seed = some w ∧
      w.Capped cfg own :=
    seeded_capped hmax hseed fun op hop => hforeign op (List.mem_append_left _ hop)
  have hticks := along_ids hforeign w0
  have hstep : ∀ (u : Desk D) (tick : Tick), u.Capped cfg own →
      ((u.Fair tick ∧ u.Numbers tick) ∧ ∀ op ∈ tick.ops, ∀ id ∈ op.ids, Foreign own id) →
      ∃ u', u.step tick = some u' ∧ u'.Capped cfg own ∧
        ((∀ id ∈ u'.issued, own id) → (∀ id ∈ u.issued, own id) ∧ u.KeepsCap cfg tick) :=
    fun u tick hu hok => hu.step hmax hok.1.1 hok.1.2 hok.2
  obtain ⟨w, hw, -, hend⟩ :=
    along_of_end hstep hcapped0 (((hfair w0 hw0).and (hnumbers w0 hw0)).and hticks)
  exact ⟨w0, w, hw0, hw, fun hkeep => (hend (KeptOff.of_unused hkeep)).2⟩

section Runs

instance (cfg : MarketMakerConfig) : DecidablePred cfg.Allows :=
  fun _ => inferInstanceAs (Decidable (_ ∧ _))

def capConfig : MarketMakerConfig := { quoteConfig with maxPosition := 5 }

def fullTicks : List Tick :=
  [⟨[], quoteClock⟩, ⟨[.acquire 3 0 5 .sell true, .process 3 1 1], quoteClock⟩,
   ⟨[.acquire 4 0 5 .sell true, .process 3 1 1], quoteClock⟩]

theorem simulate_capped_full :
    ∃ w0 w : Desk ℚ, seeded 8 false capConfig quoteSeed = some w0 ∧ run step w0 fullTicks = some w ∧
      w.maker.netPosition = 5 ∧ Along step (KeepsCap capConfig) w0 fullTicks := by
  have hall : (seeded 8 false capConfig quoteSeed).all (fun w : Desk ℚ =>
      decide (Along step Fair w fullTicks) && decide (Along step Numbers w fullTicks)) = true := by
    decide +kernel
  have hticks (w : Desk ℚ) (hw : seeded 8 false capConfig quoteSeed = some w) :
      Along step Fair w fullTicks ∧ Along step Numbers w fullTicks := by
    simpa using (Option.all_eq_true _ _).mp hall w hw
  have hne : ∀ op ∈ quoteSeed ++ fullTicks.flatMap Tick.ops, ∀ id ∈ op.ids, id ≠ 0 := by
    simp [quoteSeed, fullTicks, Op.ids]
  have hseed : Along Session.step Session.Owned (Session.new 8 false) quoteSeed := by decide +kernel
  have hmax : 0 ≤ capConfig.maxPosition := by decide
  obtain ⟨w0, w, hw0, hw, hcap⟩ := simulate_capped hmax hseed hne
    (fun w hw => (hticks w hw).1) fun w hw => (hticks w hw).2
  have hend : ((seeded 8 false capConfig quoteSeed).bind fun w => run step w fullTicks).map
      (fun w : Desk ℚ => (w.issued, w.maker.netPosition)) =
      some ([50, 51, 52], 5) := by decide +kernel
  rw [hw0, Option.bind_some, hw] at hend
  obtain ⟨hissued, hposition⟩ := Prod.mk.inj (Option.some.inj hend)
  refine ⟨w0, w, hw0, hw, hposition, hcap ?_⟩
  simp [hissued, quoteSeed, fullTicks, Op.ids]

def wrapConfig : MarketMakerConfig := { capConfig with startingId := 18446744073709551615 }

def wrapSeed : List Op :=
  [.acquire 11 1000000 5 .buy false, .process 7 1 1, .acquire 12 2000000 5 .sell false,
   .process 6 1 1]

/-- The second tick moves the quotes and leaves the ask with the id 0 on the book. In the
third someone buys 5 of the second ask, which fills the cap. In the fourth someone buys 5
of the first. -/
def wrapTicks : List Tick :=
  [⟨[], quoteClock⟩, ⟨[.acquire 13 1505000 5 .sell false, .process 3 1 1], quoteClock⟩,
   ⟨[.acquire 14 0 10 .buy true, .process 1 1 1], quoteClock⟩,
   ⟨[.acquire 15 0 5 .buy true, .process 1 1 1], quoteClock⟩]

/-- The fill of the id 0 counts for a maker that tracks no ask. -/
theorem wrapTicks_overshoot :
    0 ≤ wrapConfig.maxPosition ∧ 1 ≤ wrapConfig.startingId ∧
    (∀ op ∈ wrapSeed ++ wrapTicks.flatMap Tick.ops, ∀ id ∈ op.ids, id ≠ 0) ∧
    Along Session.step Session.Owned (Session.new 8 false) wrapSeed ∧
    ∃ w0 w : Desk ℚ, seeded 8 false wrapConfig wrapSeed = some w0 ∧
      Along step Fair w0 wrapTicks ∧ run step w0 wrapTicks = some w ∧
      (∀ op ∈ wrapSeed ++ wrapTicks.flatMap Tick.ops, ∀ id ∈ op.ids, id ∉ w.issued) ∧
      w.maker.netPosition = -10 ∧ ¬ wrapConfig.Allows w.maker.netPosition := by
  refine ⟨by decide, by decide, by simp [wrapSeed, wrapTicks, Op.ids], by decide +kernel, ?_⟩
  have hall : (seeded 8 false wrapConfig wrapSeed).map (fun w : Desk ℚ =>
      (decide (Along step Fair w wrapTicks),
        (run step w wrapTicks).map fun w => (w.issued, w.maker.netPosition))) =
      some (true, some ([18446744073709551615, 0, 1, 2, 3, 4], -10)) := by decide +kernel
  obtain ⟨w0, hw0, heq⟩ := Option.map_eq_some_iff.mp hall
  obtain ⟨hfair, hrun⟩ := Prod.mk.inj heq
  obtain ⟨w, hw, hend⟩ := Option.map_eq_some_iff.mp hrun
  obtain ⟨hissued, hposition⟩ := Prod.mk.inj hend
  refine ⟨w0, w, hw0, of_decide_eq_true hfair, hw, ?_, hposition, ?_⟩
  · simp [hissued, wrapSeed, wrapTicks, Op.ids]
  · rw [hposition]
    decide

end Runs

end Desk
end LobCity
