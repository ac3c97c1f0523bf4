import LobCity.Backtests

/-! The loss limit in backtests. A snapshot is taken whether or not it trips the kill switch, and
the loop ends with a killed market maker: so only the last snapshot can be beyond the limit, and
the market maker is killed exactly if it is. -/
namespace LobCity
open Library
open Double (ofInt64)

def PnlSnapshot.Breaks {D : Type} [Double D] (cfg : MarketMakerConfig) (snap : PnlSnapshot D) : Prop :=
  Double.lt (snap.totalPnl * ofInt64 10000) (ofInt64 (-cfg.maxLoss)) = true

namespace MarketMaker
variable {D : Type} [Double D] {m m' : MarketMaker D} {e e' : Engine} {start : Nat}
  {clock : TickClock} {cfg : MarketMakerConfig}

theorem loses_iff (m : MarketMaker D) (e : Engine) (start : Nat) :
    m.Loses e start ↔ detects e = true ∧ (m.snapshot e start).Breaks m.config := Iff.rfl

/-- Without both sides the tick is only counted. -/
theorem onTick_undetected (hd : detects e = false) :
    m.onTick e start clock = some ({ m with tickCount := m.tickCount + 1 }, e) := by
  have hprep : m.prepare e start clock =
      (({ m with tickCount := m.tickCount + 1 }, e), none, none) := by
    rw [prepare, hd]
    exact if_neg Bool.false_ne_true
  rw [onTick, hprep]
  rfl

/-- The snapshots so far: the kill switch has tripped exactly if one of them is beyond the limit,
and none in front of the last is. -/
structure Limited (cfg : MarketMakerConfig) (m : MarketMaker D) : Prop where
  killed : m.killed = true ↔ ∃ snap ∈ m.pnlHistory, snap.Breaks cfg
  before : ∀ snap ∈ m.pnlHistory.dropLast, ¬ snap.Breaks cfg

theorem new_limited (cfg : MarketMakerConfig) : (MarketMaker.new cfg : MarketMaker D).Limited cfg := by
  refine ⟨⟨fun h => absurd h Bool.false_ne_true, ?_⟩, fun snap hsnap => absurd hsnap List.not_mem_nil⟩
  rintro ⟨snap, hsnap, -⟩
  exact absurd hsnap List.not_mem_nil

theorem Limited.onTick (h : m.Limited m.config) (hlive : m.killed = false)
    (hS : Session.Sound ⟨e, []⟩) (htick : m.onTick e start clock = some (m', e')) :
    m'.Limited m.config := by
  have hnone : ∀ snap ∈ m.pnlHistory, ¬ snap.Breaks m.config := fun snap hsnap hbreaks =>
    Bool.false_ne_true (hlive.symm.trans (h.killed.mpr ⟨snap, hsnap, hbreaks⟩))
  by_cases hd : detects e = true
  · obtain ⟨m1, e1, -, -, -, -, htick1, -, -, -, -, hkilled, -⟩ := m.onTick_ticked hS start clock
    obtain ⟨rfl, rfl⟩ := Prod.mk.inj (Option.some.inj (htick1.symm.trans htick))
    have hhistory : m1.pnlHistory = m.pnlHistory ++ [m.snapshot e start] := by
      rw [(onTick_tallied htick).pnlHistory, if_pos hd]
    have hbreaks : m1.killed = true ↔ (m.snapshot e start).Breaks m.config := by
      have hstays := hkilled
      rw [loses_iff] at hstays
      constructor
      · intro hk
        by_contra hno
        have hlives := hstays.mpr ⟨hlive, fun hl => hno hl.2⟩
        exact Bool.false_ne_true (hlives.symm.trans hk)
      · intro hb
        by_contra hk
        exact (hstays.mp (Bool.eq_false_iff.mpr hk)).2 ⟨hd, hb⟩
    refine ⟨hbreaks.trans ⟨fun hb => ?_, ?_⟩, ?_⟩
    · exact ⟨_, by rw [hhistory]; exact List.mem_append_right _ List.mem_cons_self, hb⟩
    · rintro ⟨snap, hsnap, hb⟩
      rw [hhistory] at hsnap
      cases List.mem_append.mp hsnap with
      | inl hold => exact absurd hb (hnone snap hold)
      | inr hlast => exact List.mem_singleton.mp hlast ▸ hb
    · rw [hhistory, List.dropLast_concat]
      exact hnone
  · have hstay : m.onTick e start clock = some ({ m with tickCount := m.tickCount + 1 }, e) :=
      onTick_undetected (Bool.eq_false_iff.mpr hd)
    obtain ⟨rfl, -⟩ := Prod.mk.inj (Option.some.inj (hstay.symm.trans htick))
    exact ⟨h.killed, h.before⟩

end MarketMaker

namespace Simulator
variable {D : Type} [DoubleCasts D] {sc : SimConfig D} {mc : MarketMakerConfig}
  {inputs : SimInputs D}

theorem shutdown_mm (f : Floor D) (clock : TickClock) :
    (f.shutdown clock).mm = (f.mm.cancelExistingQuotes f.engine clock).1 := rfl

/-- The loss limit is checked in every tick: in a run whose ids and sizes fit the market maker
does not go on behind a snapshot that is beyond it, and it is not killed otherwise. -/
theorem runWith_lossLimit (h : Fits sc mc inputs) (poolSize : Nat) :
    ∃ f, (new sc mc).runWith poolSize inputs = some f ∧
      (f.mm.killed = true ↔ ∃ snap ∈ f.mm.pnlHistory, snap.Breaks mc) ∧
      ∀ snap ∈ f.mm.pnlHistory.dropLast, ¬ snap.Breaks mc := by
  obtain ⟨f, hrun, hlimited, hsteady, -⟩ :=
    h.runWith poolSize (fun f => f.mm.Limited mc) (fun f _ _ hmm => hmm ▸ MarketMaker.new_limited mc)
      fun f f' k tick hsteady hsize hturn hlive hlimited => by
        obtain ⟨sim, e, mm, e', hf, hacts, htick, -, -⟩ := hsteady.turn hsize
        obtain rfl := Option.some.inj (hturn.symm.trans hf)
        have hS := (hacts.reaches.regular hsteady.regular).1.toSound
        have hcfg := hsteady.config
        subst hcfg
        exact hlimited.onTick hlive hS htick
  have htallies := f.mm.cancelExistingQuotes_tallies f.engine inputs.shutdown
  have hkilled := (f.mm.cancelExistingQuotes_switches f.engine inputs.shutdown).2
  rw [← shutdown_mm] at htallies hkilled
  refine ⟨_, hrun, ?_, ?_⟩
  · rw [hkilled, htallies.pnlHistory]
    exact hlimited.killed
  · rw [htallies.pnlHistory]
    exact hlimited.before

/-- The limit is one dollar; the loss is made in the third of four ticks. -/
def oneDollar : MarketMakerConfig := { smallCap with maxLoss := 10000 }

theorem runWith_lossLimit_oneDollar :
    ∃ f, (new oneLevel oneDollar).runWith 16 fourTicks = some f ∧
      f.mm.pnlHistory.map PnlSnapshot.totalPnl = [0, 4, -2939 / 25] ∧ f.mm.killed = true ∧
      ∀ snap ∈ f.mm.pnlHistory.dropLast, ¬ snap.Breaks oneDollar := by
  have hfits : Fits oneLevel oneDollar fourTicks :=
    ⟨by decide +kernel, by decide +kernel, by decide +kernel, by decide +kernel⟩
  have hend : ((new oneLevel oneDollar).runWith 16 fourTicks).map
      (fun f => (f.mm.pnlHistory.map PnlSnapshot.totalPnl, f.mm.killed)) =
      some ([0, 4, -2939 / 25], true) := by decide +kernel
  obtain ⟨f, hrun, -, hbefore⟩ := runWith_lossLimit hfits 16
  rw [hrun] at hend
  obtain ⟨hhistory, hkilled⟩ := Prod.mk.inj (Option.some.inj hend)
  exact ⟨f, hrun, hhistory, hkilled, hbefore⟩

end Simulator
end LobCity
