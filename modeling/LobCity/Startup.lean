import LobCity.Delivery
import LobCity.RiskReport

/-! The server from its start. Before the threads `main` runs its tests and benchmarks: calls of
the pool and the book, messages, a new configuration. Whatever these are, what the threads then
do is one sequential history: the calls of the start, and behind them the messages as they are
handled. -/
namespace LobCity
open Library

namespace Server
variable {w : Server} {c : ServerCall} {calls : List ServerCall} {poolSize : Nat} {cfg : RiskConfig}

def Owned (w : Server) : ServerCall → Prop
  | .call op => Session.Owned ⟨w.gateway.engine, w.hands⟩ op
  | .message _ | .tune _ => True

instance (w : Server) : DecidablePred w.Owned
  | .call op => inferInstanceAs (Decidable (Session.Owned ⟨w.gateway.engine, w.hands⟩ op))
  | .message _ | .tune _ => inferInstanceAs (Decidable True)

/-- A book with a publisher, of which the callers hold some cells. -/
structure Ready (S : Session) : Prop where
  sound : S.Sound
  udpPub : S.engine.udpPub = true

theorem Ready.call {S : Session} (h : Ready S) {op : Op} (hok : S.Owned op) :
    ∃ S', S.step op = some S' ∧ Ready S' := by
  obtain ⟨S', hs, h', -⟩ := h.sound.step hok
  exact ⟨S', hs, h', (Session.step_outlet h.udpPub hs).1⟩

/-- What a message that is not rejected does leaves the callers what they hold. -/
theorem Ready.admitted {e : Engine} {hands : List Addr} (h : Ready ⟨e, hands⟩)
    (m : FixMessage × Clock) :
    ∃ e', OrderEntryGateway.admitted e m = some e' ∧ Ready ⟨e', hands⟩ := by
  unfold OrderEntryGateway.admitted
  dsimp only
  by_cases hD : m.1.msgType = byte 'D'
  · obtain ⟨a, e1, e2, ha, he, h2, -⟩ := h.sound.submit (numericId m.1.clOrdID) m.1.price
      (toQuantity m.1.qty) (if m.1.side = byte '1' then .buy else .sell)
      (decide (m.1.ordType = byte '1')) m.2.time m.2.now
    have hpub1 : e1.udpPub = true := by
      rw [show e1 = _ from (congrArg Prod.snd ha).symm]
      exact h.udpPub
    have hprocess : Session.step ⟨e1, a :: hands⟩ (.process a m.2.time m.2.now) =
        some ⟨e2, (a :: hands).erase a⟩ := by simp [Session.step, he]
    have hpub2 : e2.udpPub = true := (Session.step_outlet hpub1 hprocess).1
    rw [if_pos hD, ha]
    exact ⟨e2, he, h2, hpub2⟩
  by_cases hF : m.1.msgType = byte 'F'
  · have hcancel : Session.Owned ⟨e, hands⟩ (.cancel (numericId m.1.clOrdID) m.2.now) := trivial
    obtain ⟨S', hs, h'⟩ := h.call hcancel
    obtain rfl := Option.some.inj hs
    rw [if_neg hD, if_pos hF]
    exact ⟨_, rfl, h'⟩
  by_cases hG : m.1.msgType = byte 'G'
  · have hmodify : Session.Owned ⟨e, hands⟩ (.modify (numericId m.1.origClOrdID)
        (numericId m.1.clOrdID) m.1.price (toQuantity m.1.qty) m.2.now) := trivial
    obtain ⟨S', hs, h'⟩ := h.call hmodify
    obtain rfl := Option.some.inj hs
    rw [if_neg hD, if_neg hF, if_pos hG]
    exact ⟨_, rfl, h'⟩
  · rw [if_neg hD, if_neg hF, if_neg hG]
    exact ⟨e, rfl, h⟩

theorem ready_step (h : Ready ⟨w.gateway.engine, w.hands⟩) (hok : w.Owned c) :
    ∃ w', w.step c = some w' ∧ Ready ⟨w'.gateway.engine, w'.hands⟩ := by
  cases c with
  | message m =>
    by_cases hr : w.gateway.Rejects m
    · refine ⟨{ w with gateway := ⟨w.gateway.engine, w.gateway.riskAfter m⟩ }, ?_, h⟩
      rw [step, OrderEntryGateway.step_rejected hr]
      rfl
    · obtain ⟨e, he, h'⟩ := h.admitted m
      refine ⟨{ w with gateway := ⟨e, w.gateway.riskAfter m⟩ }, ?_, h'⟩
      rw [step, OrderEntryGateway.step_admitted hr, he]
      rfl
  | call op =>
    obtain ⟨S', hs, h'⟩ := h.call hok
    exact ⟨_, by rw [step, hs]; rfl, h'⟩
  | tune cfg => exact ⟨_, rfl, h⟩

theorem run_ready (hok : Along Server.step Owned (new poolSize true cfg) calls) :
    ∃ w : Server, run Server.step (new poolSize true cfg) calls = some w ∧
      Ready ⟨w.gateway.engine, w.hands⟩ := by
  have hnew : Ready ⟨(new poolSize true cfg).gateway.engine, (new poolSize true cfg).hands⟩ :=
    ⟨Session.new_sound poolSize true, rfl⟩
  let Inv (w : Server) : Prop := Ready ⟨w.gateway.engine, w.hands⟩
  have hstep : ∀ w c, Inv w → w.Owned c → ∃ w', w.step c = some w' ∧ Inv w' :=
    fun _ _ h hop => ready_step h hop
  exact run_invariant hstep hnew hok

theorem run_messages {g : OrderEntryGateway} (hg : g.Publishing) (msgs : List (FixMessage × Clock)) :
    ∃ g', run Server.step ⟨g, []⟩ (msgs.map ServerCall.message) = some ⟨g', []⟩ ∧
      g'.exchange = g.exchange.handleAll msgs := by
  induction msgs generalizing g with
  | nil => exact ⟨g, rfl, rfl⟩
  | cons m msgs ih =>
    obtain ⟨g1, hs, h1, hexchange, -⟩ := hg.step m
    obtain ⟨g', hrun, hlater⟩ := ih h1
    refine ⟨g', ?_, ?_⟩
    · rw [List.map_cons, run, Server.step, hs]
      exact hrun
    · rw [hlater, hexchange]
      rfl

section Main
variable {Size : Nat} [NeZero Size] {start : Server} {evs : List SystemEvent} {w : System Size}
  {D : Type} [DoubleCasts D]

/-- Whatever `main` calls before it starts the threads, and however these then interleave: the
book and the risk engine are those of one sequential run, the calls of the start and then the
messages that have been handled. These are the first of the messages received, in their order
and none twice; and the risk report adds up to the verdicts of that run. -/
theorem main_sequential (hok : Along Server.step Owned (new poolSize true cfg) calls)
    (hstart : run Server.step (new poolSize true cfg) calls = some start) (hhands : start.hands = [])
    (hrun : run System.step (System.new start.gateway : System Size) evs = some w) :
    let history := calls ++ w.handled.map ServerCall.message
    (∃ g, run Server.step (new poolSize true cfg) history = some ⟨g, []⟩ ∧
      w.gateway.engine.book = g.engine.book ∧ w.gateway.risk = g.risk) ∧
      (w.handled.map fun m => m.1.fields) <+: (receivedFrom w.reads).map ParsedFixMessage.fields ∧
      (((new poolSize true cfg).verdicts history).length < 2 ^ 64 →
        (w.gateway.risk.stats.printReport : RiskReport D).AddsUp
          ((new poolSize true cfg).verdicts history)) := by
  intro history
  obtain ⟨start', hstart', hready⟩ := run_ready hok
  obtain rfl := Option.some.inj (hstart.symm.trans hstart')
  obtain ⟨g0, hands⟩ := start
  obtain rfl : hands = [] := hhands
  have hg : g0.Publishing := ⟨hready.sound, hready.udpPub⟩
  have hdelivers := System.run_delivers hg hrun
  obtain ⟨g, hmessages, hexchange⟩ := run_messages hg w.handled
  have hsequential : run Server.step (new poolSize true cfg) history = some ⟨g, []⟩ := by
    rw [run_append, hstart]
    exact hmessages
  have hsame : w.gateway.exchange = g.exchange := hdelivers.exchange.trans hexchange.symm
  have hrisk : w.gateway.risk = g.risk := congrArg Exchange.risk hsame
  refine ⟨⟨g, hsequential, congrArg Exchange.book hsame, hrisk⟩, hdelivers.fields_prefix,
    fun hlt => ?_⟩
  have htallies := run_tallies RiskStats.new_tallies hsequential
  rw [hrisk]
  exact htallies.addsUp hlt

def seedCalls : List ServerCall :=
  [.call (.acquire 8002 10100 100 .sell false), .call (.process 3 1 1),
    .message ({ msgType := byte 'D', side := byte '1', ordType := byte '2', qty := 5, price := 9900,
                clOrdID := [byte '9'], origClOrdID := [] }, ⟨1, 1, 1⟩)]

theorem main_sequential_seeded :
    ∃ (start : Server) (w : System 131072), run Server.step (new 4 true {}) seedCalls = some start ∧
      run System.step (System.new start.gateway) System.twoClients = some w ∧ w.handled.length = 2 ∧
      (w.gateway.risk.stats.printReport : RiskReport ℚ).AddsUp
        ((new 4 true {}).verdicts (seedCalls ++ w.handled.map ServerCall.message)) ∧
      (new 4 true {}).verdicts (seedCalls ++ w.handled.map ServerCall.message) =
        [.none, .none, .none] := by
  have hok : Along Server.step Owned (new 4 true {}) seedCalls := by decide +kernel
  have hend : ((run Server.step (new 4 true {}) seedCalls).bind fun start =>
      (run System.step (System.new start.gateway : System 131072) System.twoClients).map fun w =>
        (start.hands, w.handled.length,
          (new 4 true {}).verdicts (seedCalls ++ w.handled.map ServerCall.message))) =
      some ([], 2, [.none, .none, .none]) := by decide +kernel
  obtain ⟨start, hstart, hthreads⟩ := Option.bind_eq_some_iff.mp hend
  obtain ⟨w, hw, hvalues⟩ := Option.map_eq_some_iff.mp hthreads
  obtain ⟨hhands, hrest⟩ := Prod.mk.inj hvalues
  obtain ⟨hlength, hverdicts⟩ := Prod.mk.inj hrest
  obtain ⟨-, -, hadds⟩ := main_sequential (D := ℚ) hok hstart hhands hw
  exact ⟨start, w, hstart, hw, hlength, hadds (by rw [hverdicts]; decide), hverdicts⟩

end Main
end Server
end LobCity
