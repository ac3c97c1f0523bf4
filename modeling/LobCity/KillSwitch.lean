import LobCity.Requotes
import LobCity.FillRuns

/-! The market maker's orders and its kill switch, over ticks and calls of others in any
order. It finds its orders by two remembered ids, of which 0 means that there is none. -/
namespace LobCity
open Library

inductive VenueEvent where
  | call (op : Op)
  | tick (tradeLogStartIdx : Nat) (clock : TickClock)
deriving DecidableEq, Repr

def VenueEvent.ids : VenueEvent → List OrderId
  | .call op => op.ids
  | .tick .. => []

structure Venue (D : Type) where
  session : Session
  maker : MarketMaker D
  /-- the ids given out by `placeQuote` -/
  issued : List OrderId

namespace Venue
variable {D : Type}

/-- The maker's resting orders are the ones it tracks, at the prices it tracks. -/
structure NoStrays (v : Venue D) : Prop where
  tracked : ∀ s, ∀ r ∈ v.session.engine.book.side s, r.id ∈ v.issued →
    r.id = v.maker.current s ∧ r.price = v.maker.currentPx s
  unique : ∀ s, ∀ r ∈ v.session.engine.book.side s, ∀ r' ∈ v.session.engine.book.side s,
    r.id ∈ v.issued → r'.id ∈ v.issued → r = r'

/-- Killed, without orders, and still at these ids and at this position. -/
structure Stopped (issued : List OrderId) (netPosition : Int64) (v : Venue D) : Prop where
  killed : v.maker.killed = true
  resting : ∀ s, ∀ r ∈ v.session.engine.book.side s, r.id ∉ v.issued
  issued : v.issued = issued
  netPosition : v.maker.netPosition = netPosition

/-- The venue between two events. `own` are the ids that the others keep off. -/
structure Tidy (own : OrderId → Prop) (v : Venue D) : Prop where
  quoting : v.session.Quoting own v.maker
  retired : v.maker.killed = true → ∀ s, v.maker.current s = 0

section Tidy
variable {own : OrderId → Prop} {v : Venue D}

theorem Tidy.noStrays (h : v.Tidy own) (hown : ∀ id ∈ v.issued, own id) : v.NoStrays where
  tracked s r hr hid := ⟨(h.quoting.shared.quoted.current s r hr (hown _ hid)).1,
    h.quoting.priced s r hr (hown _ hid)⟩
  unique _ _ hr _ hr' hid hid' := h.quoting.unique hr hr' (hown _ hid) (hown _ hid')

theorem Tidy.stopped (h : v.Tidy own) (hown : ∀ id ∈ v.issued, own id)
    (hk : v.maker.killed = true) : v.Stopped v.issued v.maker.netPosition where
  killed := hk
  resting s _ hr hid := h.quoting.shared.quoted.no_own (h.retired hk s) hr (hown _ hid)
  issued := rfl
  netPosition := rfl

theorem idsBetween_self (id : OrderId) : Desk.idsBetween id id = [] := by
  have hzero : (id - id).toNat = 0 := by rw [UInt64.sub_self]; rfl
  rw [Desk.idsBetween, hzero]
  rfl

end Tidy

variable [Double D]

def new (poolSize : Nat) (udpPub : Bool) (cfg : MarketMakerConfig) : Venue D :=
  ⟨Session.new poolSize udpPub, .new cfg, []⟩

def step (v : Venue D) : VenueEvent → Option (Venue D)
  | .call op => (v.session.step op).map fun S => { v with session := S }
  | .tick tradeLogStartIdx clock =>
    (v.maker.onTick v.session.engine tradeLogStartIdx clock).map fun (maker, engine) =>
      ⟨{ v.session with engine }, maker,
        v.issued ++ Desk.idsBetween v.maker.nextOrderId maker.nextOrderId⟩

def Fair (v : Venue D) : VenueEvent → Prop
  | .call op => v.session.Owned op
  | .tick .. => True

def Numbers (v : Venue D) : VenueEvent → Prop
  | .call _ => True
  | .tick start clock => v.maker.Numbers v.session.engine start clock

instance (v : Venue D) : DecidablePred v.Fair
  | .call op => inferInstanceAs (Decidable (v.session.Owned op))
  | .tick .. => inferInstanceAs (Decidable True)

instance (v : Venue D) : DecidablePred v.Numbers
  | .call _ => inferInstanceAs (Decidable True)
  | .tick start clock => inferInstanceAs (Decidable (v.maker.Numbers v.session.engine start clock))

structure Allowed (own : OrderId → Prop) (v : Venue D) (event : VenueEvent) : Prop where
  fair : v.Fair event
  numbers : v.Numbers event
  foreign : ∀ id ∈ event.ids, Foreign own id

section Events
variable {own : OrderId → Prop} {v : Venue D} {event : VenueEvent}

/-- No trade names the quotes of a maker that has none. -/
theorem Tidy.scanned_netPosition (h : v.Tidy own) (hk : v.maker.killed = true) (start : Nat) :
    (v.maker.scanned v.session.engine start).netPosition = v.maker.netPosition := by
  have hpos := v.maker.scanned_netPosition v.session.engine start
  have hnone : ∀ t ∈ v.session.engine.tradeLog.drop start,
      ¬ t.buyOrderId = v.maker.current .buy ∧ ¬ t.sellOrderId = v.maker.current .sell := by
    intro t ht
    rw [h.retired hk .buy, h.retired hk .sell]
    exact h.quoting.logged t (List.mem_of_mem_drop ht)
  rw [netTraded_zero hnone] at hpos
  exact hpos.trans (Int64.add_zero _)

variable [DecidablePred own]

/-- The step lemma: no event leaves a stray order, and a killed maker does nothing more. -/
theorem Tidy.step (h : v.Tidy own) (hok : v.Allowed own event) :
    ∃ v', v.step event = some v' ∧ v'.Tidy own ∧
      (v.maker.killed = true → v'.maker.killed = true ∧ v'.issued = v.issued ∧
        v'.maker.netPosition = v.maker.netPosition) ∧
      ∀ start clock, event = .tick start clock → v.maker.Loses v.session.engine start →
        v'.maker.killed = true ∧ v'.issued = v.issued := by
  cases event with
  | call op =>
    obtain ⟨S, -, hs, hquoting, -⟩ := h.quoting.step hok.fair hok.foreign
    exact ⟨{ v with session := S }, by simp [Venue.step, hs], ⟨hquoting, h.retired⟩,
      fun hk => ⟨hk, rfl, rfl⟩, by simp⟩
  | tick start clock =>
    obtain ⟨m', e', htick, hquoting, -, hpos, hcase⟩ :=
      MarketMaker.onTick_cases h.quoting hok.numbers
    have hkeep (hn : m'.nextOrderId = v.maker.nextOrderId) :
        v.issued ++ Desk.idsBetween v.maker.nextOrderId m'.nextOrderId = v.issued := by
      rw [hn, idsBetween_self, List.append_nil]
    have hstill (hk : v.maker.killed = true) : m'.netPosition = v.maker.netPosition := by
      rw [hpos]
      split_ifs
      · exact h.scanned_netPosition hk start
      · rfl
    refine ⟨_, by simp only [Venue.step, htick, Option.map_some]; rfl, ⟨hquoting, fun hk s => ?_⟩,
      fun hk => ?_, fun start' clock' hevent hl => ?_⟩
    · rcases hcase with ⟨-, hsame, hcur, -⟩ | ⟨-, hzero, -⟩ | ⟨-, -, halive, -⟩
      · show m'.current s = 0
        rw [hcur]
        exact h.retired (hsame ▸ hk) s
      · exact hzero s
      · exact absurd (halive.symm.trans hk) (by decide)
    · rcases hcase with ⟨-, hsame, -, hn, -⟩ | ⟨hk', -, hn⟩ | ⟨-, hlive, -⟩
      · exact ⟨hsame.trans hk, hkeep hn, hstill hk⟩
      · exact ⟨hk', hkeep hn, hstill hk⟩
      · exact absurd (hlive.symm.trans hk) (by decide)
    · obtain ⟨rfl, rfl⟩ := VenueEvent.tick.inj hevent
      rcases hcase with ⟨hstay, hsame, -, hn, -⟩ | ⟨hk', -, hn⟩ | ⟨hnot, -⟩
      · exact ⟨hsame.trans (hstay hl), hkeep hn⟩
      · exact ⟨hk', hkeep hn⟩
      · exact absurd hl hnot

/-- A killed maker stays as it is. -/
theorem Tidy.run_killed (h : v.Tidy own) (hk : v.maker.killed = true) {events : List VenueEvent}
    (hok : Along Venue.step (Allowed own) v events) {w : Venue D}
    (hrun : run Venue.step v events = some w) :
    w.maker.killed = true ∧ w.issued = v.issued ∧ w.maker.netPosition = v.maker.netPosition := by
  have hstep : ∀ (u : Venue D) event u',
      (u.Tidy own ∧ u.maker.killed = true ∧ u.issued = v.issued ∧
        u.maker.netPosition = v.maker.netPosition) → u.Allowed own event →
      u.step event = some u' → u'.Tidy own ∧ u'.maker.killed = true ∧ u'.issued = v.issued ∧
        u'.maker.netPosition = v.maker.netPosition := by
    rintro u event u' ⟨hu, hk, hi, hp⟩ hok hs
    obtain ⟨u1, hs1, h1, hstill, -⟩ := hu.step hok
    obtain rfl := Option.some.inj (hs.symm.trans hs1)
    obtain ⟨hk', hi', hp'⟩ := hstill hk
    exact ⟨h1, hk', hi'.trans hi, hp'.trans hp⟩
  exact (run_kept_along hstep ⟨h, hk, rfl, rfl⟩ hok hrun).2

end Events

/-- In every run among others who keep off the ids that `placeQuote` issues, and in which no
quote gets the id 0, the maker's orders are the quotes that it tracks; and once a tick finds
the loss, the maker has no order and does nothing any more. -/
theorem run_tidy {poolSize : Nat} {udpPub : Bool} {cfg : MarketMakerConfig}
    {events : List VenueEvent} (hne : ∀ event ∈ events, ∀ id ∈ event.ids, id ≠ 0)
    (hfair : Along step Fair (new poolSize udpPub cfg : Venue D) events)
    (hnumbers : Along step Numbers (new poolSize udpPub cfg : Venue D) events) :
    ∃ w : Venue D, run step (new poolSize udpPub cfg) events = some w ∧
      ((∀ event ∈ events, ∀ id ∈ event.ids, id ∉ w.issued) →
        w.NoStrays ∧ ∀ before start clock after (u v : Venue D),
          events = before ++ .tick start clock :: after →
          run step (new poolSize udpPub cfg) before = some u →
          u.maker.Loses u.session.engine start → u.step (.tick start clock) = some v →
          w.Stopped u.issued v.maker.netPosition) := by
  set own := KeptOff VenueEvent.ids events
  have hforeign : ∀ event ∈ events, ∀ id ∈ event.ids, Foreign own id := KeptOff.foreign hne
  have hnew : (new poolSize udpPub cfg : Venue D).Tidy own :=
    ⟨.new poolSize udpPub cfg own, fun hk => absurd hk Bool.false_ne_true⟩
  have hok : Along step (Allowed own) (new poolSize udpPub cfg : Venue D) events :=
    ((hfair.and hnumbers).and (along_of_forall hforeign)).mono
      fun u event h => ⟨h.1.1, h.1.2, h.2⟩
  have hstep : ∀ (u : Venue D) (event : VenueEvent), u.Tidy own → u.Allowed own event →
      ∃ u', u.step event = some u' ∧ u'.Tidy own := by
    intro u event hu hok
    obtain ⟨u', hs, hu', -⟩ := hu.step hok
    exact ⟨u', hs, hu'⟩
  obtain ⟨w, hw, htidy⟩ := run_invariant hstep hnew hok
  refine ⟨w, hw, fun hkeep => ?_⟩
  have hissued : ∀ id ∈ w.issued, own id := KeptOff.of_unused hkeep
  refine ⟨htidy.noStrays hissued, ?_⟩
  intro before start clock after u v hevents hu hl hv
  rw [hevents] at hok hw
  obtain ⟨hbefore, hlater⟩ := along_append.mp hok
  obtain ⟨u', hu', htidyu⟩ := run_invariant hstep hnew hbefore
  obtain rfl := Option.some.inj (hu.symm.trans hu')
  obtain ⟨htick, hafter⟩ := hlater u hu
  obtain ⟨v', hv', htidyv, -, hkill⟩ := htidyu.step htick
  obtain rfl := Option.some.inj (hv.symm.trans hv')
  obtain ⟨hk, hi⟩ := hkill start clock rfl hl
  have hrest : run step v after = some w := by
    rw [run_append, hu, Option.bind_some, run, hv, Option.bind_some] at hw
    exact hw
  obtain ⟨hkw, hiw, hpw⟩ := htidyv.run_killed hk (hafter v hv) hrest
  have hstopped := htidy.stopped hissued hkw
  rwa [hiw, hi, hpw] at hstopped

section Runs

instance (m : MarketMaker ℚ) (e : Engine) (start : Nat) : Decidable (m.Loses e start) :=
  inferInstanceAs (Decidable (_ = true ∧ _ = true))

def lossConfig : MarketMakerConfig := { Desk.quoteConfig with maxLoss := 0 }

def soldEvents : List VenueEvent := Desk.quoteSeed.map .call ++
  [.tick 0 Desk.quoteClock, .call (.acquire 3 0 5 .sell true), .call (.process 3 1 1)]

def bidEvents : List VenueEvent :=
  [.call (.acquire 4 1900000 5 .buy false), .call (.process 4 1 1), .tick 0 Desk.quoteClock]

theorem run_tidy_sold :
    ∃ w : Venue ℚ, run step (new 8 false lossConfig)
        (soldEvents ++ .tick 0 Desk.quoteClock :: bidEvents) = some w ∧
      w.NoStrays ∧ w.Stopped [50, 51] 5 := by
  have hne : ∀ event ∈ soldEvents ++ .tick 0 Desk.quoteClock :: bidEvents, ∀ id ∈ event.ids,
      id ≠ 0 := by
    simp [soldEvents, bidEvents, Desk.quoteSeed, VenueEvent.ids, Op.ids]
  obtain ⟨w, hw, htidy⟩ := @run_tidy ℚ _ 8 false lossConfig
    (soldEvents ++ .tick 0 Desk.quoteClock :: bidEvents) hne (by decide +kernel) (by decide +kernel)
  have hend : (run step (new 8 false lossConfig)
      (soldEvents ++ .tick 0 Desk.quoteClock :: bidEvents)).map (fun w : Venue ℚ => w.issued) =
      some [50, 51] := by decide +kernel
  rw [hw] at hend
  have hissued : w.issued = [50, 51] := Option.some.inj hend
  obtain ⟨hstrays, hkill⟩ := htidy (by
    simp [hissued, soldEvents, bidEvents, Desk.quoteSeed, VenueEvent.ids, Op.ids])
  refine ⟨w, hw, hstrays, ?_⟩
  have hbefore : (run step (new 8 false lossConfig) soldEvents).map (fun u : Venue ℚ =>
      (u.issued, decide (u.maker.Loses u.session.engine 0),
        (u.step (.tick 0 Desk.quoteClock)).map fun v => v.maker.netPosition)) =
      some ([50, 51], true, some 5) := by decide +kernel
  obtain ⟨u, hu, heq⟩ := Option.map_eq_some_iff.mp hbefore
  obtain ⟨hids, hrest⟩ := Prod.mk.inj heq
  obtain ⟨hl, htick⟩ := Prod.mk.inj hrest
  obtain ⟨v, hv, hpos⟩ := Option.map_eq_some_iff.mp htick
  have hstopped := hkill soldEvents 0 Desk.quoteClock bidEvents u v rfl hu (of_decide_eq_true hl) hv
  rwa [hids, hpos] at hstopped

def wrapConfig : MarketMakerConfig := { Desk.quoteConfig with startingId := 18446744073709551615 }

/-- Someone bids at 149.50 dollars between the two ticks, and the quotes move. -/
def wrapEvents : List VenueEvent :=
  [.call (.acquire 11 1000000 5 .buy false), .call (.process 7 1 1),
   .call (.acquire 12 2000000 5 .sell false), .call (.process 6 1 1), .tick 0 Desk.quoteClock,
   .call (.acquire 13 1495000 5 .buy false), .call (.process 3 1 1), .tick 0 Desk.quoteClock]

/-- The ask with the id 0 is not withdrawn: the maker has two asks. -/
theorem wrapEvents_stray :
    1 ≤ wrapConfig.startingId ∧ (∀ event ∈ wrapEvents, ∀ id ∈ event.ids, id ≠ 0) ∧
    Along step Fair (new 8 false wrapConfig : Venue ℚ) wrapEvents ∧
    ∃ w : Venue ℚ, run step (new 8 false wrapConfig) wrapEvents = some w ∧
      (∀ event ∈ wrapEvents, ∀ id ∈ event.ids, id ∉ w.issued) ∧
      w.issued = [18446744073709551615, 0, 1, 2] ∧ w.maker.currentAskId = 2 ∧
      (w.session.engine.book.side .sell).map Resting.id = [0, 2, 12] ∧ ¬ w.NoStrays := by
  refine ⟨by decide, by simp [wrapEvents, VenueEvent.ids, Op.ids], by decide +kernel, ?_⟩
  have hend : (run step (new 8 false wrapConfig) wrapEvents).map (fun w : Venue ℚ =>
      (w.issued, w.maker.currentAskId, (w.session.engine.book.side .sell).map Resting.id)) =
      some ([18446744073709551615, 0, 1, 2], 2, [0, 2, 12]) := by decide +kernel
  obtain ⟨w, hw, heq⟩ := Option.map_eq_some_iff.mp hend
  obtain ⟨hissued, hrest⟩ := Prod.mk.inj heq
  obtain ⟨hask, hids⟩ := Prod.mk.inj hrest
  refine ⟨w, hw, by simp [hissued, wrapEvents, VenueEvent.ids, Op.ids], hissued, hask, hids,
    fun hstrays => ?_⟩
  have hmem : (0 : OrderId) ∈ (w.session.engine.book.side .sell).map Resting.id := by simp [hids]
  obtain ⟨r, hr, hid⟩ := List.mem_map.mp hmem
  have htracked := (hstrays.tracked .sell r hr (by simp [hissued, hid])).1
  rw [hid] at htracked
  exact absurd (htracked.trans hask) (by decide)

end Runs

end Venue
end LobCity
