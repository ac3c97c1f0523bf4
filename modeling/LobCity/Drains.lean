import LobCity.Delivery
import LobCity.CatchUp

/-! The spinning threads do not lock each other out. Spins apart, a step uses up some of the
work that is left; while there is any, one of the threads can take such a step; and when
there is none every received message is handled and every snapshot sent. -/
namespace LobCity
open Library
variable {Size : Nat} [NeZero Size]

/-- What the network thread has left to do: seven units for every byte that it has not
framed, and some for the message that it has in hand. -/
def Pipeline.networkWork (p : Pipeline Size) : Nat :=
  match p.network with
  | .reading => 0
  | .framing => 7 * p.remaining.length + 1
  | .pushing .. => 7 * p.remaining.length + 7
  | .erasing _ => 7 * p.remaining.length + 2

def Pipeline.matchingWork (p : Pipeline Size) : Nat :=
  3 * p.msg.toList.length + 4 * p.orderQueue.queued.length

theorem RingBuffer.length_pop {T : Type} {rb : RingBuffer T Size} (h : rb.queued ≠ []) :
    rb.queued.length = rb.pop.2.queued.length + 1 := by
  have hqueued : rb.queued = rb.pop.1.toList ++ rb.pop.2.queued := queued_pop rfl
  cases hx : rb.pop.1 with
  | none => exact absurd ((pop_none_iff rb).mp hx) h
  | some x =>
    rw [hx] at hqueued
    exact congrArg List.length hqueued

theorem RingBuffer.length_pushAll_le {T : Type} (rb : RingBuffer T Size) (item : Option T) :
    (rb.pushAll item.toList).queued.length ≤ rb.queued.length + 1 := by
  cases rb.queued_pushAll item with
  | inl h =>
    have hone := Option.length_toList_le (o := item)
    rw [h, List.length_append]
    omega
  | inr h =>
    rw [h.1]
    exact Nat.le_succ _

namespace System
variable {w w' : System Size} {g : OrderEntryGateway} {ev : SystemEvent}

def work (w : System Size) : Nat :=
  w.recorded.pipeline.networkWork + w.recorded.pipeline.matchingWork +
    (w.bbo.toList.length + 2 * w.buffer.queued.length)

/-- Not a read, and no turn of a loop that waits for another thread: a `push` that finds the
queue full, a `pop` that finds nothing. -/
def Advances (w : System Size) : SystemEvent → Prop
  | .pipeline (.read _) => False
  | .pipeline .network =>
    match w.recorded.pipeline.network with
    | .pushing parsedMsg _ => (w.recorded.pipeline.orderQueue.push parsedMsg).1 = true
    | _ => True
  | .pipeline .pop => w.recorded.pipeline.orderQueue.queued ≠ []
  | .pipeline (.handle ..) | .publishBbo => True
  | .popBbo => w.buffer.queued ≠ []

structure Idle (w : System Size) : Prop where
  network : w.recorded.pipeline.network = .reading
  msg : w.recorded.pipeline.msg = none
  orderQueue : w.recorded.pipeline.orderQueue.queued = []
  bbo : w.bbo = none
  buffer : w.buffer.queued = []

theorem work_of_pipeline (hbbo : w'.bbo = w.bbo)
    (hlt : w'.recorded.pipeline.networkWork + w'.recorded.pipeline.matchingWork +
        2 * w'.buffer.queued.length <
      w.recorded.pipeline.networkWork + w.recorded.pipeline.matchingWork +
        2 * w.buffer.queued.length) : w'.work < w.work := by
  unfold work
  rw [hbbo]
  omega

theorem networkStep_work {p p' : Pipeline Size} (hs : p.networkStep = some p')
    (ha : ∀ parsedMsg msgLen, p.network = .pushing parsedMsg msgLen →
      (p.orderQueue.push parsedMsg).1 = true) :
    p'.networkWork + p'.matchingWork < p.networkWork + p.matchingWork ∧ p'.gateway = p.gateway := by
  obtain ⟨a, network, q, msg, g⟩ := p
  cases network with
  | reading => simp [Pipeline.networkStep] at hs
  | framing =>
    cases hlen : a.msgLen? with
    | none =>
      have hparse : (⟨a, .framing, q, msg, g⟩ : Pipeline Size).parse? = none := by
        rw [Pipeline.parse?, hlen]
        rfl
      simp only [Pipeline.networkStep, hparse] at hs
      cases hs
      refine ⟨?_, rfl⟩
      simp only [Pipeline.networkWork, Pipeline.matchingWork]
      omega
    | some n =>
      obtain ⟨hpos, hle⟩ := Accumulator.msgLen?_le hlen
      have hbytes : (a.content.drop n).length + n = a.content.length := by
        rw [List.length_drop, a.length_content]
        omega
      cases hframe : parseFixMessage (a.message n) with
      | mk ok parsedMsg =>
        have hparse : (⟨a, .framing, q, msg, g⟩ : Pipeline Size).parse? = some (n, ok, parsedMsg) := by
          simp [Pipeline.parse?, hlen, hframe]
        cases ok with
        | false =>
          simp only [Pipeline.networkStep, hparse] at hs
          cases hs
          refine ⟨?_, rfl⟩
          simp only [Pipeline.networkWork, Pipeline.remaining, Pipeline.matchingWork]
          omega
        | true =>
          simp only [Pipeline.networkStep, hparse] at hs
          cases hs
          refine ⟨?_, rfl⟩
          simp only [Pipeline.networkWork, Pipeline.remaining, Pipeline.matchingWork]
          omega
  | pushing parsedMsg msgLen =>
    have hpushed := ha parsedMsg msgLen rfl
    obtain ⟨⟨pushed, q'⟩, hpush⟩ : ∃ x, q.push parsedMsg = x := ⟨_, rfl⟩
    dsimp only at hpushed
    rw [hpush] at hpushed
    obtain rfl : pushed = true := hpushed
    simp only [Pipeline.networkStep, hpush] at hs
    cases hs
    cases RingBuffer.queued_push hpush with
    | inr h => exact absurd h.1 (by decide)
    | inl h =>
      have hqueued : q'.queued.length = q.queued.length + 1 := by
        rw [h.2, List.length_append, List.length_singleton]
      refine ⟨?_, rfl⟩
      simp only [Pipeline.networkWork, Pipeline.remaining, Pipeline.matchingWork, hqueued]
      omega
  | erasing msgLen =>
    cases hs
    refine ⟨?_, rfl⟩
    simp only [Pipeline.networkWork, Pipeline.remaining, Pipeline.matchingWork,
      Accumulator.content_erase]
    omega

/-- The step lemma: an advance uses up work. -/
theorem Delivers.work_lt (h : w.Delivers g) (ha : w.Advances ev) (hs : w.step ev = some w') :
    w'.work < w.work := by
  cases ev with
  | publishBbo =>
    obtain ⟨msg, hmsg, rfl⟩ := Option.map_eq_some_iff.mp hs
    simp only [work, hmsg, buffer, gateway, Option.toList_none, Option.toList_some, List.length_nil,
      List.length_singleton]
    omega
  | popBbo =>
    obtain ⟨r, bbo, datagrams, reads⟩ := w
    cases bbo with
    | some msg => simp [System.step, System.popBbo] at hs
    | none =>
      obtain rfl := Option.some.inj hs
      set rb := r.pipeline.gateway.engine.buffer with hrb
      have hlength : rb.queued.length = rb.pop.2.queued.length + 1 := RingBuffer.length_pop ha
      have hone := Option.length_toList_le (o := rb.pop.1)
      show r.pipeline.networkWork + r.pipeline.matchingWork +
          (rb.pop.1.toList.length + 2 * rb.pop.2.queued.length) <
        r.pipeline.networkWork + r.pipeline.matchingWork + (0 + 2 * rb.queued.length)
      omega
  | pipeline ev =>
    obtain ⟨r, hr, rfl⟩ := Option.map_eq_some_iff.mp hs
    refine work_of_pipeline rfl ?_
    cases ev with
    | read readBuf => exact absurd ha (by simp [Advances])
    | network =>
      obtain ⟨p, hp, rfl⟩ := Option.map_eq_some_iff.mp hr
      obtain ⟨hlt, hgateway⟩ := networkStep_work hp fun parsedMsg msgLen hn => by
        simpa [Advances, hn] using ha
      have hbuffer : p.gateway.engine.buffer = w.buffer := by rw [hgateway]; rfl
      show p.networkWork + p.matchingWork + 2 * p.gateway.engine.buffer.queued.length < _
      rw [hbuffer]
      omega
    | pop =>
      obtain ⟨⟨⟨a, network, q, msg, g'⟩, parsed, handled⟩, bbo, datagrams, reads⟩ := w
      obtain ⟨p, hp, rfl⟩ := Option.map_eq_some_iff.mp hr
      cases msg with
      | some m => simp [Pipeline.step, Pipeline.pop] at hp
      | none =>
        obtain rfl := Option.some.inj hp
        have hlength : q.queued.length = q.pop.2.queued.length + 1 := RingBuffer.length_pop ha
        have hone := Option.length_toList_le (o := q.pop.1)
        refine Nat.add_lt_add_right (Nat.add_lt_add_left ?_ _) _
        show 3 * q.pop.1.toList.length + 4 * q.pop.2.queued.length < 3 * 0 + 4 * q.queued.length
        omega
    | handle clock freed =>
      obtain ⟨⟨⟨a, network, q, msg, g'⟩, parsed, handled⟩, bbo, datagrams, reads⟩ := w
      obtain ⟨p, hp, rfl⟩ := Option.map_eq_some_iff.mp hr
      obtain ⟨m, rfl, hp⟩ := Option.bind_eq_some_iff.mp hp
      obtain ⟨g1, hg, hp⟩ := Option.bind_eq_some_iff.mp hp
      obtain rfl := Option.some.inj hp
      obtain ⟨g2, hg2, -, -, hbuffer⟩ := h.publishing.step (m.map (a.read freed), clock)
      obtain rfl := Option.some.inj (hg.symm.trans hg2)
      have hgrows : g1.engine.buffer.queued.length ≤ g'.engine.buffer.queued.length + 1 := by
        rw [hbuffer]
        exact RingBuffer.length_pushAll_le _ _
      show Pipeline.networkWork ⟨a, network, q, none, g1⟩ + (3 * 0 + 4 * q.queued.length) +
          2 * g1.engine.buffer.queued.length <
        Pipeline.networkWork ⟨a, network, q, none, g1⟩ + (3 * 1 + 4 * q.queued.length) +
          2 * g'.engine.buffer.queued.length
      omega

/-- A run of advances is no longer than the work there is. -/
theorem Delivers.length_le {evs : List SystemEvent} (h : w.Delivers g)
    (ha : Along System.step Advances w evs) (hrun : run System.step w evs = some w') :
    evs.length + w'.work ≤ w.work := by
  induction evs generalizing w with
  | nil =>
    obtain rfl := Option.some.inj hrun
    exact (Nat.zero_add _).le
  | cons ev evs ih =>
    obtain ⟨w1, hs, hrest⟩ := Option.bind_eq_some_iff.mp hrun
    have hle := ih (h.step hs) (ha.2 w1 hs) hrest
    have hlt := h.work_lt ha.1 hs
    rw [List.length_cons]
    omega

theorem exists_step {ev : PipelineEvent} {p : Pipeline Size}
    (hp : w.recorded.pipeline.step ev = some p) : ∃ w', w.step (.pipeline ev) = some w' := by
  simp [System.step, Recorded.step, hp]

/-- With room for a message in an empty queue, some thread can advance unless all are idle. -/
theorem Delivers.exists_advance (h : w.Delivers g) (hsize : 1 < Size) (hidle : ¬ w.Idle) :
    ∃ ev, w.Advances ev ∧ ∃ w', w.step ev = some w' := by
  obtain ⟨⟨⟨a, network, q, msg, g'⟩, parsed, handled⟩, bbo, datagrams, reads⟩ := w
  cases msg with
  | some m =>
    obtain ⟨g1, hg, -⟩ := h.publishing.step (m.map (a.read fun _ => []), ⟨0, 0, 0⟩)
    have hp : Pipeline.step ⟨a, network, q, some m, g'⟩ (.handle ⟨0, 0, 0⟩ fun _ => []) =
        some ⟨a, network, q, none, g1⟩ := by
      have hg : g'.onParsedMessage (m.map (a.read fun _ => [])) ⟨0, 0, 0⟩ = some g1 := hg
      simp [Pipeline.step, Pipeline.handle, hg]
    exact ⟨.pipeline (.handle ⟨0, 0, 0⟩ fun _ => []), trivial, exists_step hp⟩
  | none =>
    by_cases hq : q.queued = []
    · cases network with
      | reading =>
        cases bbo with
        | some s => exact ⟨.publishBbo, trivial, _, rfl⟩
        | none =>
          exact ⟨.popBbo, fun hbuffer => hidle ⟨rfl, rfl, hq, rfl, hbuffer⟩, _, rfl⟩
      | framing =>
        refine ⟨.pipeline .network, trivial, ?_⟩
        cases hparse : (⟨a, .framing, q, none, g'⟩ : Pipeline Size).parse? with
        | none =>
          have hp : Pipeline.step ⟨a, .framing, q, none, g'⟩ .network =
              some ⟨a, .reading, q, none, g'⟩ := by
            simp only [Pipeline.step, Pipeline.networkStep, hparse]
          exact exists_step hp
        | some x =>
          obtain ⟨n, ok, parsedMsg⟩ := x
          cases ok with
          | false =>
            have hp : Pipeline.step ⟨a, .framing, q, none, g'⟩ .network =
                some ⟨a, .erasing n, q, none, g'⟩ := by
              simp only [Pipeline.step, Pipeline.networkStep, hparse]
            exact exists_step hp
          | true =>
            have hp : Pipeline.step ⟨a, .framing, q, none, g'⟩ .network =
                some ⟨a, .pushing (parsedMsg.map (Slice.mk a.block)) n, q, none, g'⟩ := by
              simp only [Pipeline.step, Pipeline.networkStep, hparse]
            exact exists_step hp
      | erasing msgLen => exact ⟨.pipeline .network, trivial, _, rfl⟩
      | pushing parsedMsg msgLen =>
        obtain ⟨⟨pushed, q'⟩, hpush⟩ : ∃ x, q.push parsedMsg = x := ⟨_, rfl⟩
        cases RingBuffer.queued_push hpush with
        | inl hroom =>
          obtain ⟨rfl, -⟩ := hroom
          have hp : Pipeline.step ⟨a, .pushing parsedMsg msgLen, q, none, g'⟩ .network =
              some ⟨a, .erasing msgLen, q', none, g'⟩ := by
            simp only [Pipeline.step, Pipeline.networkStep, hpush]
          exact ⟨.pipeline .network, by simp [Advances, hpush], exists_step hp⟩
        | inr hfull =>
          have hlength := hfull.2.2
          rw [hq, List.length_nil] at hlength
          omega
    · exact ⟨.pipeline .pop, hq, _, rfl⟩

/-- Idle threads have handled and sent everything. -/
theorem Delivers.idle (h : w.Delivers g) (hidle : w.Idle) :
    (w.handled.map fun m => m.1.fields) = (receivedFrom w.reads).map ParsedFixMessage.fields ∧
      w.datagrams = w.published := by
  have hparsed : receivedFrom w.reads = w.parsed := (h.receives.reading hidle.network).1
  have hnone : w.recorded.pipeline.outstanding = [] := by
    rw [Pipeline.outstanding, hidle.msg, hidle.orderQueue, hidle.network]
    rfl
  have haccounted := h.accounted
  unfold Recorded.Accounted at haccounted
  rw [hnone, List.map_nil, List.append_nil] at haccounted
  refine ⟨?_, ?_⟩
  · rw [hparsed]
    exact haccounted.symm
  · rw [published, hidle.bbo, hidle.buffer]
    simp

theorem Delivers.drains (h : w.Delivers g) (hsize : 1 < Size) :
    ∃ evs w', Along System.step Advances w evs ∧ run System.step w evs = some w' ∧ w'.Delivers g ∧
      w'.Idle := by
  induction hn : w.work using Nat.strong_induction_on generalizing w with
  | h n ih =>
    by_cases hidle : w.Idle
    · exact ⟨[], w, trivial, rfl, h, hidle⟩
    · obtain ⟨ev, ha, w1, hs⟩ := h.exists_advance hsize hidle
      have hlt := h.work_lt ha hs
      obtain ⟨evs, w', halong, hrun, h', hidle'⟩ := ih w1.work (hn ▸ hlt) (h.step hs) rfl
      refine ⟨ev :: evs, w', ⟨ha, fun w2 hs2 => ?_⟩, ?_, h', hidle'⟩
      · obtain rfl := Option.some.inj (hs.symm.trans hs2)
        exact halong
      · rw [run, hs]
        exact hrun

theorem reads_of_advances {evs : List SystemEvent} (ha : Along step Advances w evs)
    (hrun : run step w evs = some w') : w'.reads = w.reads := by
  induction evs generalizing w with
  | nil =>
    obtain rfl := Option.some.inj hrun
    rfl
  | cons ev evs ih =>
    obtain ⟨w1, hs, hrest⟩ := Option.bind_eq_some_iff.mp hrun
    rw [ih (ha.2 w1 hs) hrest]
    cases ev with
    | pipeline ev =>
      obtain ⟨r, -, rfl⟩ := Option.map_eq_some_iff.mp hs
      cases ev with
      | read readBuf => exact absurd ha.1 (by simp [Advances])
      | network | pop | handle => rfl
    | popBbo =>
      obtain ⟨r, bbo, datagrams, reads⟩ := w
      cases bbo with
      | some msg => simp [System.step, System.popBbo] at hs
      | none =>
        obtain rfl := Option.some.inj hs
        rfl
    | publishBbo =>
      obtain ⟨msg, -, rfl⟩ := Option.map_eq_some_iff.mp hs
      rfl

end System
end LobCity
