import LobCity.System

/-! What reaches the gateway, and what leaves it, whatever the order of the three threads'
steps: the messages of the received bytes, each once and in order, handled as the exchange
handles them, and the exchange's snapshots, of which only a full ring drops some. -/
namespace LobCity
open Library
open Accumulator (framer)
variable {Size : Nat} [NeZero Size]

def Pipeline.remaining (p : Pipeline Size) : List Byte :=
  match p.network with
  | .reading | .framing => p.accumulator.content
  | .pushing _ msgLen | .erasing msgLen => p.accumulator.content.drop msgLen

namespace Recorded
variable {w w' : Recorded Size} {reads : List (List Byte)}

structure Receives (w : Recorded Size) (reads : List (List Byte)) : Prop where
  messages : receivedFrom reads =
    w.parsed ++ (framer.cut w.pipeline.remaining).1.filterMap parsed?
  rest : (cutReads reads).2 = (framer.cut w.pipeline.remaining).2
  waits : w.pipeline.network = .reading → w.pipeline.accumulator.msgLen? = none

theorem new_receives (gateway : OrderEntryGateway) : (new gateway : Recorded Size).Receives [] := by
  have hnone : framer.len? [] = none := rfl
  have hempty : (new gateway : Recorded Size).pipeline.remaining = [] :=
    Accumulator.content_new 0 65536
  refine ⟨?_, ?_, fun _ => ?_⟩
  · rw [hempty, Framer.cut_none hnone]
    rfl
  · rw [hempty, Framer.cut_none hnone]
    rfl
  · show Accumulator.frameLen? (Accumulator.new 0 65536).content = none
    rw [Accumulator.content_new]
    rfl

omit [NeZero Size] in
theorem Receives.reading (h : w.Receives reads) (hw : w.pipeline.network = .reading) :
    receivedFrom reads = w.parsed ∧ (cutReads reads).2 = w.pipeline.accumulator.content := by
  have hcut : framer.cut w.pipeline.remaining = ([], w.pipeline.accumulator.content) := by
    have hremaining : w.pipeline.remaining = w.pipeline.accumulator.content := by
      rw [Pipeline.remaining, hw]
    rw [hremaining]
    exact Framer.cut_none (h.waits hw)
  have hmessages := h.messages
  have hrest := h.rest
  rw [hcut] at hmessages hrest
  exact ⟨by simpa using hmessages, hrest⟩

theorem Receives.read (h : w.Receives reads) {readBuf : List Byte}
    (hs : w.step (.read readBuf) = some w') : w'.Receives (reads ++ [readBuf]) := by
  obtain ⟨⟨a, network, q, msg, g⟩, parsed, handled⟩ := w
  obtain ⟨p', hp, rfl⟩ := Option.map_eq_some_iff.mp hs
  cases network with
  | framing => simp [Pipeline.step, Pipeline.read] at hp
  | pushing => simp [Pipeline.step, Pipeline.read] at hp
  | erasing => simp [Pipeline.step, Pipeline.read] at hp
  | reading =>
    obtain ⟨hmessages, hrest⟩ := h.reading rfl
    dsimp only at hmessages hrest
    simp only [Pipeline.step, Pipeline.read] at hp
    split_ifs at hp with hlong hempty
    · cases hp
      have hcontent : (Accumulator.new (a.block + 1) 65536).content = [] :=
        Accumulator.content_new _ _
      have hnone : framer.len? (Accumulator.new (a.block + 1) 65536).content = none := by
        rw [hcontent]
        rfl
      have hcut := Framer.cut_none hnone
      rw [hcontent] at hcut
      refine ⟨?_, ?_, fun _ => hnone⟩
      · rw [receivedFrom, cutReads_concat, cutRead, if_pos hempty]
        simpa [Pipeline.remaining, hcontent, hcut, parsedAfter, receivedFrom] using hmessages
      · rw [cutReads_concat, cutRead, if_pos hempty]
        simp [Pipeline.remaining, hcontent, hcut]
    · cases hp
      have hremaining : a.content ++ readBuf = (cutReads reads).2 ++ readBuf := by rw [hrest]
      refine ⟨?_, ?_, fun hw => by cases hw⟩
      · rw [receivedFrom, cutReads_concat, cutRead, if_neg hempty]
        show ((cutReads reads).1 ++ (framer.cut ((cutReads reads).2 ++ readBuf)).1).filterMap
          parsed? = parsed ++ (framer.cut (a.append readBuf).content).1.filterMap parsed?
        rw [List.filterMap_append, Accumulator.content_append, hremaining, ← hmessages]
        rfl
      · rw [cutReads_concat, cutRead, if_neg hempty]
        show (framer.cut ((cutReads reads).2 ++ readBuf)).2 =
          (framer.cut (a.append readBuf).content).2
        rw [Accumulator.content_append, hremaining]

theorem Receives.network (h : w.Receives reads) (hs : w.step .network = some w') :
    w'.Receives reads := by
  obtain ⟨⟨a, network, q, msg, g⟩, parsed, handled⟩ := w
  obtain ⟨p', hp, rfl⟩ := Option.map_eq_some_iff.mp hs
  obtain ⟨hmessages, hrest, -⟩ := h
  cases network with
  | reading => simp [Pipeline.step, Pipeline.networkStep] at hp
  | framing =>
    cases hlen : a.msgLen? with
    | none =>
      have hparse : (⟨a, .framing, q, msg, g⟩ : Pipeline Size).parse? = none := by
        rw [Pipeline.parse?, hlen]
        rfl
      simp only [Pipeline.step, Pipeline.networkStep, hparse] at hp
      cases hp
      refine ⟨?_, hrest, fun _ => hlen⟩
      simpa [parsedAfter, hparse, Pipeline.remaining] using hmessages
    | some n =>
      obtain ⟨-, hle⟩ := Accumulator.msgLen?_le hlen
      have hcut := Framer.cut_some (F := framer) (show framer.len? a.content = some n from hlen)
      have hmessages : receivedFrom reads =
          parsed ++ (framer.cut a.content).1.filterMap parsed? := hmessages
      have hrest : (cutReads reads).2 = (framer.cut a.content).2 := hrest
      rw [hcut, List.filterMap_cons, ← Accumulator.message_eq hle] at hmessages
      rw [hcut] at hrest
      cases hframe : parseFixMessage (a.message n) with
      | mk ok parsedMsg =>
        have hparse : (⟨a, .framing, q, msg, g⟩ : Pipeline Size).parse? = some (n, ok, parsedMsg) := by
          simp [Pipeline.parse?, hlen, hframe]
        cases ok with
        | false =>
          simp only [Pipeline.step, Pipeline.networkStep, hparse] at hp
          cases hp
          refine ⟨?_, hrest, fun hw => by cases hw⟩
          simpa [parsedAfter, hparse, parsed?, hframe, Pipeline.remaining] using hmessages
        | true =>
          simp only [Pipeline.step, Pipeline.networkStep, hparse] at hp
          cases hp
          refine ⟨?_, hrest, fun hw => by cases hw⟩
          simpa [parsedAfter, hparse, parsed?, hframe, Pipeline.remaining] using hmessages
  | pushing parsedMsg msgLen =>
    obtain ⟨⟨pushed, q'⟩, hpush⟩ : ∃ x, q.push parsedMsg = x := ⟨_, rfl⟩
    simp only [Pipeline.step, Pipeline.networkStep, hpush] at hp
    cases pushed <;> cases hp <;> exact ⟨hmessages, hrest, fun hw => by cases hw⟩
  | erasing msgLen =>
    cases hp
    have hremaining : (a.erase msgLen).content = a.content.drop msgLen :=
      Accumulator.content_erase a msgLen
    refine ⟨?_, ?_, fun hw => by cases hw⟩
    · show receivedFrom reads = parsed ++ (framer.cut (a.erase msgLen).content).1.filterMap parsed?
      rw [hremaining]
      exact hmessages
    · show (cutReads reads).2 = (framer.cut (a.erase msgLen).content).2
      rw [hremaining]
      exact hrest

omit [NeZero Size] in
theorem Receives.of_same (h : w.Receives reads)
    (haccumulator : w'.pipeline.accumulator = w.pipeline.accumulator)
    (hnetwork : w'.pipeline.network = w.pipeline.network) (hparsed : w'.parsed = w.parsed) :
    w'.Receives reads := by
  have hremaining : w'.pipeline.remaining = w.pipeline.remaining := by
    rw [Pipeline.remaining, hnetwork, haccumulator]
    rfl
  refine ⟨?_, ?_, fun hw => ?_⟩
  · rw [hremaining, hparsed]
    exact h.messages
  · rw [hremaining]
    exact h.rest
  · rw [haccumulator]
    exact h.waits (hnetwork ▸ hw)

/-- Every message is received, and either on its way or handled, with its fields. -/
def Accounted (w : Recorded Size) : Prop :=
  w.parsed.map ParsedFixMessage.fields = (w.handled.map fun m => m.1.fields) ++
    w.pipeline.outstanding.map ParsedFixMessage.fields

theorem Accounted.of_effect (h : w.Accounted) {ev : PipelineEvent} (he : w.Effect ev w') :
    w'.Accounted := by
  unfold Accounted at h ⊢
  cases he with
  | moves outstanding keeps parsed handled gateway => rw [parsed, handled, outstanding, h]
  | parses msgLen msg hmsg accumulator outstanding parsed handled gateway =>
    rw [parsed, handled, outstanding, List.map_append, List.map_append, h, List.append_assoc]
    rfl
  | handles msg clock freed accumulator outstanding parsed handled gateway =>
    rw [parsed, handled, h, outstanding, List.map_append, List.map_cons, List.append_assoc]
    rfl

end Recorded

/-- A push that is not dropped puts its item behind the others; it is dropped only if the
ring is full. -/
theorem RingBuffer.queued_pushAll {T : Type} (rb : RingBuffer T Size) (item : Option T) :
    (rb.pushAll item.toList).queued = rb.queued ++ item.toList ∨
      (rb.pushAll item.toList).queued = rb.queued ∧ rb.queued.length = Size - 1 := by
  cases item with
  | none =>
    left
    simp [pushAll]
  | some x =>
    obtain ⟨⟨pushed, rb'⟩, hpush⟩ : ∃ y, rb.push x = y := ⟨_, rfl⟩
    have hall : rb.pushAll (some x).toList = rb' := congrArg Prod.snd hpush
    rw [hall]
    cases queued_push hpush with
    | inl h => exact Or.inl h.2
    | inr h =>
      obtain ⟨-, rfl, hfull⟩ := h
      exact Or.inr ⟨rfl, hfull⟩

namespace System
variable {w w' : System Size} {g : OrderEntryGateway} {ev : SystemEvent}

/-- The snapshots that the ring has been offered, before and since the threads started. -/
def offered (g : OrderEntryGateway) (msgs : List (FixMessage × Clock)) : List BboMessage :=
  g.engine.buffer.queued ++ g.exchange.snapshots msgs

/-- The invariant of the three threads, `g` being the gateway that they started with. -/
structure Delivers (g : OrderEntryGateway) (w : System Size) : Prop where
  receives : w.recorded.Receives w.reads
  accounted : w.recorded.Accounted
  publishing : w.gateway.Publishing
  exchange : w.gateway.exchange = g.exchange.handleAll w.handled
  feed : w.published.Sublist (offered g w.handled)
  complete : (offered g w.handled).length < 1024 → w.published = offered g w.handled

theorem new_delivers (hg : g.Publishing) : (new g : System Size).Delivers g := by
  have hpublished : (new g : System Size).published = offered g [] := by
    show g.engine.buffer.queued = g.engine.buffer.queued ++ []
    rw [List.append_nil]
  refine ⟨Recorded.new_receives g, ?_, hg, rfl, ?_, fun _ => hpublished⟩
  · show [] = [] ++ List.map _ (Recorded.new g : Recorded Size).pipeline.outstanding
    simp [Recorded.new, Pipeline.outstanding, Pipeline.new, RingBuffer.queued_new]
  · rw [hpublished]
    exact List.Sublist.refl _

theorem Delivers.push (h : w.Delivers g) {m : FixMessage × Clock}
    (hhandled : w'.handled = w.handled ++ [m]) (hbbo : w'.bbo = w.bbo)
    (hdatagrams : w'.datagrams = w.datagrams)
    (hbuffer : w'.buffer = w.buffer.pushAll (w.gateway.exchange.handle m).2.toList) :
    w'.published.Sublist (offered g w'.handled) ∧
      ((offered g w'.handled).length < 1024 → w'.published = offered g w'.handled) := by
  have hoffered : offered g w'.handled =
      offered g w.handled ++ (w.gateway.exchange.handle m).2.toList := by
    rw [hhandled, offered, Exchange.snapshots_concat, ← h.exchange, ← List.append_assoc]
    rfl
  have hpublished : w'.published = w.datagrams ++ w.bbo.toList ++ w'.buffer.queued := by
    rw [published, hdatagrams, hbbo]
  have hlength : w.buffer.queued.length ≤ w.published.length := by
    rw [published, List.length_append]
    exact Nat.le_add_left _ _
  rw [hoffered, hpublished, hbuffer]
  cases w.buffer.queued_pushAll (w.gateway.exchange.handle m).2 with
  | inl hq =>
    rw [hq, ← List.append_assoc]
    refine ⟨h.feed.append (List.Sublist.refl _), fun hlt => ?_⟩
    rw [List.length_append] at hlt
    exact congrArg (· ++ _) (h.complete (by omega))
  | inr hq =>
    obtain ⟨hq, hfull⟩ := hq
    rw [hq]
    refine ⟨h.feed.trans (List.sublist_append_left _ _), fun hlt => ?_⟩
    rw [List.length_append] at hlt
    have hsame := h.complete (by omega)
    have hnone : (w.gateway.exchange.handle m).2.toList = [] := by
      refine List.length_eq_zero_iff.mp ?_
      rw [← hsame] at hlt
      omega
    rw [hnone, List.append_nil]
    exact hsame

theorem Delivers.of_published (h : w.Delivers g) (hreceives : w'.recorded.Receives w'.reads)
    (haccounted : w'.recorded.Accounted) (hpublishing : w'.gateway.Publishing)
    (hexchange : w'.gateway.exchange = w.gateway.exchange) (hhandled : w'.handled = w.handled)
    (hpublished : w'.published = w.published) : w'.Delivers g := by
  refine ⟨hreceives, haccounted, hpublishing, ?_, ?_, ?_⟩
  · rw [hexchange, hhandled]
    exact h.exchange
  · rw [hpublished, hhandled]
    exact h.feed
  · rw [hpublished, hhandled]
    exact h.complete

theorem Delivers.of_gateway (h : w.Delivers g) (hreceives : w'.recorded.Receives w'.reads)
    (haccounted : w'.recorded.Accounted) (hgateway : w'.gateway = w.gateway)
    (hhandled : w'.handled = w.handled) (hbbo : w'.bbo = w.bbo)
    (hdatagrams : w'.datagrams = w.datagrams) : w'.Delivers g := by
  have hpublished : w'.published = w.published := by
    rw [published, published, buffer, buffer, hgateway, hbbo, hdatagrams]
  exact h.of_published hreceives haccounted (hgateway ▸ h.publishing)
    (congrArg OrderEntryGateway.exchange hgateway) hhandled hpublished

theorem Delivers.pipeline (h : w.Delivers g) {ev : PipelineEvent}
    (hs : w.step (.pipeline ev) = some w') : w'.Delivers g := by
  obtain ⟨r, hr, rfl⟩ := Option.map_eq_some_iff.mp hs
  have he := Recorded.step_effect hr
  have haccounted := h.accounted.of_effect he
  have hreceives : r.Receives (w.readsAfter ev) := by
    cases ev with
    | read readBuf => exact h.receives.read hr
    | network => exact h.receives.network hr
    | pop =>
      obtain ⟨p, hp, rfl⟩ := Option.map_eq_some_iff.mp hr
      unfold Pipeline.step Pipeline.pop at hp
      cases hm : w.recorded.pipeline.msg with
      | some m => simp [hm] at hp
      | none =>
        simp only [hm, Option.some.injEq] at hp
        subst hp
        exact h.receives.of_same rfl rfl rfl
    | handle clock freed =>
      obtain ⟨p, hp, rfl⟩ := Option.map_eq_some_iff.mp hr
      obtain ⟨m, -, hp⟩ := Option.bind_eq_some_iff.mp hp
      obtain ⟨g', -, hp⟩ := Option.bind_eq_some_iff.mp hp
      cases hp
      exact h.receives.of_same rfl rfl rfl
  cases he with
  | moves outstanding keeps parsed handled gateway =>
    exact h.of_gateway hreceives haccounted gateway handled rfl rfl
  | parses msgLen msg hmsg accumulator outstanding parsed handled gateway =>
    exact h.of_gateway hreceives haccounted gateway handled rfl rfl
  | handles msg clock freed accumulator outstanding parsed handled gateway =>
    obtain ⟨g', hg', hpublishing, hexchange, hbuffer⟩ := h.publishing.step
      (msg.map (w.recorded.pipeline.accumulator.read freed), clock)
    obtain rfl := Option.some.inj (gateway.symm.trans hg')
    let w' := { w with recorded := r, reads := w.readsAfter ev }
    have hpushed : w'.handled =
        w.handled ++ [(msg.map (w.recorded.pipeline.accumulator.read freed), clock)] := handled
    obtain ⟨hfeed, hcomplete⟩ := h.push hpushed rfl rfl hbuffer
    refine ⟨hreceives, haccounted, hpublishing, ?_, hfeed, hcomplete⟩
    show r.pipeline.gateway.exchange = g.exchange.handleAll r.handled
    rw [hexchange, h.exchange, handled, Exchange.handleAll_append]
    rfl

theorem Delivers.popBbo (h : w.Delivers g) (hs : w.step .popBbo = some w') : w'.Delivers g := by
  obtain ⟨r, bbo, datagrams, reads⟩ := w
  cases bbo with
  | some msg => simp [step, System.popBbo] at hs
  | none =>
    obtain rfl := Option.some.inj hs
    set rb := r.pipeline.gateway.engine.buffer with hrb
    have hqueued : rb.queued = rb.pop.1.toList ++ rb.pop.2.queued := RingBuffer.queued_pop rfl
    have hpublished : datagrams ++ rb.pop.1.toList ++ rb.pop.2.queued =
        datagrams ++ [] ++ rb.queued := by
      rw [hqueued, List.append_nil, List.append_assoc]
    obtain ⟨hsound, hudp⟩ := h.publishing
    exact h.of_published (h.receives.of_same rfl rfl rfl) h.accounted
      ⟨⟨hsound.wellFormed.withBuffer _, hsound.indexed⟩, hudp⟩ rfl rfl hpublished

theorem Delivers.publishBbo (h : w.Delivers g) (hs : w.step .publishBbo = some w') :
    w'.Delivers g := by
  obtain ⟨r, bbo, datagrams, reads⟩ := w
  obtain ⟨msg, hmsg, rfl⟩ := Option.map_eq_some_iff.mp hs
  obtain rfl : bbo = some msg := hmsg
  have hpublished : datagrams ++ [msg] ++ [] ++ r.pipeline.gateway.engine.buffer.queued =
      datagrams ++ [msg] ++ r.pipeline.gateway.engine.buffer.queued := by rw [List.append_nil]
  exact h.of_published h.receives h.accounted h.publishing rfl rfl hpublished

/-- The step lemma of the whole program. -/
theorem Delivers.step (h : w.Delivers g) (hs : w.step ev = some w') : w'.Delivers g := by
  cases ev with
  | pipeline ev => exact h.pipeline hs
  | popBbo => exact h.popBbo hs
  | publishBbo => exact h.publishBbo hs

theorem kept_step (h : w.recorded.Kept) (hclear : w.Clear ev) (hs : w.step ev = some w') :
    w'.recorded.Kept := by
  cases ev with
  | pipeline ev =>
    obtain ⟨r, hr, rfl⟩ := Option.map_eq_some_iff.mp hs
    exact h.step hclear hr
  | popBbo =>
    obtain ⟨r, bbo, datagrams, reads⟩ := w
    cases bbo with
    | some msg => simp [System.step, popBbo] at hs
    | none =>
      obtain rfl := Option.some.inj hs
      exact ⟨h.live, h.texts⟩
  | publishBbo =>
    obtain ⟨msg, -, rfl⟩ := Option.map_eq_some_iff.mp hs
    exact h

section Run
variable {evs : List SystemEvent}

theorem Delivers.parsed_prefix (h : w.Delivers g) : w.parsed <+: receivedFrom w.reads := by
  rw [h.receives.messages]
  exact List.prefix_append _ _

theorem Delivers.fields_prefix (h : w.Delivers g) :
    (w.handled.map fun m => m.1.fields) <+: (receivedFrom w.reads).map ParsedFixMessage.fields := by
  have hfront : (w.handled.map fun m => m.1.fields) <+: w.parsed.map ParsedFixMessage.fields :=
    ⟨_, h.accounted.symm⟩
  exact hfront.trans (h.parsed_prefix.map _)

theorem run_delivers (hg : g.Publishing) (hrun : run step (new g : System Size) evs = some w) :
    w.Delivers g := run_kept (fun _ _ _ h hs => h.step hs) (new_delivers hg) hrun

/-- For every interleaving of the three threads and every way the bytes come in: what the
gateway has handled are the first of the messages in those bytes, none twice, left out or
out of order, with all of their fields but the ids; the book and the risk engine are what
the exchange makes of these; and the ids are those received too if no step of the network
thread (a read, an erase, the end of a connection) touches an id on its way. -/
theorem run_exactlyOnce (hg : g.Publishing) (hrun : run step (new g : System Size) evs = some w) :
    (w.handled.map fun m => m.1.fields) <+: (receivedFrom w.reads).map ParsedFixMessage.fields ∧
      w.gateway.Sound ∧ w.gateway.exchange = g.exchange.handleAll w.handled ∧
      (Along step Clear (new g : System Size) evs →
        w.handled.map Prod.fst <+: receivedFrom w.reads) := by
  have h := run_delivers hg hrun
  refine ⟨h.fields_prefix, h.publishing.sound, h.exchange, fun hclear => ?_⟩
  have hkept : w.recorded.Kept := run_kept_along (fun _ _ _ h hok hs => kept_step h hok hs)
    (Recorded.new_kept g) hclear hrun
  have hfront : w.handled.map Prod.fst <+: w.parsed := ⟨_, (hkept.texts fun _ => []).symm⟩
  exact hfront.trans h.parsed_prefix

end Run

def twoClients : List SystemEvent :=
  (Recorded.chunkEach.take 7).map .pipeline ++ [.popBbo, .pipeline (.read []), .publishBbo] ++
    (Recorded.chunkEach.drop 7).map .pipeline

def start : System 131072 := new (.new 4 true {})

theorem run_exactlyOnce_twoClients :
    ∃ w, run step start twoClients = some w ∧ w.handled.length = 2 ∧
      w.handled.map Prod.fst <+: receivedFrom w.reads := by
  have hclear : Along step Clear start twoClients := by decide +kernel
  have hlength : (run step start twoClients).map (fun w => w.handled.length) = some 2 := by
    decide +kernel
  obtain ⟨w, hw, hlen⟩ := Option.map_eq_some_iff.mp hlength
  exact ⟨w, hw, hlen, (run_exactlyOnce (OrderEntryGateway.new_publishing 4 {}) hw).2.2.2 hclear⟩

end System
end LobCity
