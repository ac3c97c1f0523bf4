import LobCity.Pipeline

/-! Order ids across the queue. A message on its way reads as it did when it was parsed as
long as no step touches what its ids point to; an erase moves the next message there. -/
namespace LobCity
open Library
variable {Size : Nat} [NeZero Size]

def OrderEntryGateway.feed (g : OrderEntryGateway) (m : FixMessage × Clock) :
    Option OrderEntryGateway := g.onParsedMessage m.1 m.2

namespace Recorded
variable {w w' : Recorded Size} {ev : PipelineEvent}

/-- What a step does to the messages on their way and to what they point into. -/
inductive Effect (w : Recorded Size) (ev : PipelineEvent) (w' : Recorded Size) : Prop
  | moves
    (outstanding : w'.pipeline.outstanding = w.pipeline.outstanding)
    (keeps : w.pipeline.accumulator.Keeps w'.pipeline.accumulator (w.pipeline.touched ev))
    (parsed : w'.parsed = w.parsed)
    (handled : w'.handled = w.handled)
    (gateway : w'.pipeline.gateway = w.pipeline.gateway)
  | parses (msgLen : Nat) (msg : ParsedFixMessage View)
    (hmsg : msg = (parseFixMessage (w.pipeline.accumulator.message msgLen)).2)
    (accumulator : w'.pipeline.accumulator = w.pipeline.accumulator)
    (outstanding : w'.pipeline.outstanding =
      w.pipeline.outstanding ++ [msg.map (Slice.mk w.pipeline.accumulator.block)])
    (parsed : w'.parsed =
      w.parsed ++ [msg.map (View.read (w.pipeline.accumulator.message msgLen))])
    (handled : w'.handled = w.handled)
    (gateway : w'.pipeline.gateway = w.pipeline.gateway)
  | handles (msg : ParsedFixMessage Slice) (clock : Clock) (freed : Nat → List Byte)
    (accumulator : w'.pipeline.accumulator = w.pipeline.accumulator)
    (outstanding : w.pipeline.outstanding = msg :: w'.pipeline.outstanding)
    (parsed : w'.parsed = w.parsed)
    (handled : w'.handled =
      w.handled ++ [(msg.map (w.pipeline.accumulator.read freed), clock)])
    (gateway : w.pipeline.gateway.onParsedMessage
      (msg.map (w.pipeline.accumulator.read freed)) clock = some w'.pipeline.gateway)

theorem Effect.of_read {readBuf : List Byte} (h : w.step (.read readBuf) = some w') :
    w.Effect (.read readBuf) w' := by
  obtain ⟨⟨a, network, q, msg, g⟩, parsed, handled⟩ := w
  obtain ⟨p', hp, rfl⟩ := Option.map_eq_some_iff.mp h
  cases network with
  | reading =>
    simp only [Pipeline.step, Pipeline.read] at hp
    split_ifs at hp with hlong hempty
    · cases hp
      exact .moves rfl (by simpa [Pipeline.touched, hempty] using a.keeps_whole _) rfl rfl rfl
    · cases hp
      exact .moves rfl (by simpa [Pipeline.touched, hempty] using a.keeps_append readBuf) rfl rfl rfl
  | framing => simp [Pipeline.step, Pipeline.read] at hp
  | pushing => simp [Pipeline.step, Pipeline.read] at hp
  | erasing => simp [Pipeline.step, Pipeline.read] at hp

theorem Effect.of_network (h : w.step .network = some w') : w.Effect .network w' := by
  obtain ⟨⟨a, network, q, msg, g⟩, parsed, handled⟩ := w
  obtain ⟨p', hp, rfl⟩ := Option.map_eq_some_iff.mp h
  cases network with
  | reading => simp [Pipeline.step, Pipeline.networkStep] at hp
  | framing =>
    cases hparse : (⟨a, .framing, q, msg, g⟩ : Pipeline Size).parse? with
    | none =>
      simp only [Pipeline.step, Pipeline.networkStep, hparse] at hp
      cases hp
      exact .moves rfl (.refl a _) (by simp [parsedAfter, hparse]) rfl rfl
    | some x =>
      obtain ⟨msgLen, ok, parsedMsg⟩ := x
      obtain ⟨n, -, hx⟩ := Option.map_eq_some_iff.mp hparse
      obtain ⟨rfl, hfields⟩ := Prod.mk.inj hx
      cases ok with
      | false =>
        simp only [Pipeline.step, Pipeline.networkStep, hparse] at hp
        cases hp
        exact .moves rfl (.refl a _) (by simp [parsedAfter, hparse]) rfl rfl
      | true =>
        simp only [Pipeline.step, Pipeline.networkStep, hparse] at hp
        cases hp
        refine .parses n parsedMsg (congrArg Prod.snd hfields).symm rfl ?_ ?_ rfl rfl
        · simp [Pipeline.outstanding]
        · simp [parsedAfter, hparse]
  | pushing parsedMsg msgLen =>
    obtain ⟨⟨pushed, q'⟩, hpush⟩ : ∃ x, q.push parsedMsg = x := ⟨_, rfl⟩
    simp only [Pipeline.step, Pipeline.networkStep, hpush] at hp
    cases RingBuffer.queued_push hpush with
    | inl hq =>
      obtain ⟨rfl, hq⟩ := hq
      cases hp
      refine .moves ?_ (.refl a _) rfl rfl rfl
      simp [Pipeline.outstanding, hq]
    | inr h =>
      obtain ⟨rfl, rfl, -⟩ := h
      cases hp
      exact .moves rfl (.refl a _) rfl rfl rfl
  | erasing msgLen =>
    cases hp
    exact .moves rfl (a.keeps_erase msgLen) rfl rfl rfl

theorem Effect.of_pop (h : w.step .pop = some w') : w.Effect .pop w' := by
  obtain ⟨⟨a, network, q, msg, g⟩, parsed, handled⟩ := w
  obtain ⟨p', hp, rfl⟩ := Option.map_eq_some_iff.mp h
  cases msg with
  | some msg => simp [Pipeline.step, Pipeline.pop] at hp
  | none =>
    cases hp
    have hq : q.queued = q.pop.1.toList ++ q.pop.2.queued := RingBuffer.queued_pop rfl
    refine .moves ?_ (.refl a _) rfl rfl rfl
    simp [Pipeline.outstanding, hq]

theorem Effect.of_handle {clock : Clock} {freed : Nat → List Byte}
    (h : w.step (.handle clock freed) = some w') : w.Effect (.handle clock freed) w' := by
  obtain ⟨⟨a, network, q, msg, g⟩, parsed, handled⟩ := w
  obtain ⟨p', hp, rfl⟩ := Option.map_eq_some_iff.mp h
  obtain ⟨m, rfl, hp⟩ := Option.bind_eq_some_iff.mp hp
  obtain ⟨g', hg, hp⟩ := Option.bind_eq_some_iff.mp hp
  cases hp
  exact .handles m clock freed rfl rfl rfl rfl hg

theorem step_effect (h : w.step ev = some w') : w.Effect ev w' := by
  cases ev with
  | read readBuf => exact .of_read h
  | network => exact .of_network h
  | pop => exact .of_pop h
  | handle clock freed => exact .of_handle h

/-- Every message on its way reads, in what stands there now, as it did when it was
parsed, and those handled read so as well. -/
structure Kept (w : Recorded Size) : Prop where
  live : ∀ m ∈ w.pipeline.outstanding, ∀ s ∈ m.ids, w.pipeline.accumulator.Live s
  texts : ∀ freed, w.parsed = w.handled.map Prod.fst ++
    w.pipeline.outstanding.map (ParsedFixMessage.map (w.pipeline.accumulator.read freed))

theorem Kept.step (h : w.Kept) (hclear : w.Clear ev) (hs : w.step ev = some w') : w'.Kept := by
  cases step_effect hs with
  | moves outstanding keeps parsed handled gateway =>
    have hkeeps : ∀ m ∈ w.pipeline.outstanding, ∀ s ∈ m.ids, w'.pipeline.accumulator.Live s ∧
        ∀ freed, w'.pipeline.accumulator.read freed s = w.pipeline.accumulator.read freed s :=
      fun m hm s hs => keeps s (h.live m hm s hs) (hclear m hm s hs)
    constructor
    · rw [outstanding]
      exact fun m hm s hs => (hkeeps m hm s hs).1
    · intro freed
      rw [parsed, handled, outstanding, h.texts freed]
      refine congrArg _ (List.map_congr_left fun m hm => ?_)
      exact ParsedFixMessage.map_congr fun s hs => ((hkeeps m hm s hs).2 freed).symm
  | parses msgLen msg hmsg accumulator outstanding parsed handled gateway =>
    have hlive : ∀ v ∈ msg.ids,
        w.pipeline.accumulator.Live ⟨w.pipeline.accumulator.block, v⟩ ∧
        ∀ freed, w.pipeline.accumulator.read freed ⟨w.pipeline.accumulator.block, v⟩ =
          v.read (w.pipeline.accumulator.message msgLen) :=
      fun v hv => Accumulator.parsed_live (hmsg ▸ hv)
    constructor
    · rw [outstanding, accumulator]
      intro m hm s hs
      cases List.mem_append.mp hm with
      | inl hm =>
        exact h.live m hm s hs
      | inr hm =>
        obtain rfl := List.mem_singleton.mp hm
        obtain ⟨v, hv, rfl⟩ := List.mem_map.mp (ParsedFixMessage.ids_map _ msg ▸ hs)
        exact (hlive v hv).1
    · intro freed
      have hread : (msg.map (Slice.mk w.pipeline.accumulator.block)).map
            (w.pipeline.accumulator.read freed) =
          msg.map (View.read (w.pipeline.accumulator.message msgLen)) := by
        rw [ParsedFixMessage.map_map]
        exact ParsedFixMessage.map_congr fun v hv => (hlive v hv).2 freed
      rw [parsed, handled, outstanding, accumulator, List.map_append, ← List.append_assoc,
        ← h.texts freed, List.map_singleton, hread]
  | handles msg clock freed' accumulator outstanding parsed handled gateway =>
    have hlive := h.live
    rw [outstanding] at hlive
    constructor
    · rw [accumulator]
      exact fun m hm => hlive m (List.mem_cons_of_mem _ hm)
    · intro freed
      have hread : msg.map (w.pipeline.accumulator.read freed) =
          msg.map (w.pipeline.accumulator.read freed') :=
        ParsedFixMessage.map_congr fun s hs =>
          (hlive msg (List.mem_cons_self ..) s hs).read_eq freed freed'
      rw [parsed, handled, accumulator, h.texts freed, outstanding, List.map_cons, hread,
        List.map_append, List.map_singleton, List.append_assoc, List.singleton_append]

theorem new_kept (gateway : OrderEntryGateway) : (new gateway : Recorded Size).Kept := by
  have hempty : (new gateway : Recorded Size).pipeline.outstanding = [] := by
    simp [new, Pipeline.outstanding, Pipeline.new, RingBuffer.queued_new]
  constructor
  · rw [hempty]
    exact fun m hm => absurd hm (by simp)
  · intro freed
    rw [hempty]
    rfl

/-- The gateway has handled what it read, one message after the other. -/
theorem gateway_step {g : OrderEntryGateway}
    (h : run OrderEntryGateway.feed g w.handled = some w.pipeline.gateway)
    (hs : w.step ev = some w') :
    run OrderEntryGateway.feed g w'.handled = some w'.pipeline.gateway := by
  cases step_effect hs with
  | moves outstanding keeps parsed handled gateway => rw [handled, gateway, h]
  | parses msgLen msg hmsg accumulator outstanding parsed handled gateway =>
    rw [handled, gateway, h]
  | handles msg clock freed accumulator outstanding parsed handled gateway =>
    rw [handled, run_append, h, Option.bind_some]
    simp only [run, OrderEntryGateway.feed, gateway, Option.bind_some]

section Run
variable {gateway : OrderEntryGateway} {evs : List PipelineEvent}

/-- In a run of clear steps the gateway ends up as if one thread had fed it the messages
with the text they were parsed from. -/
theorem run_handled (hclear : Along step Clear (new gateway : Recorded Size) evs)
    (hrun : run step (new gateway : Recorded Size) evs = some w) :
    w.handled.map Prod.fst <+: w.parsed ∧
      run OrderEntryGateway.feed gateway w.handled = some w.pipeline.gateway := by
  have hkept : w.Kept := run_kept_along (fun _ _ _ h hok hs => h.step hok hs)
    (new_kept gateway) hclear hrun
  have hfed : run OrderEntryGateway.feed gateway (new gateway : Recorded Size).handled =
      some (new gateway : Recorded Size).pipeline.gateway := rfl
  refine ⟨?_, run_kept (fun _ _ _ h hs => gateway_step h hs) hfed hrun⟩
  rw [hkept.texts fun _ => []]
  exact List.prefix_append _ _

/-- For every stream, chunking and interleaving whose steps are clear. -/
theorem run_idsKept (hclear : Along step Clear (new gateway : Recorded Size) evs)
    (hrun : run step (new gateway : Recorded Size) evs = some w) : w.IdsKept := by
  intro k m clock hk
  obtain ⟨hfront, -⟩ := run_handled hclear hrun
  have hm : (w.handled.map Prod.fst)[k]? = some m := by
    rw [List.getElem?_map, hk]
    rfl
  obtain ⟨hlt, hget⟩ := List.getElem?_eq_some_iff.mp hm
  refine ⟨m, ?_, rfl, rfl⟩
  rw [List.prefix_iff_getElem?.mp hfront k hlt, hget]

end Run

/-- A message with `|` for the delimiter. -/
def fix (text : String) : List Byte := text.toList.map fun c => if c = '|' then soh else byte c

/-- Two orders, one chunk each: the first is erased before it is handled, which leaves its
text where it was, and handled before the second chunk is written over it. -/
def chunkEach : List PipelineEvent :=
  [.read (fix "35=D|11=1|54=1|40=2|38=5|44=1|10=0|"), .network, .network, .network, .network,
   .pop, .handle ⟨1, 2, 3⟩ fun _ => [],
   .read (fix "35=D|11=2|54=1|40=2|38=5|44=1|10=0|"), .network, .network,
   .pop, .handle ⟨4, 5, 6⟩ fun _ => []]

theorem run_idsKept_chunkEach :
    ∃ w : Recorded 131072, run step (new (.new 4 false {})) chunkEach = some w ∧
      w.handled.map (fun m => numericId m.1.clOrdID) = [1, 2] ∧ w.IdsKept := by
  have hclear : Along step Clear (new (.new 4 false {}) : Recorded 131072) chunkEach := by
    decide +kernel
  have hids : (run step (new (.new 4 false {}) : Recorded 131072) chunkEach).map
      (fun w => w.handled.map fun m => numericId m.1.clOrdID) = some [1, 2] := by decide +kernel
  obtain ⟨w, hw, heq⟩ := Option.map_eq_some_iff.mp hids
  exact ⟨w, hw, heq, run_idsKept hclear hw⟩

/-- Two orders in one chunk: the first is erased before it is popped, and the second has
moved to where its id was. -/
def oneChunk : List PipelineEvent :=
  [.read (fix "35=D|11=1|54=1|40=2|38=5|44=1|10=0|35=D|11=2|54=1|40=2|38=5|44=1|10=0|"),
   .network, .network, .network, .pop, .handle ⟨1, 2, 3⟩ fun _ => []]

/-- The order 1 is booked as order 2. -/
theorem oneChunk_idsLost :
    ∃ w : Recorded 131072, run step (new (.new 4 false {})) oneChunk = some w ∧
      w.parsed.map (fun m => numericId m.clOrdID) = [1] ∧
      w.handled.map (fun m => numericId m.1.clOrdID) = [2] ∧
      w.pipeline.gateway.engine.orderMap 1 = none ∧
      w.pipeline.gateway.engine.orderMap 2 = some 3 ∧ ¬ w.IdsKept := by
  have hend : (run step (new (.new 4 false {}) : Recorded 131072) oneChunk).map (fun w =>
      (w.parsed.map fun m => numericId m.clOrdID, w.handled.map fun m => numericId m.1.clOrdID,
        w.pipeline.gateway.engine.orderMap 1, w.pipeline.gateway.engine.orderMap 2)) =
      some ([1], [2], none, some 3) := by decide +kernel
  obtain ⟨w, hw, heq⟩ := Option.map_eq_some_iff.mp hend
  obtain ⟨hparsed, hrest⟩ := Prod.mk.inj heq
  obtain ⟨hhandled, hrest⟩ := Prod.mk.inj hrest
  obtain ⟨hfirst, hsecond⟩ := Prod.mk.inj hrest
  refine ⟨w, hw, hparsed, hhandled, hfirst, hsecond, fun hkept => ?_⟩
  have hread : (w.handled.map fun m => numericId m.1.clOrdID)[0]? = some 2 := by rw [hhandled]; rfl
  rw [List.getElem?_map] at hread
  obtain ⟨⟨m, clock⟩, hm, hid⟩ := Option.map_eq_some_iff.mp hread
  obtain ⟨m0, hm0, hsame, -⟩ := hkept 0 m clock hm
  have hsaid : (w.parsed.map fun m => numericId m.clOrdID)[0]? = some 1 := by rw [hparsed]; rfl
  rw [List.getElem?_map, hm0] at hsaid
  have hone : numericId m0.clOrdID = 1 := Option.some.inj hsaid
  have htwo : numericId m.clOrdID = 2 := hid
  rw [htwo, hone] at hsame
  exact absurd hsame (by decide)

end Recorded
end LobCity
