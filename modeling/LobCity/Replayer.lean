import LobCity.Drains
import LobCity.FixEncoding

/-! The load generator in front of the server: whatever TCP makes of the stream of its
`generate_fix_message`, and whichever thread runs when, the gateway handles the generated
orders, in order. -/
namespace LobCity
open Library
open Accumulator (framer)
open Recorded (fix)

namespace Replayer

/-- The prices are whole dollars, and written with two decimals. -/
def priceText (price : Nat) : List Byte := decimal price ++ fix ".00"

def generateFixMessage (orderId : Nat) : List Byte :=
  let side := if orderId % 2 = 0 then byte '1' else byte '2'
  let price := 150 + orderId % 10
  fix "8=FIX.4.2|35=D|11=" ++ decimal orderId ++ fix "|54=" ++ [side] ++ fix "|38=100|44=" ++
    priceText price ++ fix "|40=2|10=000|"

/-- All orders of a session, ids from 1 on. -/
def messages (numOrders : Nat) : List (List Byte) := (List.range' 1 numOrders).map generateFixMessage

def order (orderId : Nat) : FixMessage where
  msgType := byte 'D'
  side := if orderId % 2 = 0 then byte '1' else byte '2'
  ordType := byte '2'
  qty := 100
  price := Int64.ofInt ((150 + orderId % 10) * 10000 : ℕ)
  clOrdID := decimal orderId
  origClOrdID := []

def orders (numOrders : Nat) : List FixMessage := (List.range' 1 numOrders).map order

section Fields
variable (orderId : Nat)

theorem priceText_clear (price : Nat) : byte '=' ∉ priceText price ∧ soh ∉ priceText price := by
  have hsign : byte '=' ∉ fix ".00" := by decide
  have hdelim : soh ∉ fix ".00" := by decide
  obtain ⟨hs, hd⟩ := not_mem_decimal price
  exact ⟨by simp [priceText, hs, hsign], by simp [priceText, hd, hdelim]⟩

def text : FixText where
  body := [⟨8, fix "FIX.4.2", by decide⟩, ⟨35, fix "D", by decide⟩,
    ⟨11, decimal orderId, (not_mem_decimal orderId).2⟩,
    ⟨54, [if orderId % 2 = 0 then byte '1' else byte '2'], by split_ifs <;> decide⟩,
    ⟨38, fix "100", by decide⟩, ⟨44, priceText (150 + orderId % 10), (priceText_clear _).2⟩,
    ⟨40, fix "2", by decide⟩]
  trailer := ⟨10, fix "000", by decide⟩
  body_tag := by simp
  trailer_tag := rfl

theorem generateFixMessage_eq : generateFixMessage orderId = (text orderId).wire := by
  have hfront : fix "8=FIX.4.2|35=D|11=" = decimal 8 ++ byte '=' :: fix "FIX.4.2" ++ [soh] ++
      (decimal 35 ++ byte '=' :: fix "D" ++ [soh]) ++ decimal 11 ++ [byte '='] := by decide
  have hside : fix "|54=" = [soh] ++ decimal 54 ++ [byte '='] := by decide
  have hqty : fix "|38=100|44=" = [soh] ++ (decimal 38 ++ byte '=' :: fix "100" ++ [soh]) ++
      decimal 44 ++ [byte '='] := by decide
  have hback : fix "|40=2|10=000|" = [soh] ++ (decimal 40 ++ byte '=' :: fix "2" ++ [soh]) ++
      (decimal 10 ++ byte '=' :: fix "000" ++ [soh]) := by decide
  rw [generateFixMessage, hfront, hside, hqty, hback]
  simp [text, FixText.wire, FixField.wire, FixField.text]

/-- No field in front of the last one looks like the end of the message. -/
theorem text_shown : ∀ f ∈ (text orderId).body, ¬ f.Hides := by
  have hsign : byte '=' ∈ checksumTag := by decide
  have hvalue {v : List Byte} (h : byte '=' ∉ v) : ¬ checksumTag <:+: v :=
    fun hin => h (hin.subset hsign)
  simp only [text, List.forall_mem_cons, FixField.Hides]
  refine ⟨?_, ?_, ?_, ?_, ?_, ?_, ?_, fun f hf => absurd hf List.not_mem_nil⟩
  · exact not_or.mpr ⟨by decide, hvalue (by decide)⟩
  · exact not_or.mpr ⟨by decide, hvalue (by decide)⟩
  · exact not_or.mpr ⟨by decide, hvalue (not_mem_decimal orderId).1⟩
  · exact not_or.mpr ⟨by decide, hvalue (by split_ifs <;> decide)⟩
  · exact not_or.mpr ⟨by decide, hvalue (by decide)⟩
  · exact not_or.mpr ⟨by decide, hvalue (priceText_clear _).1⟩
  · exact not_or.mpr ⟨by decide, hvalue (by decide)⟩

theorem parsed?_eq (frame : List Byte) :
    parsed? frame = if (parsedText frame).1 then some (parsedText frame).2 else none := by
  unfold parsed? parsedText
  cases hparse : parseFixMessage frame with
  | mk accepted msg => cases accepted <;> rfl

/-- A whole number of dollars, in the prices of the engine. -/
theorem priceText_numeral (price : Nat) :
    ∃ n : Numeral, priceText price = n.text ∧ n.price = (price * 10000 : ℕ) := by
  obtain ⟨ds, -, htext, hvalue⟩ := decimal_digits price
  refine ⟨⟨ds, some [0, 0]⟩, ?_, ?_⟩
  · rw [priceText, htext]
    rfl
  · have hcents : places 4 ([0, 0] : Digits) = 0 := by decide
    rw [Numeral.price_eq, Numeral.scaled, hvalue, Option.elim_some, hcents, Nat.add_zero]
    norm_num

theorem text_decodes {n : Numeral} (htext : priceText (150 + orderId % 10) = n.text)
    (hfits : Fits64 n.price) :
    let fields := (text orderId).body ++ [(text orderId).trailer]
    Decodes fields (.ofFields (fields.map FixField.pair)) := by
  have hqty : ∃ ds : Digits, fix "100" = digitText ds ∧ Fits64 (positional ds) :=
    ⟨[1, 0, 0], by decide, by decide⟩
  have hprice : ∃ n : Numeral, priceText (150 + orderId % 10) = n.text ∧ Fits64 n.price :=
    ⟨n, htext, hfits⟩
  refine ofFields_decodes ?_ ?_ ?_
  · simp [text]
  · simpa [text] using hqty
  · simpa [text] using hprice

/-- What is generated is parsed as the order that was meant. -/
theorem parsed?_generated : parsed? (generateFixMessage orderId) = some (order orderId) := by
  set fields := (text orderId).body ++ [(text orderId).trailer] with hfields
  have hwire : generateFixMessage orderId = serialise fields true := by
    rw [generateFixMessage_eq, FixText.wire, serialise, if_pos rfl, hfields, List.flatMap_append,
      List.flatMap_singleton]
  obtain ⟨n, htext, hprice⟩ := priceText_numeral (150 + orderId % 10)
  have hmod : orderId % 10 < 10 := Nat.mod_lt _ (by decide)
  have hfits : Fits64 n.price := by
    rw [hprice]
    exact fits_natCast (by omega)
  have hdecodes : Decodes fields (.ofFields (fields.map FixField.pair)) :=
    text_decodes orderId htext hfits
  have hqty : lastValue fields 38 = some (digitText [1, 0, 0]) := by
    have hdigits : fix "100" = digitText [1, 0, 0] := by decide
    rw [← hdigits]
    rfl
  have hpriced : lastValue fields 44 = some n.text := by
    rw [← htext]
    rfl
  rw [parsed?_eq, hwire, parsedText_serialise, if_pos rfl]
  have hprice' : (Int64.ofInt ((150 + orderId % 10) * 10000 : ℕ)).toInt = n.price := by
    rw [hprice]
    exact toInt_ofInt_natCast (by omega)
  generalize ParsedFixMessage.ofFields (fields.map FixField.pair) = msg at hdecodes ⊢
  obtain ⟨msgType, side, ordType, qty, price, clOrdID, origClOrdID⟩ := msg
  obtain rfl : msgType = byte 'D' := hdecodes.msgType
  obtain rfl : side = if orderId % 2 = 0 then byte '1' else byte '2' := hdecodes.side
  obtain rfl : ordType = byte '2' := hdecodes.ordType
  obtain rfl : qty = 100 := Int64.toInt_inj.mp (hdecodes.qty _ hqty)
  obtain rfl : price = Int64.ofInt ((150 + orderId % 10) * 10000 : ℕ) :=
    Int64.toInt_inj.mp ((hdecodes.price n hpriced).trans hprice'.symm)
  obtain rfl : clOrdID = decimal orderId := hdecodes.clOrdID
  obtain rfl : origClOrdID = [] := hdecodes.origClOrdID
  rfl

theorem numericId_order : numericId (order orderId).clOrdID = UInt64.ofNat orderId := by
  obtain ⟨ds, -, htext, hvalue⟩ := decimal_digits orderId
  show (parseFastInt (decimal orderId)).toUInt64 = _
  rw [htext, parseFastInt_digitText, hvalue, Int64.ofInt_eq_ofNat]
  rfl

end Fields

variable {numOrders : Nat}

theorem cut_messages (numOrders : Nat) :
    framer.cut (messages numOrders).flatten = (messages numOrders, []) := by
  have htexts : messages numOrders = ((List.range' 1 numOrders).map text).map FixText.wire := by
    rw [messages, List.map_map]
    exact List.map_congr_left fun i _ => generateFixMessage_eq i
  have hcut := (FixText.cut_wire_iff ((List.range' 1 numOrders).map text)).mpr fun m hm => by
    obtain ⟨i, -, rfl⟩ := List.mem_map.mp hm
    exact text_shown i
  rwa [List.flatMap_def, ← htexts] at hcut

theorem parsed_messages (numOrders : Nat) :
    (messages numOrders).filterMap parsed? = orders numOrders := by
  rw [messages, List.filterMap_map, orders, ← List.filterMap_eq_map]
  exact List.filterMap_congr fun i _ => parsed?_generated i

theorem cutReads_eq {reads : List (List Byte)} (hreads : ∀ readBuf ∈ reads, readBuf ≠ []) :
    cutReads reads = framer.cut reads.flatten := by
  rw [← Framer.foldl_feed_nil reads (F := framer) rfl, cutReads]
  refine List.foldl_ext _ _ _ fun state readBuf hread => ?_
  rw [cutRead, if_neg (hreads readBuf hread)]

theorem receivedFrom_prefix {reads : List (List Byte)} (hreads : ∀ readBuf ∈ reads, readBuf ≠ [])
    (hstream : reads.flatten <+: (messages numOrders).flatten) :
    receivedFrom reads <+: orders numOrders := by
  have hfront := Framer.cut_prefix (F := framer) hstream
  rw [cut_messages] at hfront
  rw [receivedFrom, cutReads_eq hreads, ← parsed_messages]
  exact hfront.filterMap parsed?

theorem receivedFrom_all {reads : List (List Byte)} (hreads : ∀ readBuf ∈ reads, readBuf ≠ [])
    (hstream : reads.flatten = (messages numOrders).flatten) : receivedFrom reads = orders numOrders := by
  rw [receivedFrom, cutReads_eq hreads, hstream, cut_messages, parsed_messages]

/-- Under the default limits a generated order is turned away for its distance from the market
or for the rate, if at all. -/
theorem checkOrder_generated {r : RiskEngine} (hr : r.config = {}) {msg : FixMessage}
    (hmsg : msg.fields ∈ (orders numOrders).map ParsedFixMessage.fields) (nowNs : UInt64) :
    (r.checkOrder msg nowNs).1 ∈ [RiskRejectReason.none, .priceCollar, .rateLimit] := by
  obtain ⟨o, ho, hsame⟩ := List.mem_map.mp hmsg
  obtain ⟨i, -, rfl⟩ := List.mem_map.mp ho
  have hqty : msg.qty = 100 := (congrArg ParsedFixMessage.qty hsame).symm
  have hordType : msg.ordType = byte '2' := (congrArg ParsedFixMessage.ordType hsame).symm
  have hprice : msg.price = Int64.ofInt ((150 + i % 10) * 10000 : ℕ) :=
    (congrArg ParsedFixMessage.price hsame).symm
  have hprices : ∀ d < 10, ¬ Int64.ofInt ((150 + d) * 10000 : ℕ) ≤ 0 ∧
      ¬ Int64.ofInt ((150 + d) * 10000 : ℕ) * 100 > 100000000000 := by decide +kernel
  obtain ⟨hpos, hnotional⟩ := hprices (i % 10) (Nat.mod_lt _ (by decide))
  rw [← hprice] at hpos hnotional
  have hlimit : byte '2' ≠ byte '1' := by decide
  have hv : RiskEngine.checkValidity msg = .none := by
    have hzero : ¬ (100 : Int64) ≤ 0 := by decide
    rw [RiskEngine.checkValidity, hqty, if_neg hzero, if_neg fun h => hpos h.2]
  have hs {r' : RiskEngine} (hr' : r'.config = {}) : r'.checkFatFingerSize msg = .none := by
    have hsmall : ¬ toQuantity 100 > (1000000 : Quantity) := by decide
    rw [RiskEngine.checkFatFingerSize, hr', hqty, if_neg hsmall]
  have hn {r' : RiskEngine} (hr' : r'.config = {}) : r'.checkNotional msg = .none := by
    rw [RiskEngine.checkNotional, hordType, if_neg hlimit, hr', hqty, if_neg hnotional]
  have hcollar (r' : RiskEngine) :
      r'.checkPriceCollar msg ∈ [RiskRejectReason.none, .priceCollar, .rateLimit] := by
    unfold RiskEngine.checkPriceCollar
    rw [hordType, if_neg hlimit]
    split
    · decide
    · dsimp only
      split_ifs <;> decide
  have hrate (r' : RiskEngine) :
      (r'.checkRateLimit nowNs).1 ∈ [RiskRejectReason.none, .priceCollar, .rateLimit] := by
    unfold RiskEngine.checkRateLimit
    dsimp only
    split_ifs <;> decide
  set r1 := { r with stats.totalChecked := r.stats.totalChecked + 1 } with hr1
  have hr1' : r1.config = {} := hr
  unfold RiskEngine.checkOrder
  dsimp only
  rw [← hr1, if_neg (not_not.mpr hv), if_neg (not_not.mpr (hs hr1')), if_neg (not_not.mpr (hn hr1'))]
  split_ifs
  · exact hcollar _
  · exact hrate _
  · exact List.mem_cons_self

end Replayer

namespace System
variable {Size : Nat} [NeZero Size] {w : System Size} {g : OrderEntryGateway}
  {evs : List SystemEvent} {numOrders : Nat}

theorem handle_config (x : Exchange) (m : FixMessage × Clock) :
    (x.handle m).1.risk.config = x.risk.config := by
  have hscreen : (x.screen m).2.config = x.risk.config := x.synced.checkOrder_config m.1 m.2.risk
  unfold Exchange.handle
  dsimp only
  split_ifs
  · exact hscreen
  · exact hscreen
  · rfl
  · rfl
  · exact hscreen
  · exact hscreen
  · rfl

theorem handleAll_config (x : Exchange) (msgs : List (FixMessage × Clock)) :
    (x.handleAll msgs).risk.config = x.risk.config := by
  induction msgs generalizing x with
  | nil => rfl
  | cons m msgs ih => exact (ih (x.handle m).1).trans (handle_config x m)

/-- A session of the load generator, in any interleaving and as far as it has come: the orders
handled are the first of those that it generates, also by their ids if no step of the network
thread (a read, an erase, the end of a connection) touches an id on its way; under the default
limits none is turned away but by the collar and the rate; and once all has come in and every
thread waits, all are handled. -/
theorem run_replayed (hg : g.Publishing) (hrun : run step (new g : System Size) evs = some w)
    (hreads : ∀ readBuf ∈ w.reads, readBuf ≠ [])
    (hstream : w.reads.flatten <+: (Replayer.messages numOrders).flatten) :
    (w.handled.map fun m => m.1.fields) <+:
        (Replayer.orders numOrders).map ParsedFixMessage.fields ∧
      (Along step Clear (new g : System Size) evs →
        w.handled.map Prod.fst <+: Replayer.orders numOrders ∧
          (w.handled.map fun m => numericId m.1.clOrdID) <+:
            (List.range' 1 numOrders).map UInt64.ofNat) ∧
      (g.risk.config = {} → ∀ k m, w.handled[k]? = some m →
        ((g.exchange.handleAll (w.handled.take k)).screen m).1 ∈
          [RiskRejectReason.none, .priceCollar, .rateLimit]) ∧
      (w.reads.flatten = (Replayer.messages numOrders).flatten → w.Idle →
        w.handled.length = numOrders) := by
  have h := run_delivers hg hrun
  have hreceived := Replayer.receivedFrom_prefix hreads hstream
  have hfields := h.fields_prefix.trans (hreceived.map ParsedFixMessage.fields)
  refine ⟨hfields, fun hclear => ?_, fun hcfg k m hm => ?_, fun hall hidle => ?_⟩
  · have hkept : w.recorded.Kept := run_kept_along (fun _ _ _ h hok hs => kept_step h hok hs)
      (Recorded.new_kept g) hclear hrun
    have hfront : w.handled.map Prod.fst <+: w.parsed := ⟨_, (hkept.texts fun _ => []).symm⟩
    have hparsed : w.parsed <+: receivedFrom w.reads := by
      rw [h.receives.messages]
      exact List.prefix_append _ _
    have horders := (hfront.trans hparsed).trans hreceived
    have hids : (w.handled.map Prod.fst).map (fun m => numericId m.clOrdID) <+:
        (Replayer.orders numOrders).map fun m => numericId m.clOrdID := horders.map _
    rw [List.map_map, Replayer.orders, List.map_map] at hids
    exact ⟨horders, by simpa [Function.comp_def, Replayer.numericId_order] using hids⟩
  · have hmem : m.1.fields ∈ (Replayer.orders numOrders).map ParsedFixMessage.fields :=
      hfields.subset (List.mem_map_of_mem (List.mem_of_getElem? hm))
    have hlimits : (g.exchange.handleAll (w.handled.take k)).synced.config = {} :=
      (handleAll_config g.exchange _).trans hcfg
    exact Replayer.checkOrder_generated hlimits hmem _
  · have hlength := congrArg List.length (h.idle hidle).1
    rw [Replayer.receivedFrom_all hreads hall] at hlength
    simpa [Replayer.orders] using hlength

def replayedTwo : List SystemEvent :=
  let stream := (Replayer.messages 2).flatten
  [.pipeline (.read (stream.take 18)), .pipeline .network, .pipeline (.read ((stream.drop 18).take 46)),
   .pipeline .network, .pipeline .network, .pipeline .network, .pipeline .pop,
   .pipeline (.handle ⟨1, 2, 3⟩ fun _ => []), .pipeline .network, .pipeline (.read (stream.drop 64)),
   .pipeline .network, .pipeline .network, .pipeline .network, .pipeline .network, .pipeline .pop,
   .pipeline (.handle ⟨4, 5, 6⟩ fun _ => []), .popBbo, .publishBbo]

theorem run_replayed_two :
    ∃ w, run step start replayedTwo = some w ∧ w.handled.length = 2 ∧
      (w.handled.map fun m => numericId m.1.clOrdID) <+: [1, 2] ∧
      ∀ k m, w.handled[k]? = some m →
        ((start.gateway.exchange.handleAll (w.handled.take k)).screen m).1 ∈
          [RiskRejectReason.none, .priceCollar, .rateLimit] := by
  have hclear : Along step Clear start replayedTwo := by decide +kernel
  have hend : (run step start replayedTwo).map (fun w => (w.handled.length, w.reads)) =
      some (2, [(Replayer.messages 2).flatten.take 18, ((Replayer.messages 2).flatten.drop 18).take 46,
        (Replayer.messages 2).flatten.drop 64]) := by decide +kernel
  obtain ⟨w, hw, heq⟩ := Option.map_eq_some_iff.mp hend
  obtain ⟨hlength, hreads⟩ := Prod.mk.inj heq
  have hstream : w.reads.flatten <+: (Replayer.messages 2).flatten := by
    rw [hreads]
    decide +kernel
  obtain ⟨-, hids, hverdicts, -⟩ := run_replayed (OrderEntryGateway.new_publishing 4 {}) hw
    (by rw [hreads]; decide +kernel) hstream
  exact ⟨w, hw, hlength, (hids hclear).2, hverdicts rfl⟩

end System
end LobCity
