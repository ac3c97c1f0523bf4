import LobCity.FixGrammar
import LobCity.Gateway

/-! What is known of an order the gateway admits, from the bytes it came in. The syntax of
a value, the side code and the presence of a tag are checked nowhere; what the risk check
asks for is a positive quantity and, off the market, a positive price, and only a field
under tag 38 or 44 can have set those. -/
namespace LobCity
open Library Pair

structure Admitted (fields : List FieldText) (order : Order) : Prop where
  qty : ∃ v, lastSaid 38 some fields = some v ∧ 0 < parseFastInt v ∧
    ((parseFastInt v).toInt < 2 ^ 32 → (order.quantity.toNat : ℤ) = (parseFastInt v).toInt) ∧
    ∀ ds : Digits, v = digitText ds → positional ds < 2 ^ 32 → order.quantity.toNat = positional ds
  isMarket : order.isMarket = true ↔ lastSaid 40 List.head? fields = some (byte '1')
  price : order.isMarket = false → ∃ v, lastSaid 44 some fields = some v ∧
    0 < parseFastDecimal v ∧ order.price = parseFastDecimal v ∧
    ∀ n : Numeral, v = n.text → Fits64 n.price → order.price.toInt = n.price
  side : order.side = .buy ↔ lastSaid 54 List.head? fields = some (byte '1')
  id : order.id = numericId ((lastSaid 11 some fields).getD [])

section Components
variable {fields : List FieldText}

theorem lastSaid_map {β : Type} (t : Int32) (read : List Byte → β) (fields : List FieldText) :
    lastSaid t (fun v => some (read v)) fields = (lastSaid t some fields).map read := by
  have hsaid (x : FieldText) : said t (fun v => some (read v)) x = (said t some x).map read := by
    unfold said
    split_ifs <;> rfl
  have hfun : said t (fun v => some (read v)) = fun x => (said t some x).map read := funext hsaid
  rw [lastSaid, lastSaid, ← List.getLast?_map, List.map_filterMap, hfun]

theorem exists_of_getD_pos {t : Int32} {read : List Byte → Int64}
    (h : 0 < (lastSaid t (fun v => some (read v)) fields).getD 0) :
    ∃ v, lastSaid t some fields = some v ∧
      (lastSaid t (fun v => some (read v)) fields).getD 0 = read v := by
  rw [lastSaid_map t read] at h ⊢
  cases hlast : lastSaid t some fields with
  | none =>
    rw [hlast] at h
    exact absurd h Int64.lt_irrefl
  | some v => exact ⟨v, rfl, rfl⟩

/-- A code that is not the default is the one that is said last. -/
theorem getD_eq_iff {t : Int32} {c : Byte} (hc : c ≠ 0) :
    (lastSaid t List.head? fields).getD 0 = c ↔ lastSaid t List.head? fields = some c := by
  cases lastSaid t List.head? fields with
  | none => simp [hc.symm]
  | some b => simp

end Components

theorem Engine.acquire_cell (e : Engine) (id : OrderId) (p : Price) (q : Quantity) (s : Side) (m : Bool) :
    (e.acquire id p q s m).2.heap (e.acquire id p q s m).1 = Order.new id p q s m := by
  unfold acquire OrderPool.acquire
  cases e.freeList with
  | nil => simp
  | cons a rest => simp [Order.new]

/-- The cell that is acquired for a message, and the engine with the order in it. -/
def Engine.acquireFor (e : Engine) (msg : FixMessage) : Addr × Engine :=
  e.acquire (numericId msg.clOrdID) msg.price (toQuantity msg.qty)
    (if msg.side = byte '1' then .buy else .sell) (msg.ordType = byte '1')

def FixMessage.order (msg : FixMessage) : Order :=
  Order.new (numericId msg.clOrdID) msg.price (toQuantity msg.qty)
    (if msg.side = byte '1' then .buy else .sell) (msg.ordType = byte '1')

theorem Admitted.of_valid {fields : List FieldText} {msg : FixMessage} (hmsg : msg = .ofFields fields)
    (hvalid : RiskEngine.checkValidity msg = .none) : Admitted fields msg.order := by
  obtain ⟨hqty, hprice⟩ := RiskEngine.checkValidity_iff.mp hvalid
  have hmarket : msg.ordType = byte '1' ↔ lastSaid 40 List.head? fields = some (byte '1') := by
    rw [hmsg]
    exact getD_eq_iff (by decide)
  have hbuy : msg.side = byte '1' ↔ lastSaid 54 List.head? fields = some (byte '1') := by
    rw [hmsg]
    exact getD_eq_iff (by decide)
  constructor
  case qty =>
    rw [hmsg] at hqty
    obtain ⟨v, hv, hread⟩ := exists_of_getD_pos hqty
    have hsame : msg.qty = parseFastInt v := by rw [hmsg]; exact hread
    rw [← hmsg, hsame] at hqty
    have hpos : 0 < (parseFastInt v).toInt := Int64.lt_iff_toInt_lt.mp hqty
    have hexact (hlt : (parseFastInt v).toInt < 2 ^ 32) :
        (msg.order.quantity.toNat : ℤ) = (parseFastInt v).toInt := by
      have hcast := toNat_toQuantity (Int.le_of_lt hpos)
      rw [Int.emod_eq_of_lt (Int.le_of_lt hpos) hlt, ← hsame] at hcast
      exact hcast.trans (congrArg Int64.toInt hsame)
    refine ⟨v, hv, hqty, hexact, fun ds hds hlt => ?_⟩
    have hnumber : (parseFastInt v).toInt = positional ds := by
      rw [hds, parseFastInt_digitText, toInt_ofInt_natCast (by omega)]
    have hvalue := hexact (by omega)
    omega
  case isMarket => simpa [FixMessage.order, Order.new] using hmarket
  case price =>
    intro hlimit
    have hne : msg.ordType ≠ byte '1' := of_decide_eq_false hlimit
    have hpos := hprice hne
    rw [hmsg] at hpos
    obtain ⟨v, hv, hread⟩ := exists_of_getD_pos hpos
    have hsame : msg.price = parseFastDecimal v := by rw [hmsg]; exact hread
    rw [← hmsg, hsame] at hpos
    refine ⟨v, hv, hpos, hsame, fun n hn hfits => ?_⟩
    have horder : msg.order.price = parseFastDecimal n.text := hsame.trans (congrArg _ hn)
    rw [horder, Numeral.toInt_parse hfits]
  case side =>
    rw [← hbuy, FixMessage.order, Order.new]
    split_ifs with h
    · simp [h]
    · simp [h]
  case id => rw [FixMessage.order, Order.new, hmsg]; rfl

namespace OrderEntryGateway
variable {g : OrderEntryGateway} {msg : FixMessage} {clock : Clock}

theorem handleNewOrderSingle_eq (hv : g.verdict msg clock = .none) :
    g.handleNewOrderSingle msg clock =
      ((g.engine.acquireFor msg).2.processOrder (g.engine.acquireFor msg).1 clock.time clock.now).map
        (⟨·, g.screened msg clock⟩) := by
  have hv : (g.synced.checkOrder msg clock.risk).1 = .none := hv
  simp [handleNewOrderSingle, Engine.acquireFor, screened, hv]

/-- What the order that is admitted to the matcher says, and which fields of the buffer
said it. -/
theorem admitted_order (g : OrderEntryGateway) (buffer : List Byte) (clock : Clock)
    (hparsed : (parsedText buffer).1 = true) (hnew : (parsedText buffer).2.msgType = byte 'D')
    (hv : g.verdict (parsedText buffer).2 clock = .none) :
    ∃ (closed : List FieldText) (last : Option FieldText) (a : Addr) (e : Engine),
      buffer = joined closed last ∧
      g.onParsedMessage (parsedText buffer).2 clock =
        (e.processOrder a clock.time clock.now).map (⟨·, g.screened (parsedText buffer).2 clock⟩) ∧
      Admitted (closed ++ last.toList) (e.heap a) := by
  obtain ⟨closed, last, rfl⟩ := (parseFixMessage_accepted_iff buffer).mp hparsed
  have hmsg := congrArg Prod.snd (parsedText_joined_eq closed last)
  obtain ⟨hvalid, -⟩ := RiskEngine.checkOrder_eq_none_iff.mp hv
  let cell := g.engine.acquireFor (parsedText (joined closed last)).2
  refine ⟨closed, last, cell.1, cell.2, rfl, ?_, ?_⟩
  · rw [onParsedMessage, if_pos hnew, handleNewOrderSingle_eq hv]
  · rw [show cell.2.heap cell.1 = _ from Engine.acquire_cell ..]
    exact Admitted.of_valid hmsg hvalid

theorem admitted_order_limit :
    let fields : List FieldText := [⟨[byte '3', byte '5'], [byte 'D'], by decide, by decide⟩,
      ⟨[byte '1', byte '1'], [byte '7'], by decide, by decide⟩,
      ⟨[byte '5', byte '4'], [byte '1'], by decide, by decide⟩,
      ⟨[byte '3', byte '8'], [byte '2', byte '0'], by decide, by decide⟩,
      ⟨[byte '4', byte '0'], [byte '2'], by decide, by decide⟩,
      ⟨[byte '4', byte '4'], [byte '5'], by decide, by decide⟩]
    ∃ (a : Addr) (e : Engine), (e.heap a).quantity.toNat = 20 ∧ (e.heap a).side = .buy ∧
      (new 1 false {}).onParsedMessage (parsedText (joined fields none)).2 ⟨0, 0, 0⟩ =
        (e.processOrder a 0 0).map
          (⟨·, (new 1 false {}).screened (parsedText (joined fields none)).2 ⟨0, 0, 0⟩⟩) := by
  intro fields
  have hmsg := parsedText_joined_eq fields none
  have hparsed : (parsedText (joined fields none)).1 = true := by rw [hmsg]
  have hnew : (parsedText (joined fields none)).2.msgType = byte 'D' := by
    rw [hmsg]
    decide +kernel
  have hv : (new 1 false {}).verdict (parsedText (joined fields none)).2 ⟨0, 0, 0⟩ = .none := by
    rw [hmsg]
    decide +kernel
  obtain ⟨closed, last, a, e, hbuf, hstep, hadmitted⟩ :=
    admitted_order (new 1 false {}) (joined fields none) ⟨0, 0, 0⟩ hparsed hnew hv
  obtain ⟨rfl, rfl⟩ := joined_inj hbuf
  obtain ⟨v, hsaid, -, -, hnumber⟩ := hadmitted.qty
  have hv : some v = some (digitText [2, 0]) := hsaid.symm.trans (by decide +kernel)
  refine ⟨a, e, hnumber [2, 0] (Option.some.inj hv) (by decide), ?_, hstep⟩
  exact hadmitted.side.mpr (by decide +kernel)

/-- A sell, as its side is not `1`, of 20, as `:` is the digit behind `9`, without an id
and without an order type; another one without a side, at such a price; and a buy whose
quantity is under a tag that is read as 38, as `B` stands 18 behind `0`. -/
theorem loose_admitted :
    let fields : List FieldText := [⟨[byte '3', byte '5'], [byte 'D'], by decide, by decide⟩,
      ⟨[byte '5', byte '4'], [byte '3'], by decide, by decide⟩,
      ⟨[byte '3', byte '8'], [byte '1', byte ':'], by decide, by decide⟩,
      ⟨[byte '4', byte '4'], [byte '5'], by decide, by decide⟩]
    let sidelessFields : List FieldText := [⟨[byte '3', byte '5'], [byte 'D'], by decide, by decide⟩,
      ⟨[byte '3', byte '8'], [byte '2', byte '0'], by decide, by decide⟩,
      ⟨[byte '4', byte '4'], [byte '1', byte ':'], by decide, by decide⟩]
    let aliasedFields : List FieldText := [⟨[byte '3', byte '5'], [byte 'D'], by decide, by decide⟩,
      ⟨[byte '5', byte '4'], [byte '1'], by decide, by decide⟩,
      ⟨[byte '2', byte 'B'], [byte '2', byte '0'], by decide, by decide⟩,
      ⟨[byte '4', byte '4'], [byte '5'], by decide, by decide⟩]
    let msg := (parsedText (joined fields none)).2
    let sideless := (parsedText (joined sidelessFields none)).2
    let aliased := (parsedText (joined aliasedFields none)).2
    ((parsedText (joined fields none)).1 = true ∧ msg.msgType = byte 'D' ∧
      (new 1 false {}).verdict msg ⟨0, 0, 0⟩ = .none ∧
      (∀ x ∈ fields, x.key ≠ decimal 11 ∧ x.key ≠ decimal 40) ∧
      (∀ x ∈ fields, x.key = decimal 38 → ¬ ∀ c ∈ x.value, IsDigit c) ∧
      (∀ x ∈ fields, x.key = decimal 54 → x.value ≠ [byte '1'] ∧ x.value ≠ [byte '2']) ∧
      (FixMessage.order msg).quantity = 20 ∧ (FixMessage.order msg).side = .sell) ∧
    ((parsedText (joined sidelessFields none)).1 = true ∧ sideless.msgType = byte 'D' ∧
      (new 1 false {}).verdict sideless ⟨0, 0, 0⟩ = .none ∧
      (∀ x ∈ sidelessFields, x.key ≠ decimal 54 ∧ x.key ≠ decimal 40) ∧
      (∀ x ∈ sidelessFields, x.key = decimal 44 → ¬ ∀ c ∈ x.value, IsDigit c ∨ c = byte '.') ∧
      (FixMessage.order sideless).side = .sell ∧ (FixMessage.order sideless).price = 200000) ∧
    ((parsedText (joined aliasedFields none)).1 = true ∧ aliased.msgType = byte 'D' ∧
      (new 1 false {}).verdict aliased ⟨0, 0, 0⟩ = .none ∧
      (∀ x ∈ aliasedFields, x.key ≠ decimal 38) ∧ (FixMessage.order aliased).quantity = 20) := by
  intro fields sidelessFields aliasedFields msg sideless aliased
  have hparsed (closed : List FieldText) :
      parsedText (joined closed none) = (true, .ofFields closed) := by
    rw [parsedText_joined_eq, Option.toList_none, List.append_nil]
  have hmsg : msg = .ofFields fields := congrArg Prod.snd (hparsed fields)
  have hsideless : sideless = .ofFields sidelessFields := congrArg Prod.snd (hparsed sidelessFields)
  have haliased : aliased = .ofFields aliasedFields := congrArg Prod.snd (hparsed aliasedFields)
  simp only [hparsed]
  rw [hmsg, hsideless, haliased]
  refine ⟨?_, ?_, ?_⟩
  · decide +kernel
  · decide +kernel
  · decide +kernel

end OrderEntryGateway
end LobCity
