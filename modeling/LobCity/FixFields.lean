import LobCity.FixParser
import LobCity.Library.Pairs
import Mathlib.Data.List.TakeWhile

/-! Which buffers the parser accepts, and what it makes of one: a list of pairs, the last
one perhaps without a delimiter, each put into the message as the `switch` on its tag
says. The ids are compared as text, since views of two buffers are never the same. -/
namespace LobCity
open Library

/-- The bytes in front of an `=` and those behind it up to the delimiter. -/
abbrev FieldText := Pair (byte '=') soh

def FieldText.tag (x : FieldText) : Int32 := (parseFastInt x.key).toInt32

namespace ParsedFixMessage

variable {Id Id' : Type}

/-- The `switch` on a tag, with the field's value as bytes and as what ids are kept as. -/
def write (msg : ParsedFixMessage Id) (tag : Int32) (value : List Byte) (id : Id) :
    ParsedFixMessage Id :=
  if tag = 35 then { msg with msgType := value.head?.getD msg.msgType }
  else if tag = 54 then { msg with side := value.head?.getD msg.side }
  else if tag = 40 then { msg with ordType := value.head?.getD msg.ordType }
  else if tag = 38 then { msg with qty := parseFastInt value }
  else if tag = 44 then { msg with price := parseFastDecimal value }
  else if tag = 11 then { msg with clOrdID := id }
  else if tag = 41 then { msg with origClOrdID := id }
  else msg

theorem setField_eq_write (msg : ParsedFixMessage View) (buffer : List Byte) (tag : Int32)
    (ptr valueEnd : Nat) : msg.setField buffer tag ptr valueEnd =
      msg.write tag ((⟨ptr, valueEnd - ptr⟩ : View).read buffer) ⟨ptr, valueEnd - ptr⟩ := rfl

theorem map_write (f : Id → Id') (msg : ParsedFixMessage Id) (tag : Int32) (value : List Byte) (id : Id) :
    (msg.write tag value id).map f = (msg.map f).write tag value (f id) := by
  unfold write
  split_ifs <;> rfl

def put (msg : ParsedFixMessage (List Byte)) (x : FieldText) : ParsedFixMessage (List Byte) :=
  msg.write x.tag x.value x.value

def blank : ParsedFixMessage (List Byte) := { clOrdID := [], origClOrdID := [] }

end ParsedFixMessage

/-- The return value and the message, its ids looked up in the buffer. -/
def parsedText (buffer : List Byte) : Bool × ParsedFixMessage (List Byte) :=
  ((parseFixMessage buffer).1, (parseFixMessage buffer).2.map (·.read buffer))

section Scan
variable {buffer l rest : List Byte} {c : Byte} {ptr : Nat}

theorem scanTo_append (h : buffer.drop ptr = l ++ c :: rest) (hc : c ∉ l) :
    scanTo buffer c ptr = ptr + l.length := by
  have hl : ∀ b ∈ l, decide (b ≠ c) = true := fun b hb => decide_eq_true (ne_of_mem_of_not_mem hb hc)
  rw [scanTo, h, List.takeWhile_append_of_pos hl, List.takeWhile_cons_of_neg (by simp),
    List.append_nil]

theorem scanTo_end (h : buffer.drop ptr = l) (hc : c ∉ l) : scanTo buffer c ptr = ptr + l.length := by
  have hl : ∀ b ∈ l, decide (b ≠ c) = true := fun b hb => decide_eq_true (ne_of_mem_of_not_mem hb hc)
  rw [scanTo, h, List.takeWhile_eq_self_iff.mpr hl]

end Scan

section Field
variable {buffer tail : List Byte} {ptr : Nat}

theorem map_setField (msg : ParsedFixMessage View) {x : FieldText} {valueEnd : Nat}
    (hview : (⟨ptr, valueEnd - ptr⟩ : View).read buffer = x.value) :
    (msg.setField buffer x.tag ptr valueEnd).map (·.read buffer) = (msg.map (·.read buffer)).put x := by
  rw [ParsedFixMessage.setField_eq_write, ParsedFixMessage.map_write, hview]
  rfl

/-- One turn of the loop, at a field that ends at a delimiter or with the buffer. -/
theorem parseFields_text {x : FieldText} (hbuf : buffer.drop ptr = x.text ++ tail)
    (htail : tail.head?.getD soh = soh) (msg : ParsedFixMessage View) :
    ∃ msg', parseFields buffer ptr msg = parseFields buffer (ptr + x.text.length + 1) msg' ∧
      msg'.map (·.read buffer) = (msg.map (·.read buffer)).put x := by
  have hkey : buffer.drop ptr = x.key ++ byte '=' :: (x.value ++ tail) := by
    rw [hbuf, Pair.text, List.append_assoc, List.cons_append]
  have hvalue : buffer.drop (ptr + x.key.length + 1) = x.value ++ tail := by
    rw [Nat.add_assoc, ← List.drop_drop, hkey, ← List.drop_drop, List.drop_left]
    rfl
  have hlen : x.text.length = x.key.length + 1 + x.value.length := by
    rw [Pair.text, List.length_append, List.length_cons]
    omega
  have hsize : buffer.length - ptr = x.text.length + tail.length := by
    rw [← List.length_drop, hbuf, List.length_append]
  have htag : scanTo buffer (byte '=') ptr = ptr + x.key.length := scanTo_append hkey x.key_clear
  have hend : scanTo buffer soh (ptr + x.key.length + 1) = ptr + x.text.length := by
    have hstop : scanTo buffer soh (ptr + x.key.length + 1) =
        ptr + x.key.length + 1 + x.value.length := by
      cases tail with
      | nil => exact scanTo_end (hvalue.trans (List.append_nil _)) x.value_clear
      | cons c tail =>
        obtain rfl : c = soh := htail
        exact scanTo_append hvalue x.value_clear
    omega
  have hview : (⟨ptr + x.key.length + 1, ptr + x.text.length - (ptr + x.key.length + 1)⟩ :
      View).read buffer = x.value := by
    have hwidth : ptr + x.text.length - (ptr + x.key.length + 1) = x.value.length := by omega
    rw [View.read, hvalue, hwidth, List.take_left]
  have hnumber : (parseFastInt ((buffer.drop ptr).take (ptr + x.key.length - ptr))).toInt32 = x.tag := by
    rw [Nat.add_sub_cancel_left, hkey, List.take_left]
    rfl
  refine ⟨msg.setField buffer x.tag (ptr + x.key.length + 1) (ptr + x.text.length), ?_,
    map_setField msg hview⟩
  have hlt : ptr < buffer.length := by omega
  have hne : ptr + x.key.length ≠ buffer.length := by omega
  rw [parseFields, if_pos hlt]
  simp only [htag, hend, hnumber, if_neg hne]

end Field

section Joined
open Pair

theorem parseFields_end {buffer : List Byte} {ptr : Nat} (h : buffer.length ≤ ptr)
    (msg : ParsedFixMessage View) : parseFields buffer ptr msg = (true, msg) := by
  rw [parseFields, if_neg (Nat.not_lt.mpr h)]

theorem parseFields_joined {buffer : List Byte} {ptr : Nat} (closed : List FieldText)
    (last : Option FieldText) (hbuf : buffer.drop ptr = joined closed last)
    (msg : ParsedFixMessage View) :
    ∃ msg', parseFields buffer ptr msg = (true, msg') ∧ msg'.map (·.read buffer) =
      (closed ++ last.toList).foldl ParsedFixMessage.put (msg.map (·.read buffer)) := by
  induction closed generalizing ptr msg with
  | nil =>
    cases last with
    | none =>
      rw [joined_none, List.drop_eq_nil_iff] at hbuf
      exact ⟨msg, parseFields_end hbuf msg, rfl⟩
    | some x =>
      have hclosed : buffer.drop ptr = x.text ++ [] := by rw [hbuf, joined_some, List.append_nil]
      rw [joined_some] at hbuf
      obtain ⟨msg', hstep, hput⟩ := parseFields_text hclosed rfl msg
      have hsize : buffer.length - ptr = x.text.length := by rw [← List.length_drop, hbuf]
      exact ⟨msg', hstep.trans (parseFields_end (by omega) msg'), hput⟩
  | cons x closed ih =>
    rw [joined_cons] at hbuf
    obtain ⟨msg', hstep, hput⟩ := parseFields_text hbuf rfl msg
    have hrest : buffer.drop (ptr + x.text.length + 1) = joined closed last := by
      rw [Nat.add_assoc, ← List.drop_drop, hbuf, ← List.drop_drop, List.drop_left]
      rfl
    obtain ⟨msg'', hrun, hputs⟩ := ih hrest msg'
    refine ⟨msg'', hstep.trans hrun, ?_⟩
    rw [hputs, hput]
    rfl

theorem parsedText_joined (closed : List FieldText) (last : Option FieldText) :
    parsedText (joined closed last) = (true, (closed ++ last.toList).foldl .put .blank) := by
  obtain ⟨msg', hrun, hputs⟩ := parseFields_joined closed last List.drop_zero .reset
  rw [parsedText, parseFixMessage, hrun, hputs]
  simp [ParsedFixMessage.map, ParsedFixMessage.reset, ParsedFixMessage.blank, View.read, View.empty]

end Joined

section Accepted
open Pair
variable {buffer : List Byte} {ptr : Nat}

/-- Where a scan stops: at the first `c`, or at the end if there is none. -/
theorem scanTo_spec (c : Byte) (h : ptr ≤ buffer.length) :
    ∃ l, c ∉ l ∧ scanTo buffer c ptr = ptr + l.length ∧
      (buffer.drop ptr = l ∧ scanTo buffer c ptr = buffer.length ∨
        buffer.drop ptr = l ++ c :: buffer.drop (scanTo buffer c ptr + 1)) := by
  by_cases hc : c ∈ buffer.drop ptr
  · obtain ⟨l, rest, hdrop, hl⟩ := List.eq_append_cons_of_mem hc
    have hscan := scanTo_append hdrop hl
    have hrest : buffer.drop (scanTo buffer c ptr + 1) = rest := by
      rw [hscan, Nat.add_assoc, ← List.drop_drop, hdrop, ← List.drop_drop, List.drop_left]
      rfl
    exact ⟨l, hl, hscan, Or.inr (by rw [hrest, hdrop])⟩
  · have hscan := scanTo_end rfl hc
    refine ⟨_, hc, hscan, Or.inl ⟨rfl, ?_⟩⟩
    rw [hscan, List.length_drop]
    omega

theorem parseFields_accepted {msg : ParsedFixMessage View}
    (h : (parseFields buffer ptr msg).1 = true) :
    ∃ (closed : List FieldText) (last : Option FieldText), buffer.drop ptr = joined closed last := by
  induction ptr, msg using parseFields.induct buffer with
  | case1 ptr msg hlt tagEnd hend =>
    rw [parseFields, if_pos hlt, if_pos hend] at h
    cases h
  | case2 ptr msg hlt tagEnd hend tag valueEnd ih =>
    rw [parseFields, if_pos hlt, if_neg hend] at h
    obtain ⟨closed, last, hrest⟩ := ih h
    obtain ⟨key, hkey, htag, hcut⟩ := scanTo_spec (byte '=') (Nat.le_of_lt hlt)
    have hsign : buffer.drop ptr = key ++ byte '=' :: buffer.drop (tagEnd + 1) :=
      hcut.resolve_left fun hno => hend hno.2
    have hstart : tagEnd + 1 ≤ buffer.length :=
      Nat.lt_of_le_of_ne (scanTo_le (byte '=') (Nat.le_of_lt hlt)) hend
    obtain ⟨value, hvalue, hscan, hstop⟩ := scanTo_spec soh hstart
    cases hstop with
    | inl hlast =>
      refine ⟨[], some ⟨key, value, hkey, hvalue⟩, ?_⟩
      rw [joined_some, text, hsign, hlast.1]
    | inr hmore =>
      refine ⟨⟨key, value, hkey, hvalue⟩ :: closed, last, ?_⟩
      rw [joined_cons, text, hsign, hmore, hrest, List.append_assoc, List.cons_append]
  | case3 ptr msg hge =>
    refine ⟨[], none, ?_⟩
    rw [joined_none, List.drop_eq_nil_iff]
    exact Nat.le_of_not_lt hge

/-- What the parser accepts: pairs, whatever their keys are. -/
theorem parseFixMessage_accepted_iff (buffer : List Byte) : (parseFixMessage buffer).1 = true ↔
    ∃ (closed : List FieldText) (last : Option FieldText), buffer = joined closed last := by
  constructor
  · intro h
    obtain ⟨closed, last, hbuf⟩ := parseFields_accepted h
    exact ⟨closed, last, hbuf⟩
  · rintro ⟨closed, last, rfl⟩
    exact congrArg Prod.fst (parsedText_joined closed last)

end Accepted

section Components
variable {β : Type}

def said (t : Int32) (read : List Byte → Option β) (x : FieldText) : Option β :=
  if x.tag = t then read x.value else none

def lastSaid (t : Int32) (read : List Byte → Option β) (fields : List FieldText) : Option β :=
  (fields.filterMap (said t read)).getLast?

/-- The message of a list of fields, each component from what is said last under its tag. -/
def ParsedFixMessage.ofFields (fields : List FieldText) : ParsedFixMessage (List Byte) where
  msgType := (lastSaid 35 List.head? fields).getD 0
  side := (lastSaid 54 List.head? fields).getD 0
  ordType := (lastSaid 40 List.head? fields).getD 0
  qty := (lastSaid 38 (fun v => some (parseFastInt v)) fields).getD 0
  price := (lastSaid 44 (fun v => some (parseFastDecimal v)) fields).getD 0
  clOrdID := (lastSaid 11 some fields).getD []
  origClOrdID := (lastSaid 41 some fields).getD []

namespace ParsedFixMessage

theorem put_eq (msg : ParsedFixMessage (List Byte)) (x : FieldText) :
    msg.put x = ⟨(said 35 List.head? x).getD msg.msgType, (said 54 List.head? x).getD msg.side,
      (said 40 List.head? x).getD msg.ordType,
      (said 38 (fun v => some (parseFastInt v)) x).getD msg.qty,
      (said 44 (fun v => some (parseFastDecimal v)) x).getD msg.price,
      (said 11 some x).getD msg.clOrdID, (said 41 some x).getD msg.origClOrdID⟩ := by
  unfold put write said
  split_ifs <;> simp_all

theorem component_foldl_put (get : ParsedFixMessage (List Byte) → β) (t : Int32)
    (read : List Byte → Option β) (h : ∀ msg x, get (put msg x) = (said t read x).getD (get msg))
    (fields : List FieldText) :
    get (fields.foldl put blank) = (lastSaid t read fields).getD (get blank) :=
  foldl_eq_getLast?_filterMap h fields blank

theorem foldl_put (fields : List FieldText) : fields.foldl put blank = ofFields fields := by
  have heta (msg : ParsedFixMessage (List Byte)) : msg = ⟨msg.msgType, msg.side, msg.ordType, msg.qty,
    msg.price, msg.clOrdID, msg.origClOrdID⟩ := rfl
  rw [heta (fields.foldl put blank),
    component_foldl_put msgType 35 List.head? (fun msg x => congrArg msgType (put_eq msg x)),
    component_foldl_put side 54 List.head? (fun msg x => congrArg side (put_eq msg x)),
    component_foldl_put ordType 40 List.head? (fun msg x => congrArg ordType (put_eq msg x)),
    component_foldl_put qty 38 _ (fun msg x => congrArg qty (put_eq msg x)),
    component_foldl_put price 44 _ (fun msg x => congrArg price (put_eq msg x)),
    component_foldl_put clOrdID 11 some (fun msg x => congrArg clOrdID (put_eq msg x)),
    component_foldl_put origClOrdID 41 some (fun msg x => congrArg origClOrdID (put_eq msg x))]
  rfl

end ParsedFixMessage

theorem parsedText_joined_eq (closed : List FieldText) (last : Option FieldText) :
    parsedText (Pair.joined closed last) = (true, .ofFields (closed ++ last.toList)) := by
  rw [parsedText_joined, ParsedFixMessage.foldl_put]

end Components
end LobCity
