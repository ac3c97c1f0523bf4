import LobCity.Library.Buffer
import Mathlib.Data.UInt

/-! The FIX parser. Text is a list of bytes; a pointer into a buffer is an offset, a
`string_view` a `View` of the buffer. -/
namespace LobCity
open Library

abbrev Byte := UInt8

def byte (c : Char) : Byte := c.toNat.toUInt8

def soh : Byte := 1

/-- A parsed message; `Id` is what its two id fields hold, a view or the text itself. -/
structure ParsedFixMessage (Id : Type) where
  msgType : Byte := 0
  side : Byte := 0
  ordType : Byte := 0
  qty : Int64 := 0
  price : Int64 := 0
  clOrdID : Id
  origClOrdID : Id
deriving DecidableEq, Repr

namespace ParsedFixMessage

def reset : ParsedFixMessage View := { clOrdID := .empty, origClOrdID := .empty }

variable {Id Id' Id'' : Type}

def map (f : Id → Id') (msg : ParsedFixMessage Id) : ParsedFixMessage Id' :=
  { msg with clOrdID := f msg.clOrdID, origClOrdID := f msg.origClOrdID }

def ids (msg : ParsedFixMessage Id) : List Id := [msg.clOrdID, msg.origClOrdID]

theorem ids_map (f : Id → Id') (msg : ParsedFixMessage Id) : (msg.map f).ids = msg.ids.map f := rfl

theorem map_map (f : Id → Id') (g : Id' → Id'') (msg : ParsedFixMessage Id) :
    (msg.map f).map g = msg.map (g ∘ f) := rfl

theorem map_congr {f g : Id → Id'} {msg : ParsedFixMessage Id} (h : ∀ x ∈ msg.ids, f x = g x) :
    msg.map f = msg.map g := by
  have hcl : f msg.clOrdID = g msg.clOrdID := h _ (by simp [ids])
  have horig : f msg.origClOrdID = g msg.origClOrdID := h _ (by simp [ids])
  simp only [map, hcl, horig]

end ParsedFixMessage

/-- `*p - '0'` of a (signed) `char`. -/
def digit (c : Byte) : Int64 := c.toInt8.toInt64 - 48

def parseFastInt (text : List Byte) : Int64 := text.foldl (fun val c => val * 10 + digit c) 0

/-- The digit loop of `parseFastDecimal`: the value, and how many decimals it has seen. -/
def scanDecimal : List Byte → Int64 → Nat → Bool → Int64 × Nat
  | [], val, decimalCount, _ => (val, decimalCount)
  | c :: text, val, decimalCount, seenDot =>
    if c = byte '.' then scanDecimal text val decimalCount true
    else
      let val := val * 10 + digit c
      if seenDot then
        if decimalCount + 1 = 4 then (val, 4) else scanDecimal text val (decimalCount + 1) seenDot
      else scanDecimal text val decimalCount seenDot

/-- Four decimals, cut off or padded with zeros. -/
def parseFastDecimal (text : List Byte) : Int64 :=
  let (val, decimalCount) := scanDecimal text 0 0 false
  Nat.iterate (· * 10) (4 - decimalCount) val

/-- The first position from `ptr` on that holds `c`, else the length. -/
def scanTo (buffer : List Byte) (c : Byte) (ptr : Nat) : Nat :=
  ptr + ((buffer.drop ptr).takeWhile (· ≠ c)).length

/-- The `switch` on a tag, its value being the bytes from `ptr` to `valueEnd`. -/
def ParsedFixMessage.setField (msg : ParsedFixMessage View) (buffer : List Byte) (tag : Int32)
    (ptr valueEnd : Nat) : ParsedFixMessage View :=
  let view : View := ⟨ptr, valueEnd - ptr⟩
  let value := view.read buffer
  if tag = 35 then { msg with msgType := value.head?.getD msg.msgType }
  else if tag = 54 then { msg with side := value.head?.getD msg.side }
  else if tag = 40 then { msg with ordType := value.head?.getD msg.ordType }
  else if tag = 38 then { msg with qty := parseFastInt value }
  else if tag = 44 then { msg with price := parseFastDecimal value }
  else if tag = 11 then { msg with clOrdID := view }
  else if tag = 41 then { msg with origClOrdID := view }
  else msg

/-- `while (ptr < end)`: one field an iteration. -/
def parseFields (buffer : List Byte) (ptr : Nat) (outMsg : ParsedFixMessage View) :
    Bool × ParsedFixMessage View :=
  if ptr < buffer.length then
    let tagEnd := scanTo buffer (byte '=') ptr
    if tagEnd = buffer.length then (false, outMsg)
    else
      let tag := (parseFastInt ((buffer.drop ptr).take (tagEnd - ptr))).toInt32
      let valueEnd := scanTo buffer soh (tagEnd + 1)
      parseFields buffer (valueEnd + 1) (outMsg.setField buffer tag (tagEnd + 1) valueEnd)
  else (true, outMsg)
termination_by buffer.length - ptr
decreasing_by
  simp only [scanTo] at *
  omega

def parseFixMessage (buffer : List Byte) : Bool × ParsedFixMessage View :=
  parseFields buffer 0 .reset

section Within
variable {buffer : List Byte} {ptr : Nat}

theorem scanTo_le (c : Byte) (h : ptr ≤ buffer.length) : scanTo buffer c ptr ≤ buffer.length := by
  have hle : ((buffer.drop ptr).takeWhile (· ≠ c)).length ≤ (buffer.drop ptr).length :=
    (List.takeWhile_sublist _).length_le
  rw [List.length_drop] at hle
  unfold scanTo
  omega

theorem ParsedFixMessage.setField_within {msg : ParsedFixMessage View} {valueEnd : Nat} (tag : Int32)
    (hmsg : ∀ v ∈ msg.ids, v.Within buffer.length) (hptr : ptr ≤ valueEnd)
    (hend : valueEnd ≤ buffer.length) :
    ∀ v ∈ (msg.setField buffer tag ptr valueEnd).ids, v.Within buffer.length := by
  have hview : (⟨ptr, valueEnd - ptr⟩ : View).Within buffer.length := by
    show ptr + (valueEnd - ptr) ≤ buffer.length
    omega
  simp only [ids, List.forall_mem_cons] at hmsg ⊢
  unfold setField
  split_ifs
  all_goals simp [hmsg, hview]

theorem parseFields_within {outMsg : ParsedFixMessage View}
    (hmsg : ∀ v ∈ outMsg.ids, v.Within buffer.length) :
    ∀ v ∈ (parseFields buffer ptr outMsg).2.ids, v.Within buffer.length := by
  induction ptr, outMsg using parseFields.induct buffer with
  | case1 ptr outMsg hlt tagEnd hend =>
    rw [parseFields, if_pos hlt, if_pos hend]
    exact hmsg
  | case2 ptr outMsg hlt tagEnd hend tag valueEnd ih =>
    have htag : tagEnd ≤ buffer.length := scanTo_le (byte '=') (Nat.le_of_lt hlt)
    have hstart : tagEnd + 1 ≤ buffer.length := Nat.lt_of_le_of_ne htag hend
    rw [parseFields, if_pos hlt, if_neg hend]
    exact ih (outMsg.setField_within tag hmsg (Nat.le_add_right _ _) (scanTo_le soh hstart))
  | case3 ptr outMsg hge =>
    rw [parseFields, if_neg hge]
    exact hmsg

theorem parseFixMessage_within (buffer : List Byte) :
    ∀ v ∈ (parseFixMessage buffer).2.ids, v.Within buffer.length :=
  parseFields_within (by simp [ParsedFixMessage.ids, ParsedFixMessage.reset, View.Within, View.empty])

end Within

end LobCity
