import LobCity.FixFields
import LobCity.Library.Logged

/-! The parser with its pointers: memory is read a byte at a time at an offset from the
buffer, each read is logged, and the outer loop runs on fuel and keeps its cursors. It
is the parser on the bytes of the buffer, and reads no other. -/
namespace LobCity
open Library Logged

/-- Memory from the buffer on, and beyond its end. -/
abbrev Memory := Nat → Byte

abbrev Reading := Logged Nat

def Memory.slice (m : Memory) (p e : Nat) : List Byte := (List.range' p (e - p)).map m

def Memory.load (m : Memory) (p : Nat) : Reading Byte := touch p (m p)

/-- `while (p < e && *p != c) p++` -/
def scanLoop (m : Memory) (c : Byte) (e p : Nat) : Reading Nat :=
  if p < e then do
    if (← m.load p) ≠ c then scanLoop m c e (p + 1) else pure p
  else pure p
termination_by e - p

def intLoop (m : Memory) (e p : Nat) (val : Int64) : Reading Int64 :=
  if p < e then do
    intLoop m e (p + 1) (val * 10 + digit (← m.load p))
  else pure val
termination_by e - p

def decimalLoop (m : Memory) (e p : Nat) (val : Int64) (decimalCount : Nat) (seenDot : Bool) :
    Reading (Int64 × Nat) :=
  if p < e then do
    if (← m.load p) = byte '.' then decimalLoop m e (p + 1) val decimalCount true
    else
      let val := val * 10 + digit (← m.load p)
      if seenDot then
        if decimalCount + 1 = 4 then pure (val, 4)
        else decimalLoop m e (p + 1) val (decimalCount + 1) seenDot
      else decimalLoop m e (p + 1) val decimalCount seenDot
  else pure (val, decimalCount)
termination_by e - p

/-- `if (ptr < valueEnd) field = *ptr` -/
def firstChar (m : Memory) (ptr valueEnd : Nat) (old : Byte) : Reading Byte :=
  if ptr < valueEnd then m.load ptr else pure old

def switchTag (m : Memory) (msg : ParsedFixMessage View) (tag : Int32) (ptr valueEnd : Nat) :
    Reading (ParsedFixMessage View) :=
  if tag = 35 then do return { msg with msgType := ← firstChar m ptr valueEnd msg.msgType }
  else if tag = 54 then do return { msg with side := ← firstChar m ptr valueEnd msg.side }
  else if tag = 40 then do return { msg with ordType := ← firstChar m ptr valueEnd msg.ordType }
  else if tag = 38 then do return { msg with qty := ← intLoop m valueEnd ptr 0 }
  else if tag = 44 then do
    let (val, decimalCount) ← decimalLoop m valueEnd ptr 0 0 false
    return { msg with price := Nat.iterate (· * 10) (4 - decimalCount) val }
  else if tag = 11 then return { msg with clOrdID := ⟨ptr, valueEnd - ptr⟩ }
  else if tag = 41 then return { msg with origClOrdID := ⟨ptr, valueEnd - ptr⟩ }
  else return msg

/-- What the parser leaves behind: the cursors are those the outer loop is entered with. -/
structure Outcome where
  accepted : Bool
  message : ParsedFixMessage View
  cursors : List Nat

/-- `while (ptr < end)`, for as many turns as there is fuel. -/
def parseLoop (m : Memory) (length : Nat) :
    (fuel ptr : Nat) → ParsedFixMessage View → Reading (Option Outcome)
  | 0, _, _ => return none
  | fuel + 1, ptr, outMsg =>
    if ptr < length then do
      let tagEnd ← scanLoop m (byte '=') length ptr
      if tagEnd = length then return some ⟨false, outMsg, [ptr]⟩
      else
        let tag := (← intLoop m tagEnd ptr 0).toInt32
        let valueEnd ← scanLoop m soh length (tagEnd + 1)
        let outMsg ← switchTag m outMsg tag (tagEnd + 1) valueEnd
        let rest ← parseLoop m length fuel (valueEnd + 1) outMsg
        return rest.map fun r => { r with cursors := ptr :: r.cursors }
    else return some ⟨true, outMsg, [ptr]⟩

namespace Memory
variable {m : Memory} {p e n : Nat}

theorem slice_nil (h : e ≤ p) : m.slice p e = [] := by rw [slice, Nat.sub_eq_zero_of_le h]; rfl

theorem slice_cons (h : p < e) : m.slice p e = m p :: m.slice (p + 1) e := by
  obtain ⟨k, rfl⟩ := Nat.exists_eq_add_of_lt h
  have hwidth : p + k + 1 - p = k + 1 := by omega
  have hrest : p + k + 1 - (p + 1) = k := by omega
  rw [slice, slice, hwidth, hrest, List.range'_succ, List.map_cons]

theorem length_slice : (m.slice p e).length = e - p := by
  rw [slice, List.length_map, List.length_range']

theorem drop_slice (k : Nat) : (m.slice p e).drop k = m.slice (p + k) e := by
  rw [slice, slice, ← List.map_drop, List.drop_range', Nat.mul_one, Nat.sub_sub]

theorem take_slice (h : e ≤ n) : (m.slice p n).take (e - p) = m.slice p e := by
  rw [slice, slice, ← List.map_take, List.take_range'_of_length_ge (Nat.sub_le_sub_right h p)]

theorem load_logs (hp : p < n) : Logs (· < n) (m.load p) (m p) := Logs.touch (P := (· < n)) hp (m p)

end Memory

section Loops
variable {m : Memory} {n p e : Nat} (c : Byte)

theorem scanLoop_logs (he : e ≤ n) :
    Logs (· < n) (scanLoop m c e p) (p + ((m.slice p e).takeWhile (· ≠ c)).length) := by
  induction hk : e - p generalizing p with
  | zero =>
    have hle : e ≤ p := Nat.sub_eq_zero_iff_le.mp hk
    rw [scanLoop, if_neg (Nat.not_lt.mpr hle), Memory.slice_nil hle]
    exact .pure p
  | succ k ih =>
    have hlt : p < e := by omega
    rw [scanLoop, if_pos hlt, Memory.slice_cons hlt]
    refine (Memory.load_logs (m := m) (Nat.lt_of_lt_of_le hlt he)).bind ?_
    by_cases hc : m p = c
    · rw [if_neg (not_not.mpr hc), List.takeWhile_cons_of_neg (by simp [hc])]
      exact .pure p
    · have hnext := ih (p := p + 1) (by omega)
      rw [Nat.add_assoc, Nat.add_comm 1] at hnext
      rwa [if_pos hc, List.takeWhile_cons_of_pos (by simp [hc]), List.length_cons]

theorem intLoop_logs (he : e ≤ n) (val : Int64) : Logs (· < n) (intLoop m e p val)
    ((m.slice p e).foldl (fun val c => val * 10 + digit c) val) := by
  induction hk : e - p generalizing p val with
  | zero =>
    have hle : e ≤ p := Nat.sub_eq_zero_iff_le.mp hk
    rw [intLoop, if_neg (Nat.not_lt.mpr hle), Memory.slice_nil hle]
    exact .pure val
  | succ k ih =>
    have hlt : p < e := by omega
    rw [intLoop, if_pos hlt, Memory.slice_cons hlt, List.foldl_cons]
    exact (Memory.load_logs (m := m) (Nat.lt_of_lt_of_le hlt he)).bind (ih _ (by omega))

theorem decimalLoop_logs (he : e ≤ n) (val : Int64) (decimalCount : Nat) (seenDot : Bool) :
    Logs (· < n) (decimalLoop m e p val decimalCount seenDot)
      (scanDecimal (m.slice p e) val decimalCount seenDot) := by
  induction hk : e - p generalizing p val decimalCount seenDot with
  | zero =>
    have hle : e ≤ p := Nat.sub_eq_zero_iff_le.mp hk
    rw [decimalLoop, if_neg (Nat.not_lt.mpr hle), Memory.slice_nil hle]
    exact .pure _
  | succ k ih =>
    have hlt : p < e := by omega
    have hread := Memory.load_logs (m := m) (Nat.lt_of_lt_of_le hlt he)
    rw [decimalLoop, if_pos hlt, Memory.slice_cons hlt, scanDecimal]
    refine hread.bind ?_
    split_ifs with hdot hseen hlast
    · exact ih _ _ _ (by omega)
    · exact hread.bind (.pure _)
    · exact hread.bind (ih _ _ _ (by omega))
    · exact hread.bind (ih _ _ _ (by omega))

theorem firstChar_logs (he : e ≤ n) (old : Byte) :
    Logs (· < n) (firstChar m p e old) ((m.slice p e).head?.getD old) := by
  by_cases hlt : p < e
  · rw [firstChar, if_pos hlt, Memory.slice_cons hlt]
    exact Memory.load_logs (Nat.lt_of_lt_of_le hlt he)
  · rw [firstChar, if_neg hlt, Memory.slice_nil (Nat.le_of_not_lt hlt)]
    exact .pure old

end Loops

section Bounded
variable {m : Memory} {length ptr : Nat}

theorem drop_buffer (m : Memory) (length ptr : Nat) :
    (m.slice 0 length).drop ptr = m.slice ptr length := by
  rw [Memory.drop_slice, Nat.zero_add]

theorem length_buffer (m : Memory) (length : Nat) : (m.slice 0 length).length = length :=
  Memory.length_slice

theorem scanTo_logs (c : Byte) :
    Logs (· < length) (scanLoop m c length ptr) (scanTo (m.slice 0 length) c ptr) := by
  rw [scanTo, drop_buffer]
  exact scanLoop_logs c (Nat.le_refl length)

theorem switchTag_logs (msg : ParsedFixMessage View) (tag : Int32) {valueEnd : Nat}
    (h : valueEnd ≤ length) : Logs (· < length) (switchTag m msg tag ptr valueEnd)
      (msg.setField (m.slice 0 length) tag ptr valueEnd) := by
  have hread : (⟨ptr, valueEnd - ptr⟩ : View).read (m.slice 0 length) = m.slice ptr valueEnd := by
    rw [View.read, drop_buffer, Memory.take_slice h]
  rw [ParsedFixMessage.setField_eq_write, hread]
  unfold switchTag ParsedFixMessage.write
  split_ifs
  · exact (firstChar_logs h _).bind (.pure _)
  · exact (firstChar_logs h _).bind (.pure _)
  · exact (firstChar_logs h _).bind (.pure _)
  · exact (intLoop_logs h 0).bind (.pure _)
  · exact (decimalLoop_logs h 0 0 false).bind (.pure _)
  · exact .pure _
  · exact .pure _
  · exact .pure _

/-- With enough fuel the loop ends as the parser on the bytes of the buffer does, from one
cursor to a greater one, and reads inside the buffer. -/
theorem parseLoop_logs (m : Memory) (length ptr : Nat) (msg : ParsedFixMessage View) :
    ∃ r : Outcome, (∀ fuel, length - ptr < fuel →
        Logs (· < length) (parseLoop m length fuel ptr msg) (some r)) ∧
      (r.accepted, r.message) = parseFields (m.slice 0 length) ptr msg ∧
      r.cursors.Pairwise (· < ·) ∧ ∀ c ∈ r.cursors, ptr ≤ c := by
  have hlength := length_buffer m length
  induction ptr, msg using parseFields.induct (m.slice 0 length) with
  | case1 ptr msg hlt tagEnd hend =>
    refine ⟨⟨false, msg, [ptr]⟩, fun fuel hfuel => ?_, ?_, by simp, by simp⟩
    · obtain ⟨fuel, rfl⟩ := Nat.exists_eq_succ_of_ne_zero (Nat.ne_of_gt (Nat.zero_lt_of_lt hfuel))
      rw [hlength] at hlt
      rw [parseLoop, if_pos hlt]
      refine (scanTo_logs (byte '=')).bind ?_
      rw [if_pos (hend.trans hlength)]
      exact .pure _
    · rw [parseFields, if_pos hlt, if_pos hend]
  | case2 ptr msg hlt tagEnd hend tag valueEnd ih =>
    have htag : tagEnd ≤ (m.slice 0 length).length := scanTo_le (byte '=') (Nat.le_of_lt hlt)
    have hstart : tagEnd + 1 ≤ (m.slice 0 length).length := Nat.lt_of_le_of_ne htag hend
    have hvalue : valueEnd ≤ (m.slice 0 length).length := scanTo_le soh hstart
    have hforward : ptr < valueEnd + 1 := by
      have hfirst : ptr ≤ tagEnd := Nat.le_add_right _ _
      have hsecond : tagEnd + 1 ≤ valueEnd := Nat.le_add_right _ _
      omega
    obtain ⟨r, hrun, hparsed, hcursors, hbound⟩ := ih
    refine ⟨{ r with cursors := ptr :: r.cursors }, fun fuel hfuel => ?_, ?_, ?_, ?_⟩
    · obtain ⟨fuel, rfl⟩ := Nat.exists_eq_succ_of_ne_zero (Nat.ne_of_gt (Nat.zero_lt_of_lt hfuel))
      rw [hlength] at hlt htag hvalue
      rw [parseLoop, if_pos hlt]
      refine (scanTo_logs (byte '=')).bind ?_
      rw [if_neg (fun he => hend (he.trans hlength.symm))]
      refine (intLoop_logs htag 0).bind ((scanTo_logs soh).bind ?_)
      have htagText : m.slice ptr tagEnd = ((m.slice 0 length).drop ptr).take (tagEnd - ptr) := by
        rw [drop_buffer, Memory.take_slice htag]
      rw [htagText]
      exact (switchTag_logs msg tag hvalue).bind ((hrun fuel (by omega)).bind (.pure _))
    · rw [parseFields, if_pos hlt, if_neg hend]
      exact hparsed
    · exact List.pairwise_cons.mpr ⟨fun c hc => Nat.lt_of_lt_of_le hforward (hbound c hc), hcursors⟩
    · intro c hc
      cases List.mem_cons.mp hc with
      | inl h => exact Nat.le_of_eq h.symm
      | inr h => exact Nat.le_of_lt (Nat.lt_of_lt_of_le hforward (hbound c h))
  | case3 ptr msg hge =>
    refine ⟨⟨true, msg, [ptr]⟩, fun fuel hfuel => ?_, ?_, by simp, by simp⟩
    · obtain ⟨fuel, rfl⟩ := Nat.exists_eq_succ_of_ne_zero (Nat.ne_of_gt (Nat.zero_lt_of_lt hfuel))
      rw [hlength] at hge
      rw [parseLoop, if_neg hge]
      exact .pure _
    · rw [parseFields, if_neg hge]

end Bounded

section Views
variable {buffer : List Byte} {ptr : Nat}

theorem ParsedFixMessage.setField_clear {msg : ParsedFixMessage View} {valueEnd : Nat} (tag : Int32)
    (hmsg : ∀ v ∈ msg.ids, soh ∉ v.read buffer)
    (hvalue : soh ∉ (⟨ptr, valueEnd - ptr⟩ : View).read buffer) :
    ∀ v ∈ (msg.setField buffer tag ptr valueEnd).ids, soh ∉ v.read buffer := by
  simp only [ids, List.forall_mem_cons] at hmsg ⊢
  unfold setField
  split_ifs
  all_goals simp [hmsg, hvalue]

/-- An id is a value, and a value ends in front of the first delimiter. -/
theorem parseFields_clear {outMsg : ParsedFixMessage View}
    (hmsg : ∀ v ∈ outMsg.ids, soh ∉ v.read buffer) :
    ∀ v ∈ (parseFields buffer ptr outMsg).2.ids, soh ∉ v.read buffer := by
  induction ptr, outMsg using parseFields.induct buffer with
  | case1 ptr outMsg hlt tagEnd hend =>
    rw [parseFields, if_pos hlt, if_pos hend]
    exact hmsg
  | case2 ptr outMsg hlt tagEnd hend tag valueEnd ih =>
    have htag : tagEnd ≤ buffer.length := scanTo_le (byte '=') (Nat.le_of_lt hlt)
    have hstart : tagEnd + 1 ≤ buffer.length := Nat.lt_of_le_of_ne htag hend
    obtain ⟨value, hclear, hscan, hcut⟩ := scanTo_spec soh hstart
    have hscan : valueEnd = tagEnd + 1 + value.length := hscan
    have hwidth : valueEnd - (tagEnd + 1) = value.length := by omega
    have hvalue : (⟨tagEnd + 1, valueEnd - (tagEnd + 1)⟩ : View).read buffer = value := by
      rw [View.read, hwidth]
      cases hcut with
      | inl h => rw [h.1, List.take_length]
      | inr h => rw [h, List.take_left]
    rw [parseFields, if_pos hlt, if_neg hend]
    exact ih (outMsg.setField_clear tag hmsg (by rwa [hvalue]))
  | case3 ptr outMsg hge =>
    rw [parseFields, if_neg hge]
    exact hmsg

end Views

/-- On every buffer the loop ends, its cursor grows, no byte behind the end is read, and
the ids lie in the buffer and in front of a delimiter. -/
theorem parseLoop_bounded (m : Memory) (length : Nat) :
    ∃ r : Outcome, (∀ fuel > length, ∃ reads,
        parseLoop m length fuel 0 .reset [] = (some r, reads) ∧ ∀ a ∈ reads, a < length) ∧
      (r.accepted, r.message) = parseFixMessage (m.slice 0 length) ∧
      r.cursors.Pairwise (· < ·) ∧
      ∀ v ∈ r.message.ids, v.Within length ∧ soh ∉ v.read (m.slice 0 length) := by
  obtain ⟨r, hrun, hparsed, hcursors, -⟩ := parseLoop_logs m length 0 .reset
  have hmessage : r.message = (parseFixMessage (m.slice 0 length)).2 := congrArg Prod.snd hparsed
  have hreset : ∀ v ∈ ParsedFixMessage.reset.ids, soh ∉ v.read (m.slice 0 length) := by
    simp [ParsedFixMessage.ids, ParsedFixMessage.reset, View.read, View.empty]
  refine ⟨r, fun fuel hfuel => (hrun fuel hfuel).run, hparsed, hcursors, fun v hv => ?_⟩
  rw [hmessage] at hv
  have hwithin := parseFixMessage_within (m.slice 0 length) v hv
  rw [length_buffer] at hwithin
  exact ⟨hwithin, parseFields_clear hreset v hv⟩

end LobCity
