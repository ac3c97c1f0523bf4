import LobCity.Accumulator
import LobCity.Gateway
import LobCity.Library.Framing

/-! The inner loop of the network thread on one connection: frame, parse, push, erase.
What it makes of a byte stream does not depend on how `read` cuts the stream up. -/
namespace LobCity
open Library

def checksumTag : List Byte := [byte '1', byte '0', byte '=']

namespace Accumulator
variable {a : Accumulator} {x text : List Byte} {pos i : Nat}

theorem find_eq_some :
    find x text pos = some i ↔ (pos ≤ i ∧ text <+: x.drop i) ∧ i < x.length ∧
      ∀ j < i, pos ≤ j → ¬ text <+: x.drop j := by
  unfold find
  simp only [List.find?_range_eq_some, List.mem_range, Bool.and_eq_true, decide_eq_true_eq,
    List.isPrefixOf_iff_prefix, Bool.not_eq_true', Bool.and_eq_false_imp]
  simp only [← Bool.not_eq_true, List.isPrefixOf_iff_prefix]

theorem find_isSome (htext : text ≠ []) (hpos : pos ≤ i) (h : text <+: x.drop i) :
    ∃ j ≤ i, find x text pos = some j := by
  have hi : i < x.length := by
    by_contra hge
    rw [List.drop_eq_nil_of_le (Nat.le_of_not_lt hge)] at h
    exact htext (List.prefix_nil.mp h)
  cases hf : find x text pos with
  | none =>
    unfold find at hf
    have hno := List.find?_eq_none.mp hf i (List.mem_range.mpr hi)
    simp [hpos, h] at hno
  | some j =>
    refine ⟨j, ?_, rfl⟩
    obtain ⟨-, -, hfirst⟩ := find_eq_some.mp hf
    by_contra hlt
    exact hfirst i (Nat.lt_of_not_le hlt) hpos h

theorem find_le (h : find x text pos = some i) : i + text.length ≤ x.length := by
  obtain ⟨⟨-, hp⟩, hi, -⟩ := find_eq_some.mp h
  have hlen := hp.length_le
  rw [List.length_drop] at hlen
  omega

theorem prefix_drop_append {y : List Byte} {j : Nat} (hj : j + text.length ≤ x.length) :
    text <+: (x ++ y).drop j ↔ text <+: x.drop j := by
  have hle : j ≤ x.length := by omega
  rw [List.drop_append_of_le_length hle]
  constructor
  · intro h
    refine List.prefix_of_prefix_length_le h (List.prefix_append _ _) ?_
    rw [List.length_drop]
    omega
  · exact fun h => h.trans (List.prefix_append _ _)

/-- The first occurrence stays the first when the buffer grows. -/
theorem find_append (h : find x text pos = some i) (y : List Byte) :
    find (x ++ y) text pos = some i := by
  have hle := find_le h
  obtain ⟨⟨hpos, hp⟩, hi, hfirst⟩ := find_eq_some.mp h
  refine find_eq_some.mpr ⟨⟨hpos, (prefix_drop_append hle).mpr hp⟩, ?_, fun j hj hpj hc => ?_⟩
  · rw [List.length_append]
    omega
  · exact hfirst j hj hpj ((prefix_drop_append (by omega)).mp hc)

def frameLen? (content : List Byte) : Option Nat := do
  let msgEnd ← find content checksumTag 0
  let delimPos ← find content [soh] msgEnd
  return delimPos + 1

theorem frameLen?_eq_some {n : Nat} :
    frameLen? x = some n ↔ ∃ msgEnd delimPos, find x checksumTag 0 = some msgEnd ∧
      find x [soh] msgEnd = some delimPos ∧ delimPos + 1 = n := by
  simp only [frameLen?, Option.bind_eq_bind, Option.bind_eq_some_iff, Option.pure_def, Option.some.injEq,
    exists_and_left]

def framer : Framer Byte where
  len? := frameLen?
  pos h := by
    obtain ⟨-, -, -, -, rfl⟩ := frameLen?_eq_some.mp h
    exact Nat.succ_pos _
  le h := by
    obtain ⟨_, _, -, hd, rfl⟩ := frameLen?_eq_some.mp h
    exact find_le hd
  stable h y := by
    obtain ⟨msgEnd, delimPos, hm, hd, rfl⟩ := frameLen?_eq_some.mp h
    exact frameLen?_eq_some.mpr ⟨msgEnd, delimPos, find_append hm y, find_append hd y, rfl⟩

theorem frameLen?_ne_none (x y z : List Byte) :
    frameLen? (x ++ checksumTag ++ y ++ soh :: z) ≠ none := by
  set w := x ++ checksumTag ++ y ++ soh :: z with hw
  have htag : checksumTag <+: w.drop x.length := by
    rw [hw, List.append_assoc, List.append_assoc, List.drop_left]
    exact List.prefix_append _ _
  obtain ⟨msgEnd, hle, hm⟩ := find_isSome (by decide) (Nat.zero_le _) htag
  have hdelim : [soh] <+: w.drop (x ++ checksumTag ++ y).length := by
    rw [hw, List.drop_left]
    exact ⟨z, rfl⟩
  have hle' : msgEnd ≤ (x ++ checksumTag ++ y).length := by
    simp only [List.length_append]
    omega
  obtain ⟨delimPos, -, hd⟩ := find_isSome (by decide) hle' hdelim
  have hsome := frameLen?_eq_some.mpr ⟨msgEnd, delimPos, hm, hd, rfl⟩
  rw [hsome]
  simp

theorem content_append (a : Accumulator) (chunk : List Byte) :
    (a.append chunk).content = a.content ++ chunk := by
  unfold append
  by_cases h : a.fits chunk
  · have hsize : a.size ≤ a.storage.length := by
      rw [a.length_storage]
      exact Nat.le_succ_of_le a.size_le
    rw [dif_pos h]
    exact take_overwrite hsize
  · rw [dif_neg h]
    exact List.take_left

theorem content_erase (a : Accumulator) (count : Nat) :
    (a.erase count).content = a.content.drop count := by
  have h : ((overwrite a.storage 0 (a.content.drop count ++ [(0 : Byte)])).take
      (0 + (a.content.drop count).length)) = a.storage.take 0 ++ a.content.drop count :=
    take_overwrite (Nat.zero_le _)
  simpa [content, erase] using h

theorem message_eq {msgLen : Nat} (h : msgLen ≤ a.size) : a.message msgLen = a.content.take msgLen := by
  rw [message, content, List.take_take, Nat.min_eq_left h]

theorem content_new (block capacity : Nat) : (new block capacity).content = [] := List.take_zero

theorem msgLen?_le {msgLen : Nat} (h : a.msgLen? = some msgLen) : 0 < msgLen ∧ msgLen ≤ a.size := by
  rw [← a.length_content]
  exact ⟨framer.pos h, framer.le h⟩

end Accumulator

/-- The parsed message, its ids as the text they have in the frame. -/
def parsed? (frame : List Byte) : Option FixMessage :=
  match parseFixMessage frame with
  | (true, parsedMsg) => some (parsedMsg.map (View.read frame))
  | (false, _) => none

/-- The accumulator of a connection, with what the loop has framed and pushed so far. -/
structure Connection where
  accumulator : Accumulator
  framed : List (List Byte)
  pushed : List FixMessage

namespace Connection

def new : Connection := ⟨.new 0 65536, [], []⟩

/-- One turn of the inner loop: a frame is parsed, pushed if it could be parsed, and erased. -/
def frame (c : Connection) (msgLen : Nat) : Connection where
  accumulator := c.accumulator.erase msgLen
  framed := c.framed ++ [c.accumulator.message msgLen]
  pushed := c.pushed ++ (parsed? (c.accumulator.message msgLen)).toList

def drain (c : Connection) : Connection :=
  match _h : c.accumulator.msgLen? with
  | none => c
  | some msgLen => drain (c.frame msgLen)
termination_by c.accumulator.size
decreasing_by
  obtain ⟨hpos, hle⟩ := Accumulator.msgLen?_le _h
  rw [← Accumulator.length_content, ← Accumulator.length_content, frame, Accumulator.content_erase,
    List.length_drop, Accumulator.length_content]
  omega

/-- `read` has returned with `readBuf`. -/
def receive (c : Connection) (readBuf : List Byte) : Connection :=
  drain { c with accumulator := c.accumulator.append readBuf }

/-- The outer loop, until the reads are used up or one returns nothing: then the client has
disconnected. -/
def serve (c : Connection) : List (List Byte) → Connection
  | [] => c
  | readBuf :: reads => if readBuf = [] then c else serve (c.receive readBuf) reads

/-- `c` holds what the framer makes of `stream`. -/
structure Holds (c : Connection) (stream : List (List Byte) × List Byte) : Prop where
  framed : c.framed = stream.1
  pushed : c.pushed = stream.1.filterMap parsed?
  content : c.accumulator.content = stream.2

open Accumulator (framer)

theorem drain_none {c : Connection} (h : c.accumulator.msgLen? = none) : c.drain = c := by
  rw [drain]
  split
  · rfl
  · rename_i n hn
    rw [h] at hn
    cases hn

theorem drain_some {c : Connection} {msgLen : Nat} (h : c.accumulator.msgLen? = some msgLen) :
    c.drain = (c.frame msgLen).drain := by
  conv_lhs => rw [drain]
  split
  · rename_i hn
    rw [h] at hn
    cases hn
  · rename_i n hn
    rw [h] at hn
    cases hn
    rfl

theorem drain_holds {c : Connection} {frames : List (List Byte)} {rest : List Byte}
    (h : c.Holds (frames, rest)) :
    c.drain.Holds (frames ++ (framer.cut rest).1, (framer.cut rest).2) := by
  have hcontent : c.accumulator.content = rest := h.content
  induction c using drain.induct generalizing frames rest with
  | case1 c hlen =>
    have hcut : framer.cut rest = ([], rest) := Framer.cut_none (hcontent ▸ hlen)
    rw [drain_none hlen, hcut, List.append_nil]
    exact h
  | case2 c msgLen hlen ih =>
    obtain ⟨-, hle⟩ := Accumulator.msgLen?_le hlen
    have hlen' : framer.len? rest = some msgLen := hcontent ▸ hlen
    have hmsg : c.accumulator.message msgLen = rest.take msgLen := by
      rw [Accumulator.message_eq hle, hcontent]
    have hstep : (c.frame msgLen).Holds (frames ++ [rest.take msgLen], rest.drop msgLen) := by
      refine ⟨?_, ?_, ?_⟩
      · simp only [frame, h.framed, hmsg]
      · simp only [frame, h.pushed, hmsg, List.filterMap_append]
        cases hp : parsed? (rest.take msgLen) <;> simp [hp]
      · rw [frame, Accumulator.content_erase, hcontent]
    rw [drain_some hlen, Framer.cut_some hlen']
    simpa using ih hstep hstep.content

theorem receive_holds {c : Connection} {stream : List (List Byte) × List Byte} (h : c.Holds stream)
    (readBuf : List Byte) : (c.receive readBuf).Holds (framer.feed stream readBuf) := by
  refine drain_holds ⟨h.framed, h.pushed, ?_⟩
  rw [Accumulator.content_append, h.content]

theorem serve_holds {c : Connection} {stream : List (List Byte) × List Byte} (h : c.Holds stream)
    {reads : List (List Byte)} (hreads : ∀ readBuf ∈ reads, readBuf ≠ []) :
    (c.serve reads).Holds (reads.foldl framer.feed stream) := by
  induction reads generalizing c stream with
  | nil => exact h
  | cons readBuf reads ih =>
    rw [serve, if_neg (hreads readBuf (by simp))]
    exact ih (receive_holds h readBuf) fun r hr => hreads r (by simp [hr])

theorem serve_new {reads : List (List Byte)} (hreads : ∀ readBuf ∈ reads, readBuf ≠ []) :
    (new.serve reads).Holds (framer.cut reads.flatten) := by
  have hnew : new.Holds ([], []) := ⟨rfl, rfl, Accumulator.content_new 0 65536⟩
  rw [← Framer.foldl_feed_nil reads (F := framer) rfl]
  exact serve_holds hnew hreads

/-- Two cuttings of one stream into reads are framed, parsed and pushed alike, and leave the
same remainder, in which no message is complete. -/
theorem serve_chunking {reads reads' : List (List Byte)} (hreads : ∀ readBuf ∈ reads, readBuf ≠ [])
    (hreads' : ∀ readBuf ∈ reads', readBuf ≠ []) (hstream : reads.flatten = reads'.flatten) :
    (new.serve reads).framed = (new.serve reads').framed ∧
      (new.serve reads).pushed = (new.serve reads').pushed ∧
      (new.serve reads).accumulator.content = (new.serve reads').accumulator.content ∧
      ∀ x y z, (new.serve reads).accumulator.content ≠ x ++ checksumTag ++ y ++ soh :: z := by
  have h := serve_new hreads
  have h' := serve_new hreads'
  rw [← hstream] at h'
  refine ⟨h.framed.trans h'.framed.symm, h.pushed.trans h'.pushed.symm, h.content.trans h'.content.symm,
    fun x y z heq => ?_⟩
  have hnone : framer.len? (new.serve reads).accumulator.content = none := by
    rw [h.content]
    exact Framer.len?_cut _
  rw [heq] at hnone
  exact Accumulator.frameLen?_ne_none x y z hnone

theorem serve_chunking_bytes :
    let stream : List Byte := [51, 53, 61, 70, 1, 49, 48, 61, 48, 1, 51, 53, 61, 68, 1, 49, 48]
    (new.serve [stream]).framed = (new.serve (stream.map fun c => [c])).framed ∧
      (new.serve [stream]).pushed = (new.serve (stream.map fun c => [c])).pushed ∧
      (new.serve [stream]).accumulator.content =
        (new.serve (stream.map fun c => [c])).accumulator.content ∧
      ∀ x y z, (new.serve [stream]).accumulator.content ≠ x ++ checksumTag ++ y ++ soh :: z :=
  serve_chunking (by decide) (by decide) (by decide)

end Connection
end LobCity
