import LobCity.FixParser

/-! The accumulator of the network thread, a `std::string`, down to the storage that views
of it point into: what stays in there behind its end, and when it is given back. -/
namespace LobCity
open Library

/-- A `std::string_view`: the allocation it points into and the part it covers.
Allocations are numbered. -/
structure Slice where
  block : Nat
  view : View
deriving DecidableEq, Repr

structure Accumulator where
  block : Nat
  capacity : Nat
  storage : List Byte
  size : Nat
  length_storage : storage.length = capacity + 1
  size_le : size ≤ capacity

namespace Accumulator
variable {a a' : Accumulator} {s : Slice} {chunk : List Byte}

def new (block capacity : Nat) : Accumulator where
  block := block
  capacity := capacity
  storage := List.replicate (capacity + 1) 0
  size := 0
  length_storage := List.length_replicate
  size_le := Nat.zero_le _

def content (a : Accumulator) : List Byte := a.storage.take a.size

theorem length_content (a : Accumulator) : a.content.length = a.size :=
  List.length_take_of_le (by rw [a.length_storage]; exact Nat.le_succ_of_le a.size_le)

/-- The bytes under a view, `freed` being what stands in the blocks that were given back. -/
def read (a : Accumulator) (freed : Nat → List Byte) (s : Slice) : List Byte :=
  s.view.read (if s.block = a.block then a.storage else freed s.block)

def fits (a : Accumulator) (chunk : List Byte) : Prop := a.size + chunk.length ≤ a.capacity

instance (a : Accumulator) (chunk : List Byte) : Decidable (a.fits chunk) :=
  inferInstanceAs (Decidable (_ ≤ _))

theorem fits.room (h : a.fits chunk) :
    a.size + (chunk ++ [(0 : Byte)]).length ≤ a.storage.length := by
  rw [a.length_storage, List.length_append, List.length_singleton, ← Nat.add_assoc]
  exact Nat.succ_le_succ h

/-- `append`: in place with a NUL behind it, or in a new block of twice the capacity. -/
def append (a : Accumulator) (chunk : List Byte) : Accumulator :=
  if h : a.fits chunk then
    { a with storage := overwrite a.storage a.size (chunk ++ [0])
             size := a.size + chunk.length
             length_storage := (length_overwrite h.room).trans a.length_storage
             size_le := h }
  else
    let text := a.content ++ chunk
    let capacity := max (2 * a.capacity) text.length
    { block := a.block + 1
      capacity := capacity
      storage := text ++ List.replicate (capacity + 1 - text.length) 0
      size := text.length
      length_storage := by
        have hle : text.length ≤ capacity + 1 := Nat.le_succ_of_le (Nat.le_max_right _ _)
        rw [List.length_append, List.length_replicate, Nat.add_sub_cancel' hle]
      size_le := Nat.le_max_right _ _ }

theorem erase_room (a : Accumulator) (count : Nat) :
    0 + (a.content.drop count ++ [(0 : Byte)]).length ≤ a.storage.length := by
  have hsize := a.size_le
  rw [a.length_storage, List.length_append, List.length_drop, a.length_content,
    List.length_singleton]
  omega

/-- `erase(0, count)`: the rest moves to the front, with a NUL behind it. -/
def erase (a : Accumulator) (count : Nat) : Accumulator :=
  { a with storage := overwrite a.storage 0 (a.content.drop count ++ [0])
           size := (a.content.drop count).length
           length_storage := (length_overwrite (a.erase_room count)).trans a.length_storage
           size_le := by
             have hsize := a.size_le
             rw [List.length_drop, a.length_content]
             omega }

/-- `find` from `pos` on, for a text that is not empty. -/
def find (content text : List Byte) (pos : Nat) : Option Nat :=
  (List.range content.length).find? fun i => pos ≤ i && text.isPrefixOf (content.drop i)

/-- How long the first message is: up to the delimiter behind `10=`. -/
def msgLen? (a : Accumulator) : Option Nat := do
  let msgEnd ← find a.content [byte '1', byte '0', byte '='] 0
  let delimPos ← find a.content [soh] msgEnd
  return delimPos + 1

def message (a : Accumulator) (msgLen : Nat) : List Byte := a.storage.take msgLen

def whole (a : Accumulator) : View := ⟨0, a.capacity + 1⟩

def appended (a : Accumulator) (chunk : List Byte) : View :=
  if a.fits chunk then ⟨a.size, (chunk ++ [(0 : Byte)]).length⟩ else a.whole

def erased (a : Accumulator) (count : Nat) : View := ⟨0, (a.content.drop count ++ [(0 : Byte)]).length⟩

def Live (a : Accumulator) (s : Slice) : Prop :=
  s.view.length = 0 ∨ (s.block = a.block ∧ s.view.Within (a.capacity + 1))

/-- Outside of the region `r`, views read from `a'` what they read from `a`. -/
def Keeps (a a' : Accumulator) (r : View) : Prop :=
  ∀ s, a.Live s → s.view.Apart r → a'.Live s ∧ ∀ freed, a'.read freed s = a.read freed s

theorem Keeps.refl (a : Accumulator) (r : View) : a.Keeps a r := fun _ hlive _ => ⟨hlive, fun _ => rfl⟩

theorem read_of_empty (h : s.view.length = 0) (freed : Nat → List Byte) : a.read freed s = [] :=
  View.read_of_length_eq_zero h _

theorem Live.read_eq (h : a.Live s) (freed freed' : Nat → List Byte) :
    a.read freed s = a.read freed' s := by
  cases h with
  | inl hzero =>
    rw [read_of_empty hzero, read_of_empty hzero]
  | inr hblock =>
    obtain ⟨hblock, -⟩ := hblock
    rw [read, read, if_pos hblock, if_pos hblock]

theorem keeps_whole (a a' : Accumulator) : a.Keeps a' a.whole := by
  intro s hlive hapart
  have hzero : s.view.length = 0 := by
    cases hlive with
    | inl hzero =>
      exact hzero
    | inr hin =>
      exact View.length_eq_zero hin.2 hapart
  exact ⟨Or.inl hzero, fun freed => by rw [read_of_empty hzero, read_of_empty hzero]⟩

theorem keeps_overwrite {start : Nat} {bytes : List Byte}
    (hroom : start + bytes.length ≤ a.storage.length) (hblock : a'.block = a.block)
    (hcapacity : a'.capacity = a.capacity) (hstorage : a'.storage = overwrite a.storage start bytes) :
    a.Keeps a' ⟨start, bytes.length⟩ := by
  intro s hlive hapart
  refine ⟨?_, fun freed => ?_⟩
  · rwa [Live, hblock, hcapacity]
  · unfold read
    rw [hblock, hstorage]
    by_cases hb : s.block = a.block
    · rw [if_pos hb, if_pos hb]
      exact View.read_overwrite hroom hapart
    · rw [if_neg hb, if_neg hb]

theorem keeps_append (a : Accumulator) (chunk : List Byte) :
    a.Keeps (a.append chunk) (a.appended chunk) := by
  unfold appended
  by_cases h : a.fits chunk
  · rw [if_pos h, append, dif_pos h]
    exact keeps_overwrite h.room rfl rfl rfl
  · rw [if_neg h]
    exact a.keeps_whole _

theorem keeps_erase (a : Accumulator) (count : Nat) : a.Keeps (a.erase count) (a.erased count) :=
  keeps_overwrite (a.erase_room count) rfl rfl rfl

/-- What the parser makes of the framed bytes is live, and reads as it does there. -/
theorem parsed_live {msgLen : Nat} {v : View}
    (hv : v ∈ (parseFixMessage (a.message msgLen)).2.ids) :
    a.Live ⟨a.block, v⟩ ∧ ∀ freed, a.read freed ⟨a.block, v⟩ = v.read (a.message msgLen) := by
  have hin : v.Within (a.message msgLen).length := parseFixMessage_within _ v hv
  rw [message, List.length_take] at hin
  refine ⟨Or.inr ⟨rfl, ?_⟩, fun freed => ?_⟩
  · rw [← a.length_storage]
    exact Nat.le_trans hin (Nat.min_le_right _ _)
  · rw [read, if_pos rfl, message]
    exact (View.read_take (Nat.le_trans hin (Nat.min_le_left _ _))).symm

end Accumulator
end LobCity
