import Mathlib.Logic.Function.Basic
import Mathlib.Data.Fin.Basic
import Mathlib.Algebra.GroupWithZero.Nat
import Mathlib.Data.Int.ModEq

/-! The ring buffer of both queues, run by one thread at a time: `push` and `pop` as
whole calls. `RingBufferBBO` is the same algorithm at 1024 slots. -/
namespace LobCity

structure RingBuffer (T : Type) (Size : Nat) where
  buffer : Fin Size → T
  head : Fin Size
  tail : Fin Size

namespace RingBuffer
variable {T : Type} {Size : Nat} [NeZero Size]

def advance (i : Fin Size) : Fin Size := ⟨(i + 1) % Size, Nat.mod_lt _ (Nat.pos_of_neZero Size)⟩

def new (init : Fin Size → T) : RingBuffer T Size := ⟨init, 0, 0⟩

def push (rb : RingBuffer T Size) (item : T) : Bool × RingBuffer T Size :=
  if advance rb.head = rb.tail then (false, rb)
  else (true, { rb with buffer := Function.update rb.buffer rb.head item,
                        head := advance rb.head })

def pop (rb : RingBuffer T Size) : Option T × RingBuffer T Size :=
  if rb.head = rb.tail then (none, rb)
  else (some (rb.buffer rb.tail), { rb with tail := advance rb.tail })

def slot (n : Nat) : Fin Size := ⟨n % Size, Nat.mod_lt _ (Nat.pos_of_neZero Size)⟩

theorem slot_zero : (slot 0 : Fin Size) = 0 := by
  apply Fin.ext
  simp [slot]

theorem advance_slot (n : Nat) : advance (slot n : Fin Size) = slot (n + 1) := by
  apply Fin.ext
  simp [advance, slot]

/-- Within `Size` consecutive items no slot is used twice. -/
theorem slot_inj {m n : Nat} (hmn : m ≤ n) (hn : n < m + Size)
    (h : (slot m : Fin Size) = slot n) : m = n := by
  have hmod : m % Size = n % Size := congrArg Fin.val h
  have hdvd : Size ∣ n - m := (Nat.modEq_iff_dvd' hmn).mp hmod
  have hzero : n - m = 0 := Nat.eq_zero_of_dvd_of_lt hdvd (by omega)
  omega

def count (rb : RingBuffer T Size) : Nat :=
  if rb.tail ≤ rb.head then rb.head - rb.tail else rb.head + Size - rb.tail

/-- The items that are pushed and not yet popped, oldest first. -/
def queued (rb : RingBuffer T Size) : List T :=
  (List.range rb.count).map fun i => rb.buffer (slot (rb.tail + i))

theorem slot_val (i : Fin Size) : slot i.val = i := Fin.ext (Nat.mod_eq_of_lt i.isLt)

theorem count_spec (rb : RingBuffer T Size) :
    rb.count < Size ∧ slot (rb.tail + rb.count) = rb.head := by
  have hh := rb.head.isLt
  have ht := rb.tail.isLt
  unfold count
  by_cases hle : rb.tail ≤ rb.head
  · have hle' : rb.tail.val ≤ rb.head.val := hle
    rw [if_pos hle, Nat.add_sub_cancel' hle', slot_val]
    exact ⟨by omega, rfl⟩
  · have hlt : rb.head.val < rb.tail.val := Nat.lt_of_not_le hle
    have hsum : rb.tail.val + (rb.head + Size - rb.tail) = rb.head + Size := by omega
    rw [if_neg hle, hsum]
    refine ⟨by omega, Fin.ext ?_⟩
    show (rb.head.val + Size) % Size = rb.head
    rw [Nat.add_mod_right, Nat.mod_eq_of_lt hh]

theorem count_eq {rb : RingBuffer T Size} {n : Nat} (hn : n < Size)
    (h : slot (rb.tail + n) = rb.head) : rb.count = n := by
  obtain ⟨hlt, hhead⟩ := rb.count_spec
  have hsame : (slot (rb.tail + rb.count) : Fin Size) = slot (rb.tail + n) := hhead.trans h.symm
  cases Nat.le_total rb.count n with
  | inl hle =>
    have := slot_inj (Nat.add_le_add_left hle _) (by omega) hsame
    omega
  | inr hle =>
    have := slot_inj (Nat.add_le_add_left hle _) (by omega) hsame.symm
    omega

theorem queued_new (init : Fin Size → T) : (new init).queued = [] := by
  simp [queued, count, new]

theorem slot_advance_add (t : Fin Size) (i : Nat) :
    (slot ((advance t).val + i) : Fin Size) = slot (t + (i + 1)) := by
  apply Fin.ext
  show ((t + 1) % Size + i) % Size = (t + (i + 1)) % Size
  rw [Nat.mod_add_mod, Nat.add_assoc, Nat.add_comm 1 i]

theorem queued_push {rb rb' : RingBuffer T Size} {item : T} {pushed : Bool}
    (h : rb.push item = (pushed, rb')) :
    (pushed = true ∧ rb'.queued = rb.queued ++ [item]) ∨
      (pushed = false ∧ rb' = rb ∧ rb.queued.length = Size - 1) := by
  obtain ⟨hlt, hhead⟩ := rb.count_spec
  have hnext : advance rb.head = slot (rb.tail + (rb.count + 1)) := by
    rw [← hhead, advance_slot, Nat.add_assoc]
  unfold push at h
  by_cases hfull : advance rb.head = rb.tail
  · rw [if_pos hfull] at h
    obtain ⟨rfl, rfl⟩ := Prod.mk.inj h
    refine Or.inr ⟨rfl, rfl, ?_⟩
    have hsame : (slot rb.tail : Fin Size) = slot (rb.tail + (rb.count + 1)) := by
      rw [slot_val, ← hnext, hfull]
    have hlast : ¬ rb.count + 1 < Size := by
      intro hroom
      have := slot_inj (Nat.le_add_right _ _) (Nat.add_lt_add_left hroom _) hsame
      omega
    rw [queued, List.length_map, List.length_range]
    omega
  · rw [if_neg hfull] at h
    obtain ⟨rfl, rfl⟩ := Prod.mk.inj h
    refine Or.inl ⟨rfl, ?_⟩
    have hroom : rb.count + 1 < Size := by
      refine Nat.lt_of_le_of_ne hlt fun heq => hfull ?_
      rw [hnext, heq]
      apply Fin.ext
      show (rb.tail.val + Size) % Size = rb.tail
      rw [Nat.add_mod_right, Nat.mod_eq_of_lt rb.tail.isLt]
    have hcount : (⟨Function.update rb.buffer rb.head item, advance rb.head, rb.tail⟩ :
        RingBuffer T Size).count = rb.count + 1 := count_eq hroom hnext.symm
    have hold : ∀ i ∈ List.range rb.count,
        Function.update rb.buffer rb.head item (slot (rb.tail + i)) =
          rb.buffer (slot (rb.tail + i)) := by
      intro i hi
      have hi' := List.mem_range.mp hi
      refine Function.update_of_ne (fun heq => ?_) _ _
      have := slot_inj (Nat.add_le_add_left (Nat.le_of_lt hi') _) (by omega) (heq.trans hhead.symm)
      omega
    rw [queued, hcount, List.range_succ, List.map_append, List.map_singleton]
    dsimp only
    rw [hhead, Function.update_self, List.map_congr_left hold, queued]

theorem queued_pop {rb rb' : RingBuffer T Size} {x : Option T} (h : rb.pop = (x, rb')) :
    rb.queued = x.toList ++ rb'.queued := by
  obtain ⟨hlt, hhead⟩ := rb.count_spec
  unfold pop at h
  by_cases hempty : rb.head = rb.tail
  · rw [if_pos hempty] at h
    obtain ⟨rfl, rfl⟩ := Prod.mk.inj h
    rfl
  · rw [if_neg hempty] at h
    obtain ⟨rfl, rfl⟩ := Prod.mk.inj h
    have hpos : rb.count ≠ 0 := by
      intro hzero
      rw [hzero, Nat.add_zero, slot_val] at hhead
      exact hempty hhead.symm
    obtain ⟨n, hn⟩ := Nat.exists_eq_succ_of_ne_zero hpos
    have hcount : ({ rb with tail := advance rb.tail } : RingBuffer T Size).count = n := by
      refine count_eq (by omega) ?_
      rw [slot_advance_add, ← hhead, hn]
    rw [queued, hn, List.range_succ_eq_map, List.map_cons, List.map_map, Nat.add_zero, slot_val,
      queued, hcount]
    refine congrArg (_ :: ·) (List.map_congr_left fun i _ => ?_)
    exact congrArg rb.buffer (slot_advance_add rb.tail i).symm

/-- The slot behind the head, which holds what was pushed last. -/
def newest (rb : RingBuffer T Size) : T := rb.buffer (slot (rb.head + (Size - 1)))

theorem slot_slot_add (n k : Nat) : (slot ((slot n : Fin Size).val + k) : Fin Size) = slot (n + k) := by
  apply Fin.ext
  simp [slot]

theorem slot_add_size (n : Nat) : (slot (n + Size) : Fin Size) = slot n := by
  apply Fin.ext
  simp [slot]

theorem newest_push {rb rb' : RingBuffer T Size} {item : T} (h : rb.push item = (true, rb')) :
    rb'.newest = item := by
  unfold push at h
  by_cases hfull : advance rb.head = rb.tail
  · rw [if_pos hfull] at h
    simp at h
  · rw [if_neg hfull] at h
    obtain ⟨-, rfl⟩ := Prod.mk.inj h
    have hpos : 0 < Size := Nat.pos_of_neZero Size
    have hlast : (slot ((advance rb.head).val + (Size - 1)) : Fin Size) = rb.head := by
      rw [slot_advance_add, Nat.sub_add_cancel hpos, slot_add_size, slot_val]
    rw [newest]
    dsimp only
    rw [hlast, Function.update_self]

theorem newest_pop (rb : RingBuffer T Size) : rb.pop.2.newest = rb.newest := by
  unfold pop
  split_ifs <;> rfl

theorem queued_getLast? {rb : RingBuffer T Size} (h : rb.queued ≠ []) :
    rb.queued.getLast? = some rb.newest := by
  have hpos : 0 < Size := Nat.pos_of_neZero Size
  obtain ⟨-, hhead⟩ := rb.count_spec
  have hcount : rb.count ≠ 0 := by
    intro hzero
    exact h (by simp [queued, hzero])
  obtain ⟨n, hn⟩ := Nat.exists_eq_succ_of_ne_zero hcount
  have hlast : (slot (rb.head + (Size - 1)) : Fin Size) = slot (rb.tail + n) := by
    have hsum : rb.tail.val + rb.count + (Size - 1) = rb.tail + n + Size := by omega
    rw [← hhead, slot_slot_add, hsum, slot_add_size]
  rw [queued, hn, List.range_succ, List.map_append, List.map_singleton, List.getLast?_concat, newest,
    hlast]

end RingBuffer
end LobCity
