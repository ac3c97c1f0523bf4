import Mathlib.Data.List.Count

/-! How many times of a list fall into a window of a given length, wherever the window is,
and the windows of a limiter that opens the next one when a time comes after the last one is
over. The times are natural numbers; a window contains its start and not its end. -/
namespace LobCity.Library

/-- The times in `[t, t + w)`. -/
def countIn (w t : Nat) (times : List Nat) : Nat := times.countP fun u => t ≤ u ∧ u < t + w

/-- The times in `(t - w, t]`. -/
def countTo (w t : Nat) (times : List Nat) : Nat := times.countP fun u => u ≤ t ∧ t < u + w

def Spaced (w n : Nat) (times : List Nat) : Prop := ∀ t, countIn w t times ≤ n

/-- A time in a limiter's window: since when that is open, and the number of the time in it. -/
structure Arrival where
  time : Nat
  opened : Nat
  number : Nat
deriving DecidableEq, Repr

def Arrival.next (w : Nat) (a : Arrival) (t : Nat) : Arrival :=
  if t < a.opened + w then ⟨t, a.opened, a.number + 1⟩ else ⟨t, t, 1⟩

def arrivals (w : Nat) : Arrival → List Nat → List Arrival
  | _, [] => []
  | a, t :: times => a.next w t :: arrivals w (a.next w t) times

/-- The arrivals within the limit that came before the window of `a` and in reach of `a`. -/
def carried (w n : Nat) (as : List Arrival) (a : Arrival) : Nat :=
  as.countP fun b => b.number ≤ n ∧ b.time < a.opened ∧ a.time < b.time + w

/-- Whoever is within the limit in its window is so together with those carried over. -/
def Smooth (w n : Nat) (as : List Arrival) : Prop :=
  ∀ a ∈ as, a.number ≤ n → carried w n as a + a.number ≤ n

instance (w n : Nat) : DecidablePred (Smooth w n) := fun as =>
  decidable_of_iff (as.all fun a => a.number ≤ n → carried w n as a + a.number ≤ n)
    (by simp only [List.all_eq_true, decide_eq_true_eq, Smooth])

variable {w n t : Nat} {times : List Nat}

theorem spaced_nil : Spaced w n [] := fun _ => Nat.zero_le n

theorem spaced_zero : Spaced 0 n times := by
  intro t
  have hnone : countIn 0 t times = 0 := by
    refine List.countP_eq_zero.mpr fun u _ => ?_
    simp only [Nat.add_zero, decide_eq_true_eq, not_and, Nat.not_lt]
    exact id
  rw [hnone]
  exact Nat.zero_le n

theorem countIn_append (xs ys : List Nat) : countIn w t (xs ++ ys) = countIn w t xs + countIn w t ys :=
  List.countP_append

/-- The window that ends just after the last time has all those that are not too old. -/
theorem countIn_last (hlast : ∀ u ∈ times, u ≤ t) :
    countIn w (t + 1 - w) times = countTo w t times := by
  refine List.countP_congr fun u hu => ?_
  have hle := hlast u hu
  simp only [decide_eq_true_eq]
  omega

theorem countTo_le_countIn : countTo w t times ≤ countIn w (t + 1 - w) times := by
  refine List.countP_mono_left fun u _ hu => ?_
  simp only [decide_eq_true_eq] at hu ⊢
  omega

/-- One more time, not before the others: the windows with the new time decide. -/
theorem spaced_concat (hw : 0 < w) (hlast : ∀ u ∈ times, u ≤ t) :
    Spaced w n (times ++ [t]) ↔ Spaced w n times ∧ countTo w t times < n := by
  constructor
  · intro h
    refine ⟨fun t' => ?_, ?_⟩
    · have hboth := h t'
      rw [countIn_append] at hboth
      omega
    · have hboth := h (t + 1 - w)
      have hone : countIn w (t + 1 - w) [t] = 1 := by
        refine List.countP_eq_length.mpr fun u hu => ?_
        obtain rfl := List.mem_singleton.mp hu
        simp only [decide_eq_true_eq]
        omega
      rw [countIn_append, hone, countIn_last hlast] at hboth
      omega
  · rintro ⟨h, hlt⟩ t'
    rw [countIn_append]
    by_cases ht : t' ≤ t ∧ t < t' + w
    · have hone : countIn w t' [t] ≤ 1 := List.countP_le_length
      have hle : countIn w t' times ≤ countTo w t times := by
        refine List.countP_mono_left fun u hu hin => ?_
        have hle := hlast u hu
        simp only [decide_eq_true_eq] at hin ⊢
        omega
      omega
    · have hzero : countIn w t' [t] = 0 := by
        refine List.countP_eq_zero.mpr fun u hu => ?_
        obtain rfl := List.mem_singleton.mp hu
        simpa using ht
      rw [hzero]
      exact h t'

theorem Spaced.of_append {xs ys : List Nat} (h : Spaced w n (xs ++ ys)) : Spaced w n xs := by
  intro t
  have hboth := h t
  rw [countIn_append] at hboth
  omega

theorem countTo_split {start : Nat} (hrecent : t < start + w) (hlast : ∀ u ∈ times, u ≤ t) :
    countTo w t times =
      times.countP (fun u => u < start ∧ t < u + w) + times.countP (fun u => start ≤ u) := by
  induction times with
  | nil => rfl
  | cons u us ih =>
    have hu := hlast u (by simp)
    have hus := ih fun v hv => hlast v (by simp [hv])
    unfold countTo at hus ⊢
    simp only [List.countP_cons, hus, decide_eq_true_eq]
    by_cases hs : start ≤ u
    · have hin : u ≤ t ∧ t < u + w := by omega
      have hout : ¬ (u < start ∧ t < u + w) := by omega
      simp only [if_pos hin, if_neg hout, if_pos hs]
      omega
    · have hiff : (u < start ∧ t < u + w) ↔ (u ≤ t ∧ t < u + w) := by omega
      simp only [hiff, if_neg hs]
      omega

section Arrivals
variable {a : Arrival} {as : List Arrival}

theorem arrivals_concat (a : Arrival) (times : List Nat) (t : Nat) :
    arrivals w a (times ++ [t]) =
      arrivals w a times ++ [(times.foldl (Arrival.next w) a).next w t] := by
  induction times generalizing a with
  | nil => rfl
  | cons u times ih => exact congrArg _ (ih (a.next w u))

theorem time_next (a : Arrival) (t : Nat) : (a.next w t).time = t := by
  unfold Arrival.next
  split_ifs <;> rfl

/-- One more arrival, not before the windows of the others: it is carried over to none. -/
theorem smooth_concat (hold : ∀ b ∈ as, b.opened ≤ a.time) (ha : a.opened ≤ a.time) :
    Smooth w n (as ++ [a]) ↔
      Smooth w n as ∧ (a.number ≤ n → carried w n as a + a.number ≤ n) := by
  have hsame : ∀ b ∈ as ++ [a], carried w n (as ++ [a]) b = carried w n as b := by
    intro b hb
    have hle : b.opened ≤ a.time := by
      cases List.mem_append.mp hb with
      | inl hb => exact hold b hb
      | inr hb => exact List.mem_singleton.mp hb ▸ ha
    have hout : ¬ (a.number ≤ n ∧ a.time < b.opened ∧ b.time < a.time + w) := by omega
    rw [carried, List.countP_append]
    simp [carried, hout]
  unfold Smooth
  rw [List.forall_mem_append, List.forall_mem_singleton, hsame a (by simp)]
  refine and_congr_left fun _ => forall₂_congr fun b hb => ?_
  rw [hsame b (List.mem_append_left _ hb)]

end Arrivals

end LobCity.Library
