import Mathlib.Data.List.Basic

/-! Cutting a stream into frames. A framer says how long the first frame of a buffer is;
more input does not change its mind. Then it makes no difference in which pieces a stream
arrives. -/
namespace LobCity.Library
variable {α : Type*}

structure Framer (α : Type*) where
  /-- the length of the first frame, if the buffer has a whole one -/
  len? : List α → Option Nat
  pos : ∀ {x n}, len? x = some n → 0 < n
  le : ∀ {x n}, len? x = some n → n ≤ x.length
  stable : ∀ {x n}, len? x = some n → ∀ y, len? (x ++ y) = some n

namespace Framer
variable (F : Framer α) {x : List α} {n : Nat}

/-- The whole frames at the front, and what is left behind them. -/
def cut (x : List α) : List (List α) × List α :=
  match _h : F.len? x with
  | none => ([], x)
  | some n => (x.take n :: (cut (x.drop n)).1, (cut (x.drop n)).2)
termination_by x.length
decreasing_by
  all_goals
    have hpos := F.pos _h
    have hle := F.le _h
    rw [List.length_drop]
    omega

variable {F}

theorem cut_none (h : F.len? x = none) : F.cut x = ([], x) := by
  rw [cut]
  split
  · rfl
  · rename_i n hn
    rw [h] at hn
    cases hn

theorem cut_some (h : F.len? x = some n) :
    F.cut x = (x.take n :: (F.cut (x.drop n)).1, (F.cut (x.drop n)).2) := by
  conv_lhs => rw [cut]
  split
  · rename_i hn
    rw [h] at hn
    cases hn
  · rename_i n' hn
    rw [h] at hn
    cases hn
    rfl

theorem len?_cut (x : List α) : F.len? (F.cut x).2 = none := by
  induction x using cut.induct F with
  | case1 x h =>
    rw [cut_none h]
    exact h
  | case2 x n h ih =>
    rw [cut_some h]
    exact ih

/-- More input is cut behind what was left over. -/
theorem cut_append (x y : List α) :
    F.cut (x ++ y) = ((F.cut x).1 ++ (F.cut ((F.cut x).2 ++ y)).1, (F.cut ((F.cut x).2 ++ y)).2) := by
  induction x using cut.induct F with
  | case1 x h => rw [cut_none h, List.nil_append]
  | case2 x n h ih =>
    have hle := F.le h
    rw [cut_some (F.stable h y), List.take_append_of_le_length hle, List.drop_append_of_le_length hle,
      ih, cut_some h, List.cons_append]

theorem cut_prefix {x y : List α} (h : x <+: y) : (F.cut x).1 <+: (F.cut y).1 := by
  obtain ⟨rest, rfl⟩ := h
  rw [cut_append]
  exact List.prefix_append _ _

def feed (F : Framer α) (state : List (List α) × List α) (chunk : List α) : List (List α) × List α :=
  (state.1 ++ (F.cut (state.2 ++ chunk)).1, (F.cut (state.2 ++ chunk)).2)

theorem foldl_feed (state : List (List α) × List α) (chunks : List (List α))
    (h : F.len? state.2 = none) :
    chunks.foldl F.feed state =
      (state.1 ++ (F.cut (state.2 ++ chunks.flatten)).1, (F.cut (state.2 ++ chunks.flatten)).2) := by
  induction chunks generalizing state with
  | nil => simp [cut_none h]
  | cons chunk chunks ih =>
    have hrest : F.len? (F.feed state chunk).2 = none := len?_cut _
    rw [List.foldl_cons, ih _ hrest, List.flatten_cons, ← List.append_assoc,
      cut_append (state.2 ++ chunk)]
    simp only [feed, List.append_assoc]

/-- The pieces of a stream are cut as the whole of it is. -/
theorem foldl_feed_nil (chunks : List (List α)) (h : F.len? [] = none) :
    chunks.foldl F.feed ([], []) = F.cut chunks.flatten := by
  rw [foldl_feed _ _ h]
  simp

end Framer
end LobCity.Library
