import Mathlib.Data.List.Basic

/-! Computations that log what they touch. `Logs P x v` reads: `x` returns `v`, and every
entry it adds to the log satisfies `P`. -/
namespace LobCity.Library
variable {ι α β : Type}

abbrev Logged (ι : Type) := StateM (List ι)

namespace Logged

def touch (i : ι) (v : α) : Logged ι α := fun log => (v, log ++ [i])

def Logs (P : ι → Prop) (x : Logged ι α) (v : α) : Prop :=
  ∀ log, ∃ added, x log = (v, log ++ added) ∧ ∀ i ∈ added, P i

namespace Logs
variable {P Q : ι → Prop} {x : Logged ι α} {v : α}

theorem pure (v : α) : Logs P (Pure.pure v) v := by
  intro log
  refine ⟨[], ?_, by simp⟩
  rw [List.append_nil]
  rfl

theorem touch {i : ι} (hi : P i) (v : α) : Logs P (touch i v) v := by
  intro log
  exact ⟨[i], rfl, by simpa using hi⟩

theorem bind {f : α → Logged ι β} {w : β} (hx : Logs P x v) (hf : Logs P (f v) w) :
    Logs P (x >>= f) w := by
  intro log
  obtain ⟨added, hrun, hadded⟩ := hx log
  obtain ⟨added', hrun', hadded'⟩ := hf (log ++ added)
  refine ⟨added ++ added', ?_, ?_⟩
  · have hstep : (x >>= f) log = f (x log).1 (x log).2 := rfl
    rw [hstep, hrun, hrun', List.append_assoc]
  · intro i hi
    cases List.mem_append.mp hi with
    | inl h => exact hadded i h
    | inr h => exact hadded' i h

theorem run (hx : Logs P x v) : ∃ log, x [] = (v, log) ∧ ∀ i ∈ log, P i := hx []

end Logs
end Logged
end LobCity.Library
