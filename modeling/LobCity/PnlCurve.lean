import LobCity.MakerReport

/-! The PnL curve that a run leaves in a file: a sample of the snapshots at equal distances and
the last one again. -/
namespace LobCity

/-- `for (i = ..; i < v.size(); i += step)` -/
def sampleFrom {α : Type} (v : List α) (step : Nat) (hstep : 0 < step) (i : Nat) : List α :=
  if h : i < v.length then v.get ⟨i, h⟩ :: sampleFrom v step hstep (i + step) else []
termination_by v.length - i

namespace Simulator
variable {D : Type}

/-- The distance of the samples: of a history of `n` at most 20000 rows are kept. -/
def sampleStep (n : Nat) : Nat := max 1 (n / 10000)

theorem sampleStep_pos (n : Nat) : 0 < sampleStep n := Nat.le_max_left 1 _

/-- The rows of the file behind its header, and the number of points that the program tells. -/
structure PnlFile (D : Type) where
  rows : List (PnlSnapshot D)
  points : Nat

/-- No file is written for an empty history. -/
def exportPnlCurve (history : List (PnlSnapshot D)) : Option (PnlFile D) :=
  let n := history.length
  let step := sampleStep n
  if n = 0 then none
  else
    some {
      rows := sampleFrom history step (sampleStep_pos n) 0 ++
        if n > 1 then history.getLast?.toList else []
      points := min n (n / step + 1) }

end Simulator

section Sample
variable {α : Type} {v : List α} {step : Nat} {hstep : 0 < step}

theorem getElem?_sampleFrom (i k : Nat) : (sampleFrom v step hstep i)[k]? = v[i + k * step]? := by
  fun_induction sampleFrom v step hstep i generalizing k with
  | case1 i h ih =>
    cases k with
    | zero => simp [h]
    | succ k =>
      rw [List.getElem?_cons_succ, ih k, Nat.succ_mul, Nat.add_assoc, Nat.add_comm step]
  | case2 i h =>
    rw [List.getElem?_nil, List.getElem?_eq_none]
    omega

theorem length_sampleFrom (i : Nat) :
    (sampleFrom v step hstep i).length = (v.length - i + step - 1) / step := by
  fun_induction sampleFrom v step hstep i with
  | case1 i h ih =>
    rw [List.length_cons, ih]
    have hfirst : (v.length - i + step - 1) / step = (v.length - i - 1) / step + 1 := by
      rw [← Nat.add_div_right _ hstep]
      congr 1
      omega
    have hrest : (v.length - (i + step) + step - 1) / step = (v.length - i - 1) / step := by
      by_cases hlast : v.length ≤ i + step
      · rw [Nat.div_eq_of_lt (by omega), Nat.div_eq_of_lt (by omega)]
      · congr 1
        omega
    rw [hfirst, hrest]
  | case2 i h =>
    rw [List.length_nil, Nat.div_eq_of_lt (by omega)]

theorem add_sub_one_div (n : Nat) (hstep : 0 < step) :
    (n + step - 1) / step = n / step + if step ∣ n then 0 else 1 := by
  have hdiv := Nat.div_add_mod n step
  have hmod := Nat.mod_lt n hstep
  set d := n / step with hd
  by_cases hdvd : step ∣ n
  · rw [if_pos hdvd, Nat.add_zero]
    have hzero := Nat.mod_eq_zero_of_dvd hdvd
    have hsum : n + step - 1 = (step - 1) + step * d := by omega
    rw [hsum, Nat.add_mul_div_left _ _ hstep, Nat.div_eq_of_lt (by omega), Nat.zero_add]
  · rw [if_neg hdvd]
    have hpos : 0 < n % step := Nat.pos_of_ne_zero fun h => hdvd (Nat.dvd_of_mod_eq_zero h)
    have hsum : n + step - 1 = (n % step - 1) + step * (d + 1) := by
      rw [Nat.mul_succ]
      omega
    rw [hsum, Nat.add_mul_div_left _ _ hstep, Nat.div_eq_of_lt (by omega), Nat.zero_add]

/-- A sample is at most one distance before each value. -/
theorem exists_sample {j : Nat} (hj : j < v.length) :
    j / step < (sampleFrom v step hstep 0).length ∧ j / step * step ≤ j ∧
      j < j / step * step + step := by
  have hdiv := Nat.div_add_mod j step
  have hmod := Nat.mod_lt j hstep
  rw [Nat.mul_comm] at hdiv
  refine ⟨?_, by omega, by omega⟩
  rw [length_sampleFrom, Nat.sub_zero, Nat.div_lt_iff_lt_mul hstep]
  have hround : v.length + step - 1 < ((v.length + step - 1) / step) * step + step :=
    Nat.lt_div_mul_add hstep
  omega

end Sample

namespace Simulator
variable {D : Type}

/-- Up to 19999 snapshots all are kept, and from then on no more than 15001. -/
theorem samples_le (n : Nat) :
    (n < 20000 → sampleStep n = 1) ∧
      (20000 ≤ n → (n + sampleStep n - 1) / sampleStep n ≤ 15001) := by
  have hpos := sampleStep_pos n
  unfold sampleStep at *
  refine ⟨fun hlt => by omega, fun hle => ?_⟩
  have hstep : max 1 (n / 10000) = n / 10000 := by omega
  rw [hstep] at hpos ⊢
  refine Nat.le_of_lt_succ ((Nat.div_lt_iff_lt_mul hpos).mpr ?_)
  omega

theorem sampleFrom_one {v : List (PnlSnapshot D)} {hstep : 0 < sampleStep v.length}
    (hone : sampleStep v.length = 1) : sampleFrom v (sampleStep v.length) hstep 0 = v := by
  refine List.ext_getElem? fun k => ?_
  rw [getElem?_sampleFrom, Nat.zero_add, hone, Nat.mul_one]

theorem exportPnlCurve_keeps {history : List (PnlSnapshot D)} (hsome : history ≠ []) :
    ∃ file, exportPnlCurve history = some file ∧ (∀ s ∈ file.rows, s ∈ history) ∧
      file.rows.getLast? = history.getLast? ∧
      (history.length < 20000 → ∀ s ∈ history, s ∈ file.rows) := by
  have hn : 0 < history.length := List.length_pos_of_ne_nil hsome
  have hfew := (samples_le history.length).1
  obtain ⟨last, hlast⟩ : ∃ last, history.getLast? = some last :=
    ⟨_, List.getLast?_eq_some_getLast hsome⟩
  have hfile : exportPnlCurve history = some _ := if_neg hn.ne'
  refine ⟨_, hfile, fun s hs => ?_, ?_, fun hlt s hs => ?_⟩
  · cases List.mem_append.mp hs with
    | inl hs =>
      obtain ⟨k, hk⟩ := List.mem_iff_getElem?.mp hs
      rw [getElem?_sampleFrom] at hk
      exact List.mem_of_getElem? hk
    | inr hs =>
      split_ifs at hs
      · rw [hlast] at hs
        exact List.mem_singleton.mp hs ▸ List.mem_of_getLast? hlast
      · exact absurd hs List.not_mem_nil
  · by_cases hmore : history.length > 1
    · simp [if_pos hmore, hlast]
    · rw [sampleFrom_one (hfew (by omega)), if_neg hmore, List.append_nil]
  · rw [sampleFrom_one (hfew hlt)]
    exact List.mem_append_left _ hs

/-- The file keeps every `step`-th snapshot, from the first one on, and then the last one, also
where it is among them already; these are 20000 rows at most, and all snapshots as long as
there are fewer than 20000. The number told is that of the rows, or one less. -/
theorem exportPnlCurve_rows {history : List (PnlSnapshot D)} (hsome : history ≠ []) :
    let step := sampleStep history.length
    ∃ file samples, exportPnlCurve history = some file ∧
      file.rows = samples ++ (if history.length > 1 then history.getLast?.toList else []) ∧
      (∀ k, samples[k]? = history[k * step]?) ∧
      (∀ j < history.length, ∃ k < samples.length, k * step ≤ j ∧ j < k * step + step) ∧
      file.rows.getLast? = history.getLast? ∧ file.rows.length ≤ 20000 ∧
      (history.length < 20000 → samples = history) ∧
      file.rows.length = file.points +
        if history.length > 1 ∧ (step = 1 ∨ ¬ step ∣ history.length) then 1 else 0 := by
  intro step
  have hn : 0 < history.length := List.length_pos_of_ne_nil hsome
  have hstep : 0 < step := sampleStep_pos history.length
  obtain ⟨hfew, hmany⟩ := samples_le history.length
  set samples := sampleFrom history step (sampleStep_pos history.length) 0 with hsamples
  have hget (k : Nat) : samples[k]? = history[k * step]? := by
    rw [hsamples, getElem?_sampleFrom, Nat.zero_add]
  have hlength : samples.length =
      history.length / step + if step ∣ history.length then 0 else 1 := by
    rw [hsamples, length_sampleFrom, Nat.sub_zero, add_sub_one_div _ hstep]
  have hall (hone : step = 1) : samples = history := sampleFrom_one hone
  obtain ⟨last, hlast⟩ : ∃ last, history.getLast? = some last :=
    ⟨_, List.getLast?_eq_some_getLast hsome⟩
  have hrows : (samples ++ if history.length > 1 then history.getLast?.toList else []).length =
      samples.length + if history.length > 1 then 1 else 0 := by
    rw [List.length_append, hlast]
    split_ifs <;> rfl
  refine ⟨⟨_, min history.length (history.length / step + 1)⟩, samples, ?_, rfl, hget, fun j hj => ?_,
    ?_, ?_, fun hlt => hall (hfew hlt), ?_⟩
  · unfold exportPnlCurve
    exact if_neg hn.ne'
  · exact ⟨j / step, exists_sample hj⟩
  · by_cases hmore : history.length > 1
    · simp [if_pos hmore, hlast]
    · rw [hall (hfew (by omega)), if_neg hmore, List.append_nil]
  · rw [hrows]
    by_cases hlt : history.length < 20000
    · rw [hall (hfew hlt)]
      split_ifs <;> omega
    · have hle := hmany (by omega)
      have hceil := add_sub_one_div history.length hstep
      rw [← hlength] at hceil
      rw [hceil] at hle
      split_ifs <;> omega
  · rw [hrows, hlength]
    by_cases hone : step = 1
    · rw [hone]
      simp only [Nat.div_one, Nat.one_dvd, if_true, true_or, and_true]
      omega
    · have hfar : 20000 ≤ history.length := by
        by_contra hlt
        exact hone (hfew (by omega))
      have hhalf : history.length / step ≤ history.length / 2 :=
        Nat.div_le_div_left (by omega) (by decide)
      have hmin : min history.length (history.length / step + 1) = history.length / step + 1 := by
        omega
      have hmore : history.length > 1 := by omega
      rw [hmin]
      by_cases hdvd : step ∣ history.length
      · simp [hdvd, hone, hmore]
      · simp [hdvd, hmore]

/-- The last of three snapshots stands in the file twice. -/
theorem exportPnlCurve_rows_three :
    ∃ file, exportPnlCurve MarketMaker.lossMaker.pnlHistory = some file ∧
      file.rows.map PnlSnapshot.tickNumber = [1, 2, 3, 3] ∧ file.rows.length ≤ 20000 := by
  obtain ⟨file, samples, hfile, hrows, -, -, -, hle, hall, -⟩ :=
    exportPnlCurve_rows (show MarketMaker.lossMaker.pnlHistory ≠ [] by decide)
  refine ⟨file, hfile, ?_, hle⟩
  rw [hrows, hall (by decide)]
  decide

end Simulator
end LobCity
