import LobCity.Backtests
import LobCity.Library.OrderStatistics
import Mathlib.Data.Rat.Floor
import Mathlib.Tactic.Linarith

/-! The latency samples of `processOrder`, and the report on them: its percentiles are order
statistics of the samples, at the rank that the percentage of their number comes to. -/
namespace LobCity
open Library
open Double (ofInt64)
open DoubleCasts (ofSize castSize)

structure LatencyTracker where
  samples : List UInt64
deriving DecidableEq, Repr

/-- What `printReport` prints of some samples, the percentiles each beside its percentage. -/
structure LatencyReport (D : Type) where
  samples : UInt64
  mean : D
  min : UInt64
  percentiles : List (D × UInt64)
  max : UInt64
deriving DecidableEq, Repr

namespace LatencyTracker

def new : LatencyTracker := ⟨[]⟩

def record (t : LatencyTracker) (startNs endNs : UInt64) : LatencyTracker :=
  ⟨t.samples ++ [endNs - startNs]⟩

section Report
variable {D : Type} [DoubleCasts D]

/-- `sorted[idx]`; the index is always in range. -/
def percentile (sorted : List UInt64) (p : D) : UInt64 :=
  let count := UInt64.ofNat sorted.length
  let idx := castSize (p / ofInt64 100 * ofSize count)
  let idx := if idx ≥ count then count - 1 else idx
  sorted.getD idx.toNat 0

def percentages : List D :=
  [ofInt64 50, ofInt64 90, ofInt64 95, ofInt64 99, ofInt64 999 / ofInt64 10,
    ofInt64 9999 / ofInt64 100]

def printReport (t : LatencyTracker) : Option (LatencyReport D) :=
  let sorted := t.samples.insertionSort (· ≤ ·)
  let count := UInt64.ofNat sorted.length
  if t.samples = [] then none
  else
    some {
      samples := count
      mean := ofSize (sorted.foldl (· + ·) 0) / ofSize count
      min := sorted.headD 0
      percentiles := percentages.map fun p => (p, percentile sorted p)
      max := sorted.getLastD 0 }

end Report

def rank (p : ℚ) (n : ℕ) : ℕ := min ⌊p / 100 * n⌋₊ (n - 1)

/-- The report is right: all samples are counted; each percentile is the sample of its rank, so
that no more than the percentage of them are below it and no less are not above it; the values
rise from the least sample to the largest, and the mean lies between these. -/
structure Right (samples : List UInt64) (report : LatencyReport ℚ) : Prop where
  count : report.samples.toNat = samples.length
  ranked : ∀ row ∈ report.percentiles, Ranked (· ≤ ·) samples (rank row.1 samples.length) row.2
  below : ∀ row ∈ report.percentiles,
    (samples.countP (fun x => ¬ row.2 ≤ x) : ℚ) ≤ row.1 / 100 * samples.length
  upTo : ∀ row ∈ report.percentiles,
    row.1 / 100 * samples.length ≤ (samples.countP (fun x => x ≤ row.2) : ℚ)
  rising : (report.min :: report.percentiles.map Prod.snd ++ [report.max]).Pairwise (· ≤ ·)
  least : report.min ∈ samples ∧ ∀ x ∈ samples, report.min ≤ x
  largest : report.max ∈ samples ∧ ∀ x ∈ samples, x ≤ report.max
  mean : (samples.map UInt64.toNat).sum < 2 ^ 64 →
    (report.min.toNat : ℚ) ≤ report.mean ∧ report.mean ≤ report.max.toNat

section Percentiles
variable {samples sorted : List UInt64} {n : ℕ} {p q : ℚ}

theorem rank_lt (p : ℚ) (hn : 0 < n) : rank p n < n := by
  unfold rank
  omega

theorem rank_mono (hpq : p ≤ q) (n : ℕ) : rank p n ≤ rank q n := by
  have hx : p / 100 * n ≤ q / 100 * n :=
    mul_le_mul_of_nonneg_right (div_le_div_of_nonneg_right hpq (by norm_num)) (Nat.cast_nonneg n)
  exact min_le_min_right _ (Nat.floor_mono hx)

theorem castSize_eq {x : ℚ} (hx : 0 ≤ x) (hfits : ⌊x⌋₊ < 2 ^ 64) : (castSize x).toNat = ⌊x⌋₊ := by
  have hfloor : x.num.tdiv x.den = ⌊x⌋ := by
    rw [Int.tdiv_eq_ediv_of_nonneg (Rat.num_nonneg.mpr hx)]
    exact Rat.floor_def'.symm
  have hnat : (x.num.tdiv x.den).toNat = ⌊x⌋₊ := by
    rw [hfloor, Int.floor_toNat]
  show (UInt64.ofNat (x.num.tdiv x.den).toNat).toNat = _
  rw [hnat]
  exact UInt64.toNat_ofNat_of_lt hfits

theorem percentile_eq (hn : 0 < sorted.length) (hsize : sorted.length < 2 ^ 64) (hp : 0 ≤ p)
    (hp' : p ≤ 100) : sorted[rank p sorted.length]? = some (percentile sorted p) := by
  set x : ℚ := p / 100 * sorted.length with hx
  have hx0 : 0 ≤ x := mul_nonneg (div_nonneg hp (by norm_num)) (Nat.cast_nonneg _)
  have hx1 : x ≤ sorted.length := by
    have hone : p / 100 ≤ 1 := by linarith
    exact mul_le_of_le_one_left (Nat.cast_nonneg _) hone
  have hfloor : ⌊x⌋₊ ≤ sorted.length := Nat.floor_le_of_le hx1
  have hcount : (UInt64.ofNat sorted.length).toNat = sorted.length := UInt64.toNat_ofNat_of_lt hsize
  have hidx : (castSize x).toNat = ⌊x⌋₊ := castSize_eq hx0 (by omega)
  have hproduct : (p / ofInt64 100 * ofSize (UInt64.ofNat sorted.length) : ℚ) = x := by
    show p / 100 * ((UInt64.ofNat sorted.length).toNat : ℚ) = x
    rw [hcount]
  have hrank : (if castSize x ≥ UInt64.ofNat sorted.length then UInt64.ofNat sorted.length - 1
      else castSize x).toNat = rank p sorted.length := by
    show _ = min ⌊x⌋₊ (sorted.length - 1)
    split_ifs with hge
    · have hge := UInt64.le_iff_toNat_le.mp hge
      have hone : (1 : UInt64) ≤ UInt64.ofNat sorted.length :=
        UInt64.le_iff_toNat_le.mpr (by rw [hcount]; exact hn)
      rw [UInt64.toNat_sub_of_le _ _ hone, hcount]
      rw [hidx, hcount] at hge
      show sorted.length - 1 = _
      omega
    · have hlt := UInt64.lt_iff_toNat_lt.mp (UInt64.not_le.mp hge)
      rw [hidx, hcount] at hlt
      rw [hidx]
      omega
  have hin : rank p sorted.length < sorted.length := rank_lt p hn
  unfold percentile
  simp only [hproduct]
  rw [hrank, List.getD_eq_getElem?_getD, List.getElem?_eq_getElem hin, Option.getD_some]

/-- Values of rising ranks rise. -/
theorem rising_of_ranks {rows : List (ℕ × UInt64)}
    (hranked : ∀ row ∈ rows, Ranked (· ≤ ·) samples row.1 row.2)
    (hranks : rows.Pairwise fun row row' => row.1 ≤ row'.1) :
    (rows.map Prod.snd).Pairwise (· ≤ ·) := by
  rw [List.pairwise_map]
  exact hranks.imp_of_mem fun {row row'} hrow hrow' hle =>
    (hranked row hrow).mono (hranked row' hrow') hle

/-- No more than the percentage are below the value of its rank, and no less not above it. -/
theorem percentage_bounds {v : UInt64} (h : Ranked (· ≤ ·) samples (rank p samples.length) v)
    (hp : 0 ≤ p) (hp' : p ≤ 100) :
    (samples.countP (fun x => ¬ v ≤ x) : ℚ) ≤ p / 100 * samples.length ∧
      p / 100 * samples.length ≤ (samples.countP (fun x => x ≤ v) : ℚ) := by
  have hx0 : 0 ≤ p / 100 * samples.length :=
    mul_nonneg (div_nonneg hp (by norm_num)) (Nat.cast_nonneg _)
  have hx1 : p / 100 * samples.length ≤ samples.length := by
    have hone : p / 100 ≤ 1 := by linarith
    exact mul_le_of_le_one_left (Nat.cast_nonneg _) hone
  have hbelow : samples.countP (fun x => ¬ v ≤ x) ≤ ⌊p / 100 * samples.length⌋₊ :=
    h.below.trans (min_le_left _ _)
  refine ⟨(Nat.cast_le.mpr hbelow).trans (Nat.floor_le hx0), ?_⟩
  have hupTo := h.upTo
  by_cases hlast : ⌊p / 100 * (samples.length : ℚ)⌋₊ ≤ samples.length - 1
  · have hrank : rank p samples.length = ⌊p / 100 * (samples.length : ℚ)⌋₊ := min_eq_left hlast
    rw [hrank] at hupTo
    calc p / 100 * samples.length
        ≤ (⌊p / 100 * (samples.length : ℚ)⌋₊ + 1 : ℚ) := le_of_lt (Nat.lt_floor_add_one _)
      _ ≤ (samples.countP (fun x => x ≤ v) : ℚ) := by exact_mod_cast hupTo
  · have hrank : rank p samples.length = samples.length - 1 := min_eq_right (by omega)
    rw [hrank] at hupTo
    have hcount : samples.length ≤ samples.countP fun x => x ≤ v := by omega
    exact hx1.trans (Nat.cast_le.mpr hcount)

theorem ranked_least {v : UInt64} (h : Ranked (· ≤ ·) samples 0 v) : ∀ x ∈ samples, v ≤ x := by
  intro x hx
  have hnone := List.countP_eq_zero.mp (Nat.le_zero.mp h.below) x hx
  simpa using hnone

theorem ranked_largest {v : UInt64} (h : Ranked (· ≤ ·) samples (samples.length - 1) v) :
    ∀ x ∈ samples, x ≤ v := by
  have hpos := List.length_pos_of_mem h.mem
  have hupTo := h.upTo
  have hall : samples.countP (fun x => x ≤ v) = samples.length :=
    Nat.le_antisymm List.countP_le_length (by omega)
  exact fun x hx => of_decide_eq_true (List.countP_eq_length.mp hall x hx)

theorem toNat_total (xs : List UInt64) (n : UInt64) :
    (xs.foldl (· + ·) n).toNat = (n.toNat + (xs.map UInt64.toNat).sum) % 2 ^ 64 := by
  induction xs generalizing n with
  | nil => exact (Nat.mod_eq_of_lt n.toNat_lt).symm
  | cons x xs ih =>
    rw [List.foldl_cons, ih, UInt64.toNat_add, List.map_cons, List.sum_cons, Nat.mod_add_mod,
      Nat.add_assoc]

theorem sum_bounds {xs : List UInt64} {lo hi : ℕ} (h : ∀ x ∈ xs, lo ≤ x.toNat ∧ x.toNat ≤ hi) :
    lo * xs.length ≤ (xs.map UInt64.toNat).sum ∧ (xs.map UInt64.toNat).sum ≤ hi * xs.length := by
  induction xs with
  | nil => exact ⟨Nat.le_refl _, Nat.le_refl _⟩
  | cons x xs ih =>
    obtain ⟨hlo, hhi⟩ := h x List.mem_cons_self
    obtain ⟨ihlo, ihhi⟩ := ih fun y hy => h y (List.mem_cons_of_mem x hy)
    rw [List.map_cons, List.sum_cons, List.length_cons, Nat.mul_succ, Nat.mul_succ]
    omega

end Percentiles

theorem percentages_rat : (percentages : List ℚ) = [50, 90, 95, 99, 999 / 10, 9999 / 100] := by
  decide +kernel

theorem rising_of_rows {samples : List UInt64} {value : ℚ → UInt64} {least largest : UInt64}
    (hn : 0 < samples.length) (hleast : Ranked (· ≤ ·) samples 0 least)
    (hlargest : Ranked (· ≤ ·) samples (samples.length - 1) largest)
    (hvalue : ∀ p ∈ (percentages : List ℚ),
      Ranked (· ≤ ·) samples (rank p samples.length) (value p)) :
    (least :: ((percentages : List ℚ).map fun p => (p, value p)).map Prod.snd ++ [largest]).Pairwise
      (· ≤ ·) := by
  have hrising : (percentages : List ℚ).Pairwise (· ≤ ·) := by
    rw [percentages_rat]
    decide +kernel
  let ranks := (percentages : List ℚ).map fun p => (rank p samples.length, value p)
  let rows := (0, least) :: ranks ++ [(samples.length - 1, largest)]
  have hranked : ∀ row ∈ rows, Ranked (· ≤ ·) samples row.1 row.2 := by
    intro row hrow
    rcases List.mem_append.mp hrow with hrow | hrow
    · rcases List.mem_cons.mp hrow with rfl | hrow
      · exact hleast
      · obtain ⟨p, hp, rfl⟩ := List.mem_map.mp hrow
        exact hvalue p hp
    · obtain rfl := List.mem_singleton.mp hrow
      exact hlargest
  have hmiddle : ranks.Pairwise fun row row' => row.1 ≤ row'.1 :=
    List.pairwise_map.mpr (hrising.imp fun hle => rank_mono hle _)
  have hranks : rows.Pairwise fun row row' => row.1 ≤ row'.1 := by
    refine List.pairwise_append.mpr ⟨hmiddle.cons fun _ _ => Nat.zero_le _,
      List.pairwise_singleton _ _, fun row hrow row' hrow' => ?_⟩
    obtain rfl := List.mem_singleton.mp hrow'
    rcases List.mem_cons.mp hrow with rfl | hrow
    · exact Nat.zero_le _
    · obtain ⟨p, -, rfl⟩ := List.mem_map.mp hrow
      exact Nat.le_sub_one_of_lt (rank_lt p hn)
  have hvalues := rising_of_ranks hranked hranks
  rwa [show rows.map Prod.snd = least :: (percentages.map fun p => (p, value p)).map Prod.snd ++
    [largest] by simp [rows, ranks]] at hvalues

theorem mean_bounds {samples sorted : List UInt64} {least largest : UInt64}
    (hperm : sorted.Perm samples) (hn : 0 < samples.length) (hsize : samples.length < 2 ^ 64)
    (hleast : ∀ x ∈ samples, least ≤ x) (hlargest : ∀ x ∈ samples, x ≤ largest)
    (hfits : (samples.map UInt64.toNat).sum < 2 ^ 64) :
    let mean : ℚ := ofSize (sorted.foldl (· + ·) 0) / ofSize (UInt64.ofNat sorted.length)
    (least.toNat : ℚ) ≤ mean ∧ mean ≤ largest.toNat := by
  have htotal : (sorted.foldl (· + ·) 0).toNat = (samples.map UInt64.toNat).sum := by
    rw [toNat_total, (hperm.map UInt64.toNat).sum_eq]
    show (0 + (samples.map UInt64.toNat).sum) % 2 ^ 64 = _
    rw [Nat.zero_add, Nat.mod_eq_of_lt hfits]
  have hcount : (UInt64.ofNat sorted.length).toNat = samples.length := by
    rw [hperm.length_eq]
    exact UInt64.toNat_ofNat_of_lt hsize
  have hmean : (ofSize (sorted.foldl (· + ·) 0) / ofSize (UInt64.ofNat sorted.length) : ℚ) =
      ((samples.map UInt64.toNat).sum : ℚ) / samples.length := by
    show ((sorted.foldl (· + ·) 0).toNat : ℚ) / ((UInt64.ofNat sorted.length).toNat : ℚ) = _
    rw [htotal, hcount]
  obtain ⟨hlo, hhi⟩ := sum_bounds fun x hx =>
    ⟨UInt64.le_iff_toNat_le.mp (hleast x hx), UInt64.le_iff_toNat_le.mp (hlargest x hx)⟩
  have hpos : (0 : ℚ) < samples.length := Nat.cast_pos.mpr hn
  show _ ≤ _ ∧ _ ≤ _
  rw [hmean]
  exact ⟨(le_div_iff₀ hpos).mpr (by exact_mod_cast hlo), (div_le_iff₀ hpos).mpr (by exact_mod_cast hhi)⟩

/-- In exact arithmetic the report on any samples is right. -/
theorem printReport_right {t : LatencyTracker} (hsome : t.samples ≠ [])
    (hsize : t.samples.length < 2 ^ 64) :
    ∃ report : LatencyReport ℚ, t.printReport = some report ∧ Right t.samples report := by
  obtain ⟨samples⟩ := t
  have hn : 0 < samples.length := List.length_pos_of_ne_nil hsome
  have hsize : samples.length < 2 ^ 64 := hsize
  set sorted := samples.insertionSort (· ≤ ·) with hsorted
  have hperm : sorted.Perm samples := List.perm_insertionSort _ samples
  have hlength : sorted.length = samples.length := hperm.length_eq
  have hranked {k : ℕ} (hk : k < samples.length) {v : UInt64} (hv : sorted[k]? = some v) :
      Ranked (· ≤ ·) samples k v := by
    have hsorts : ∃ w, sorted[k]? = some w ∧ Ranked (· ≤ ·) samples k w := ranked_insertionSort hk
    obtain ⟨w, hw, hranked⟩ := hsorts
    obtain rfl := Option.some.inj (hv.symm.trans hw)
    exact hranked
  have hfirst : sorted[0]? = some (sorted.headD 0) := by
    obtain ⟨x, rest, hcons⟩ := List.exists_cons_of_length_pos (hlength ▸ hn)
    rw [hcons]
    rfl
  have hlast : sorted[samples.length - 1]? = some (sorted.getLastD 0) := by
    have hne : sorted ≠ [] := List.ne_nil_of_length_pos (hlength ▸ hn)
    rw [← hlength, ← List.getLast?_eq_getElem?, List.getLast?_eq_some_getLast hne,
      List.getLastD_eq_getLast?, List.getLast?_eq_some_getLast hne, Option.getD_some]
  have hmin := hranked hn hfirst
  have hmax := hranked (Nat.sub_lt hn Nat.one_pos) hlast
  have hrange : ∀ p ∈ (percentages : List ℚ), 0 ≤ p ∧ p ≤ 100 := by
    rw [percentages_rat]
    decide +kernel
  have hrows : ∀ row ∈ (percentages : List ℚ).map (fun p => (p, percentile sorted p)),
      (0 ≤ row.1 ∧ row.1 ≤ 100) ∧ Ranked (· ≤ ·) samples (rank row.1 samples.length) row.2 := by
    intro row hrow
    obtain ⟨p, hp, rfl⟩ := List.mem_map.mp hrow
    refine ⟨hrange p hp, hranked (rank_lt p hn) ?_⟩
    rw [← hlength]
    exact percentile_eq (hlength ▸ hn) (hlength ▸ hsize) (hrange p hp).1 (hrange p hp).2
  refine ⟨_, if_neg hsome, ⟨?_, fun row hrow => (hrows row hrow).2, fun row hrow => ?_,
    fun row hrow => ?_, ?_, ⟨hmin.mem, ranked_least hmin⟩, ⟨hmax.mem, ranked_largest hmax⟩,
    fun htotal => ?_⟩⟩
  · show (UInt64.ofNat sorted.length).toNat = samples.length
    rw [hlength]
    exact UInt64.toNat_ofNat_of_lt hsize
  · obtain ⟨⟨h0, h1⟩, hrow⟩ := hrows row hrow
    exact (percentage_bounds hrow h0 h1).1
  · obtain ⟨⟨h0, h1⟩, hrow⟩ := hrows row hrow
    exact (percentage_bounds hrow h0 h1).2
  · exact rising_of_rows hn hmin hmax fun p hp => (hrows _ (List.mem_map_of_mem hp)).2
  · exact mean_bounds hperm hn hsize (ranked_least hmin) (ranked_largest hmax) htotal

end LatencyTracker
end LobCity
