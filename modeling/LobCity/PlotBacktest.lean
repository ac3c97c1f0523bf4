import LobCity.FixedPoint
import LobCity.Library.Csv
import LobCity.PnlCurve

/-! The file of the PnL curve, from the simulator that writes it to `plot_backtest.py` that
reads it: the whole numbers come back exactly, the others as they were rounded. -/
namespace LobCity
open Library

/-- The dialect that `csv` reads by default: comma, double quote, end of line. -/
def excel : Csv Byte := ⟨byte ',', 34, 10, by decide, by decide, by decide⟩

def signedText (x : Int64) : List Byte :=
  if x < 0 then byte '-' :: decimal x.toInt.natAbs else decimal x.toInt.natAbs

/-- The text of a `double`: `out << std::fixed << std::setprecision(4) << x` on the one side and
`float` on the other, which agree on the value rounded. -/
structure DoubleText (D F : Type) where
  print : D → List Byte
  float : List Byte → Option F
  rounded : D → F
  clear : ∀ x, excel.Clear (print x)
  float_print : ∀ x, float (print x) = some (rounded x)

section Write
variable {D F : Type} [Double D]
open Double (ofInt64)

def ascii (text : String) : List Byte := text.toList.map byte

def csvHeader : List Byte :=
  ascii "tick,position,realized_pnl,unrealized_pnl,total_pnl,mid_price" ++ [10]

def csvRow (t : DoubleText D F) (s : PnlSnapshot D) : List Byte :=
  decimal s.tickNumber.toNat ++ [byte ','] ++ signedText s.netPosition ++ [byte ','] ++
    t.print s.realizedPnl ++ [byte ','] ++ t.print s.unrealizedPnl ++ [byte ','] ++
    t.print s.totalPnl ++ [byte ','] ++ t.print (ofInt64 s.midPrice / ofInt64 10000) ++ [10]

def Simulator.PnlFile.text (t : DoubleText D F) (file : Simulator.PnlFile D) : List Byte :=
  csvHeader ++ file.rows.flatMap (csvRow t)

end Write

section Read
variable {D F : Type}

def pyDigits (text : List Byte) : Option Nat :=
  if text ≠ [] ∧ text.all fun c => byte '0' ≤ c ∧ c ≤ byte '9' then
    some (text.foldl (fun n c => n * 10 + (c - byte '0').toNat) 0)
  else none

/-- `int(text)`, of a text without blanks and underscores, which Python would take as well. -/
def pyInt (text : List Byte) : Option Int :=
  match text with
  | [] => none
  | c :: rest =>
    if c = byte '-' then (pyDigits rest).map fun n : Nat => -(n : Int)
    else if c = byte '+' then (pyDigits rest).map fun n : Nat => (n : Int)
    else (pyDigits text).map fun n : Nat => (n : Int)

/-- `row[name]` in a row of `csv.DictReader`. -/
def dictField (header row : List (List Byte)) (name : String) : Option (List Byte) :=
  (header.zip row).reverse.lookup (ascii name)

/-- The rows of `csv.DictReader`, with the header that names their fields. -/
def dictRows (text : List Byte) : List (List Byte) × List (List (List Byte)) :=
  match excel.read text with
  | [] => ([], [])
  | header :: records => (header, records.filter (· ≠ []))

structure CurvePoint (F : Type) where
  tick : Int
  position : Int
  realized : F
  unrealized : F
  totalPnl : F
  midPrice : F

def readPoint (t : DoubleText D F) (header row : List (List Byte)) : Option (CurvePoint F) := do
  let tick ← (dictField header row "tick").bind pyInt
  let position ← (dictField header row "position").bind pyInt
  let realized ← (dictField header row "realized_pnl").bind t.float
  let unrealized ← (dictField header row "unrealized_pnl").bind t.float
  let totalPnl ← (dictField header row "total_pnl").bind t.float
  let midPrice ← (dictField header row "mid_price").bind t.float
  return ⟨tick, position, realized, unrealized, totalPnl, midPrice⟩

/-- The loop of `main`; `none` where it raises. -/
def readCurve (t : DoubleText D F) (text : List Byte) : Option (List (CurvePoint F)) :=
  let (header, rows) := dictRows text
  rows.mapM (readPoint t header)

/-- `max` of a list, the first of the largest, and `min` with the comparison turned round. -/
def pyMax {α : Type} (lt : α → α → Bool) : List α → Option α
  | [] => none
  | x :: xs => some (xs.foldl (fun best y => if lt best y then y else best) x)

structure TextSummary (F : Type) where
  ticks : List Byte
  finalPnl : F
  maxPnl : F
  minPnl : F
  finalPosition : Int
  maxLong : Int
  maxShort : Int
deriving DecidableEq

/-- `print_text_summary`; `none` where it has no data or raises. -/
def printTextSummary (t : DoubleText D F) (lt : F → F → Bool) (text : List Byte) :
    Option (TextSummary F) := do
  let (header, rows) := dictRows text
  let totalPnls ← rows.mapM fun r => (dictField header r "total_pnl").bind t.float
  let positions ← rows.mapM fun r => (dictField header r "position").bind pyInt
  let last ← rows.getLast?
  let ticks ← dictField header last "tick"
  let finalPnl ← totalPnls.getLast?
  let maxPnl ← pyMax lt totalPnls
  let minPnl ← pyMax (fun a b => lt b a) totalPnls
  let finalPosition ← positions.getLast?
  let maxLong ← pyMax (fun a b => decide (a < b)) positions
  let maxShort ← pyMax (fun a b => decide (b < a)) positions
  return ⟨ticks, finalPnl, maxPnl, minPnl, finalPosition, maxLong, maxShort⟩

end Read

section Numbers

theorem digitByte_bounds (d : Fin 10) : byte '0' ≤ digitByte d ∧ digitByte d ≤ byte '9' := by
  decide +revert

theorem digitByte_sub (d : Fin 10) : (digitByte d - byte '0').toNat = d := by decide +revert

theorem digitByte_ne_sign (d : Fin 10) : digitByte d ≠ byte '-' ∧ digitByte d ≠ byte '+' := by
  decide +revert

theorem pyDigits_digitText {ds : Digits} (hsome : ds ≠ []) :
    pyDigits (digitText ds) = some (positional ds) := by
  have hdigits : digitText ds ≠ [] ∧
      (digitText ds).all fun c => byte '0' ≤ c ∧ c ≤ byte '9' := by
    refine ⟨fun h => hsome (List.map_eq_nil_iff.mp h), List.all_eq_true.mpr fun c hc => ?_⟩
    obtain ⟨d, -, rfl⟩ := List.mem_map.mp hc
    exact decide_eq_true (digitByte_bounds d)
  rw [pyDigits, if_pos hdigits, digitText, List.foldl_map]
  simp only [digitByte_sub]
  rfl

theorem pyDigits_decimal (n : Nat) : pyDigits (decimal n) = some n := by
  obtain ⟨ds, hsome, htext, hvalue⟩ := decimal_digits n
  rw [htext, pyDigits_digitText hsome, hvalue]

theorem pyInt_decimal (n : Nat) : pyInt (decimal n) = some (n : Int) := by
  have hdigits := pyDigits_decimal n
  obtain ⟨ds, hsome, htext, -⟩ := decimal_digits n
  cases ds with
  | nil => exact absurd rfl hsome
  | cons d ds =>
    obtain ⟨hminus, hplus⟩ := digitByte_ne_sign d
    rw [htext, digitText_cons] at hdigits ⊢
    rw [pyInt, if_neg hminus, if_neg hplus, hdigits, Option.map_some]

theorem pyInt_signedText (x : Int64) : pyInt (signedText x) = some x.toInt := by
  unfold signedText
  split_ifs with hneg
  · have hneg : x.toInt < 0 := Int64.lt_iff_toInt_lt.mp hneg
    have habs : -((x.toInt.natAbs : ℕ) : Int) = x.toInt := by omega
    rw [pyInt, if_pos rfl, pyDigits_decimal, Option.map_some, habs]
  · have hpos : 0 ≤ x.toInt := by
      have hle := Int64.le_iff_toInt_le.mp (Int64.not_lt.mp hneg)
      exact hle
    rw [pyInt_decimal, Int.natAbs_of_nonneg hpos]

end Numbers

section RoundTrip
variable {D F : Type} [Double D] {t : DoubleText D F}
open Double (ofInt64)

theorem clear_digitText (ds : Digits) : excel.Clear (digitText ds) := by
  have hsigns (d : Fin 10) : digitByte d ≠ byte ',' ∧ digitByte d ≠ 34 ∧ digitByte d ≠ 10 := by
    decide +revert
  refine ⟨fun h => ?_, fun h => ?_, fun h => ?_⟩
  all_goals
    obtain ⟨d, -, hd⟩ := List.mem_map.mp h
    obtain ⟨hcomma, hquote, hnewline⟩ := hsigns d
    contradiction

theorem clear_decimal (n : Nat) : excel.Clear (decimal n) := by
  obtain ⟨ds, -, htext, -⟩ := decimal_digits n
  exact htext ▸ clear_digitText ds

theorem clear_signedText (x : Int64) : excel.Clear (signedText x) := by
  obtain ⟨hcomma, hquote, hnewline⟩ := clear_decimal x.toInt.natAbs
  unfold signedText
  split_ifs
  · exact ⟨List.not_mem_cons_of_ne_of_not_mem (by decide) hcomma,
      List.not_mem_cons_of_ne_of_not_mem (by decide) hquote,
      List.not_mem_cons_of_ne_of_not_mem (by decide) hnewline⟩
  · exact ⟨hcomma, hquote, hnewline⟩

def columns : List (List Byte) :=
  [ascii "tick", ascii "position", ascii "realized_pnl", ascii "unrealized_pnl", ascii "total_pnl",
    ascii "mid_price"]

def csvFields (t : DoubleText D F) (s : PnlSnapshot D) : List (List Byte) :=
  [decimal s.tickNumber.toNat, signedText s.netPosition, t.print s.realizedPnl,
    t.print s.unrealizedPnl, t.print s.totalPnl, t.print (ofInt64 s.midPrice / ofInt64 10000)]

def CurvePoint.ofSnapshot (t : DoubleText D F) (s : PnlSnapshot D) : CurvePoint F :=
  { tick := s.tickNumber.toNat
    position := s.netPosition.toInt
    realized := t.rounded s.realizedPnl
    unrealized := t.rounded s.unrealizedPnl
    totalPnl := t.rounded s.totalPnl
    midPrice := t.rounded (ofInt64 s.midPrice / ofInt64 10000) }

theorem csvRow_eq_line (s : PnlSnapshot D) : csvRow t s = excel.line (csvFields t s) := by
  simp only [csvRow, csvFields, Csv.line, excel, List.append_assoc, List.cons_append,
    List.nil_append]

theorem clear_csvFields (s : PnlSnapshot D) : ∀ v ∈ csvFields t s, excel.Clear v := by
  simp only [csvFields, List.forall_mem_cons, List.not_mem_nil, false_implies, implies_true, and_true]
  exact ⟨clear_decimal _, clear_signedText _, t.clear _, t.clear _, t.clear _, t.clear _⟩

theorem dictRows_text (file : Simulator.PnlFile D) :
    dictRows (file.text t) = (columns, file.rows.map (csvFields t)) := by
  have hheader : csvHeader = excel.line columns := by decide +kernel
  have htext : file.text t = (columns :: file.rows.map (csvFields t)).flatMap excel.line := by
    have hrow : csvRow t = fun s => excel.line (csvFields t s) := funext csvRow_eq_line
    rw [Simulator.PnlFile.text, hheader, hrow, List.flatMap_cons, List.flatMap_map]
  have hclear : ∀ v ∈ columns, excel.Clear v := by decide +kernel
  have hread : excel.read (file.text t) = columns :: file.rows.map (csvFields t) := by
    rw [htext]
    refine Csv.read_lines fun row hrow => ?_
    cases List.mem_cons.mp hrow with
    | inl h =>
      rw [h]
      exact ⟨List.cons_ne_nil _ _, by decide, hclear⟩
    | inr h =>
      obtain ⟨s, -, rfl⟩ := List.mem_map.mp h
      exact ⟨List.cons_ne_nil _ _, by simp [csvFields], clear_csvFields s⟩
  have hfull : ∀ row ∈ file.rows.map (csvFields t), decide (row ≠ []) = true := by
    intro row hrow
    obtain ⟨s, -, rfl⟩ := List.mem_map.mp hrow
    exact decide_eq_true (List.cons_ne_nil _ _)
  rw [dictRows, hread]
  exact congrArg (Prod.mk columns) (List.filter_eq_self.mpr hfull)

theorem dictField_csvFields (s : PnlSnapshot D) :
    dictField columns (csvFields t s) "tick" = some (decimal s.tickNumber.toNat) ∧
      dictField columns (csvFields t s) "position" = some (signedText s.netPosition) ∧
      dictField columns (csvFields t s) "realized_pnl" = some (t.print s.realizedPnl) ∧
      dictField columns (csvFields t s) "unrealized_pnl" = some (t.print s.unrealizedPnl) ∧
      dictField columns (csvFields t s) "total_pnl" = some (t.print s.totalPnl) ∧
      dictField columns (csvFields t s) "mid_price" =
        some (t.print (ofInt64 s.midPrice / ofInt64 10000)) :=
  ⟨rfl, rfl, rfl, rfl, rfl, rfl⟩

theorem readPoint_csvFields (s : PnlSnapshot D) :
    readPoint t columns (csvFields t s) = some (.ofSnapshot t s) := by
  obtain ⟨htick, hposition, hrealized, hunrealized, htotal, hmid⟩ := dictField_csvFields (t := t) s
  simp only [readPoint, htick, hposition, hrealized, hunrealized, htotal, hmid, Option.bind_some,
    pyInt_decimal, pyInt_signedText, t.float_print]
  rfl

theorem mapM_csvFields {β : Type} {f : List (List Byte) → Option β} {g : PnlSnapshot D → β}
    (hf : ∀ s, f (csvFields t s) = some (g s)) (rows : List (PnlSnapshot D)) :
    (rows.map (csvFields t)).mapM f = some (rows.map g) := by
  have hcomp : f ∘ csvFields t = fun s => pure (g s) := funext hf
  rw [List.mapM_map, hcomp, List.mapM_pure]
  rfl

theorem readCurve_text (file : Simulator.PnlFile D) :
    readCurve t (file.text t) = some (file.rows.map (.ofSnapshot t)) := by
  rw [readCurve, dictRows_text]
  exact mapM_csvFields readPoint_csvFields file.rows

end RoundTrip

theorem pyMax_spec {α : Type} {lt : α → α → Bool} (h : StrictWeak lt) {xs : List α} (hsome : xs ≠ []) :
    ∃ m, pyMax lt xs = some m ∧ m ∈ xs ∧ ∀ y ∈ xs, NotAbove lt y m := by
  cases xs with
  | nil => exact absurd rfl hsome
  | cons x xs => exact ⟨runningPeak lt x xs, rfl, runningPeak_spec h x xs⟩

section Summary
variable {D F : Type} [Double D] {t : DoubleText D F} {lt : F → F → Bool}
  {history : List (PnlSnapshot D)} {file : Simulator.PnlFile D} {summary : TextSummary F}

structure Extreme {α : Type} (lt : α → α → Bool) (rows : List (PnlSnapshot D))
    (column : PnlSnapshot D → α) (m : α) : Prop where
  attained : ∃ s ∈ rows, m = column s
  above : ∀ s ∈ rows, NotAbove lt (column s) m

omit [Double D] in
theorem pyMax_column {α : Type} {lt : α → α → Bool} (h : StrictWeak lt) {rows : List (PnlSnapshot D)}
    (hsome : rows ≠ []) (column : PnlSnapshot D → α) :
    ∃ m, pyMax lt (rows.map column) = some m ∧ Extreme lt rows column m := by
  obtain ⟨m, hm, hmem, habove⟩ := pyMax_spec h fun h => hsome (List.map_eq_nil_iff.mp h)
  obtain ⟨s, hs, hval⟩ := List.mem_map.mp hmem
  exact ⟨m, hm, ⟨s, hs, hval.symm⟩, fun s hs => habove _ (List.mem_map_of_mem hs)⟩

structure Summarises (t : DoubleText D F) (lt : F → F → Bool) (rows : List (PnlSnapshot D))
    (summary : TextSummary F) : Prop where
  last : ∃ s, rows.getLast? = some s ∧ summary.ticks = decimal s.tickNumber.toNat ∧
    summary.finalPnl = t.rounded s.totalPnl ∧ summary.finalPosition = s.netPosition.toInt
  maxPnl : Extreme lt rows (fun s => t.rounded s.totalPnl) summary.maxPnl
  minPnl : Extreme (fun a b => lt b a) rows (fun s => t.rounded s.totalPnl) summary.minPnl
  maxLong : Extreme (fun a b => decide (a < b)) rows (fun s => s.netPosition.toInt) summary.maxLong
  maxShort : Extreme (fun a b => decide (b < a)) rows (fun s => s.netPosition.toInt) summary.maxShort

theorem printTextSummary_text (hlt : StrictWeak lt) (hsome : file.rows ≠ []) :
    ∃ summary, printTextSummary t lt (file.text t) = some summary ∧
      Summarises t lt file.rows summary := by
  have htotals := mapM_csvFields (t := t)
    (f := fun r => (dictField columns r "total_pnl").bind t.float)
    (fun s => by rw [(dictField_csvFields s).2.2.2.2.1, Option.bind_some, t.float_print]) file.rows
  have hpositions := mapM_csvFields (t := t)
    (f := fun r => (dictField columns r "position").bind pyInt)
    (fun s => by rw [(dictField_csvFields s).2.1, Option.bind_some, pyInt_signedText]) file.rows
  obtain ⟨s, hs⟩ : ∃ s, file.rows.getLast? = some s := ⟨_, List.getLast?_eq_some_getLast hsome⟩
  obtain ⟨maxPnl, hmaxPnl, hmaxPnls⟩ := pyMax_column hlt hsome fun s => t.rounded s.totalPnl
  obtain ⟨minPnl, hminPnl, hminPnls⟩ := pyMax_column hlt.flip hsome fun s => t.rounded s.totalPnl
  obtain ⟨maxLong, hmaxLong, hlongs⟩ := pyMax_column StrictWeak.of_linearOrder hsome
    fun s => s.netPosition.toInt
  obtain ⟨maxShort, hmaxShort, hshorts⟩ := pyMax_column StrictWeak.of_linearOrder.flip hsome
    fun s => s.netPosition.toInt
  refine ⟨⟨decimal s.tickNumber.toNat, t.rounded s.totalPnl, maxPnl, minPnl, s.netPosition.toInt,
    maxLong, maxShort⟩, ?_, ⟨s, hs, rfl, rfl, rfl⟩, hmaxPnls, hminPnls, hlongs, hshorts⟩
  simp only [printTextSummary, dictRows_text, htotals, hpositions, List.getLast?_map, hs, hmaxPnl,
    hminPnl, hmaxLong, hmaxShort, (dictField_csvFields s).1, Option.map_some, Option.bind_eq_bind,
    Option.bind_some]
  rfl

end Summary

namespace Simulator
open MarketMaker
variable {D F : Type} [Double D] {t : DoubleText D F} {lt : F → F → Bool}
  {history : List (PnlSnapshot D)}

/-- What the simulator writes is read back: the whole numbers exactly, the others rounded. The
summary has the last snapshot, its extremes are those of the rows and so within those of the
simulator's report, and of fewer than 20000 snapshots they are the same but for the 0 that the
report begins with. -/
theorem exportPnlCurve_read (hlt : StrictWeak lt) (hsome : history ≠ []) :
    ∃ file summary, exportPnlCurve history = some file ∧
      readCurve t (file.text t) = some (file.rows.map (.ofSnapshot t)) ∧
      printTextSummary t lt (file.text t) = some summary ∧ Summarises t lt file.rows summary ∧
      file.rows.getLast? = history.getLast? ∧
      summary.maxLong ≤ (maxPos history).toInt ∧ (minPos history).toInt ≤ summary.maxShort ∧
      (history.length < 20000 → (maxPos history).toInt = max 0 summary.maxLong ∧
        (minPos history).toInt = min 0 summary.maxShort) := by
  obtain ⟨file, hfile, hrows, hlast, hall⟩ := exportPnlCurve_keeps hsome
  have hfull : file.rows ≠ [] := by
    intro hnone
    rw [hnone, List.getLast?_nil] at hlast
    exact hsome (List.getLast?_eq_none_iff.mp hlast.symm)
  obtain ⟨summary, hsummary, hsums⟩ := printTextSummary_text (t := t) hlt hfull
  obtain ⟨hmax, hmax0, hmaxs⟩ := maxPos_spec history
  obtain ⟨hmin, hmin0, hmins⟩ := minPos_spec history
  have hlong : summary.maxLong ≤ (maxPos history).toInt := by
    obtain ⟨s, hs, hval⟩ := hsums.maxLong.attained
    exact hval ▸ Int64.le_iff_toInt_le.mp (hmaxs s (hrows s hs))
  have hshort : (minPos history).toInt ≤ summary.maxShort := by
    obtain ⟨s, hs, hval⟩ := hsums.maxShort.attained
    exact hval ▸ Int64.le_iff_toInt_le.mp (hmins s (hrows s hs))
  refine ⟨file, summary, hfile, readCurve_text file, hsummary, hsums, hlast, hlong, hshort,
    fun hfew => ⟨le_antisymm ?_ (max_le (Int64.le_iff_toInt_le.mp hmax0) hlong),
      le_antisymm (le_min (Int64.le_iff_toInt_le.mp hmin0) hshort) ?_⟩⟩
  · cases hmax with
    | inl hzero =>
      rw [hzero]
      exact le_max_left 0 _
    | inr hsnap =>
      obtain ⟨s, hs, hval⟩ := hsnap
      rw [hval]
      exact le_max_of_le_right (not_lt.mp (of_decide_eq_false (hsums.maxLong.above s (hall hfew s hs))))
  · cases hmin with
    | inl hzero =>
      rw [hzero]
      exact min_le_left 0 _
    | inr hsnap =>
      obtain ⟨s, hs, hval⟩ := hsnap
      rw [hval]
      exact min_le_of_right_le (not_lt.mp (of_decide_eq_false (hsums.maxShort.above s (hall hfew s hs))))

def tenThousandths (x : ℚ) : ℕ := (|x| * 10 ^ 4 + 1 / 2).floor.toNat

def printFixed (x : ℚ) : List Byte :=
  (if x < 0 then [byte '-'] else []) ++ decimal (tenThousandths x / 10 ^ 4) ++ byte '.' ::
    digitText (fourDigits (tenThousandths x))

def readUnsigned (text : List Byte) : Option ℚ := do
  let whole ← pyDigits (text.takeWhile (· ≠ byte '.'))
  let decimals ← pyDigits ((text.dropWhile (· ≠ byte '.')).drop 1)
  return whole + decimals / 10 ^ 4

def readFixed (text : List Byte) : Option ℚ :=
  if text.head? = some (byte '-') then (readUnsigned text.tail).map fun x => -x
  else readUnsigned text

theorem readUnsigned_print (n : ℕ) :
    readUnsigned (decimal (n / 10 ^ 4) ++ byte '.' :: digitText (fourDigits n)) =
      some (n / 10 ^ 4 : ℚ) := by
  obtain ⟨ds, hsome, htext, hvalue⟩ := decimal_digits (n / 10 ^ 4)
  have hdots : ∀ c ∈ digitText ds, decide (c ≠ byte '.') = true := fun c hc =>
    decide_eq_true fun h => dot_not_mem_digitText ds (h ▸ hc)
  have hlast : fourDigits n ≠ [] := List.ne_nil_of_length_pos (by
    rw [fourDigits, length_lastDigits]
    decide)
  have hsum : ((n / 10 ^ 4 : ℕ) : ℚ) + ((n % 10 ^ 4 : ℕ) : ℚ) / 10 ^ 4 = n / 10 ^ 4 := by
    have hdiv : (10 ^ 4 * (n / 10 ^ 4 : ℕ) + (n % 10 ^ 4 : ℕ) : ℚ) = n := mod_cast Nat.div_add_mod n _
    rw [← hdiv]
    field_simp
  rw [htext, readUnsigned, List.takeWhile_append_of_pos hdots, List.dropWhile_append_of_pos hdots,
    List.takeWhile_cons_of_neg (by decide), List.dropWhile_cons_of_neg (by decide), List.append_nil,
    pyDigits_digitText hsome, List.drop_one, List.tail_cons, pyDigits_digitText hlast, hvalue,
    fourDigits, positional_lastDigits]
  exact congrArg some hsum

theorem printFixed_clear (x : ℚ) : excel.Clear (printFixed x) := by
  have hwhole := clear_decimal (tenThousandths x / 10 ^ 4)
  have hdecimals := clear_digitText (fourDigits (tenThousandths x))
  have hsign : excel.Clear (if x < 0 then [byte '-'] else []) := by split_ifs <;> decide
  unfold printFixed
  exact (hsign.append hwhole).append (.append (v := [byte '.']) (by decide) hdecimals)

theorem readFixed_print (x : ℚ) :
    readFixed (printFixed x) =
      some ((if x < 0 then -1 else 1) * (tenThousandths x / 10 ^ 4 : ℚ)) := by
  have hread := readUnsigned_print (tenThousandths x)
  unfold printFixed readFixed
  split_ifs with hneg hminus hminus
  · rw [List.append_assoc, List.singleton_append, List.tail_cons, hread, Option.map_some, neg_one_mul]
  · exact absurd rfl hminus
  · obtain ⟨ds, hsome, htext, -⟩ := decimal_digits (tenThousandths x / 10 ^ 4)
    rw [List.nil_append, htext] at hminus
    cases ds with
    | nil => exact absurd rfl hsome
    | cons d ds => exact absurd (Option.some.inj hminus) (digitByte_ne_sign d).1
  · rw [List.nil_append, hread, one_mul]

def fixedText : DoubleText ℚ ℚ where
  print := printFixed
  float := readFixed
  rounded x := (if x < 0 then -1 else 1) * (tenThousandths x / 10 ^ 4)
  clear := printFixed_clear
  float_print := readFixed_print

theorem exportPnlCurve_read_three :
    ∃ (file : PnlFile ℚ) (summary : TextSummary ℚ),
      exportPnlCurve lossMaker.pnlHistory = some file ∧
      readCurve fixedText (file.text fixedText) = some (file.rows.map (.ofSnapshot fixedText)) ∧
      summary.ticks = [byte '3'] ∧ summary.finalPnl = 1 ∧ summary.maxPnl = 3 ∧ summary.minPnl = -2 ∧
      summary.maxLong = 5 ∧ summary.maxShort = -4 ∧
      (minPos lossMaker.pnlHistory).toInt = min 0 summary.maxShort := by
  have hlt : StrictWeak fun a b : ℚ => decide (a < b) := .of_linearOrder
  obtain ⟨file, summary, hfile, hread, hsummary, -, -, -, -, hfew⟩ :=
    exportPnlCurve_read (t := fixedText) hlt (show lossMaker.pnlHistory ≠ [] by decide)
  have hprinted : (exportPnlCurve lossMaker.pnlHistory).bind (fun file =>
      printTextSummary fixedText (fun a b => decide (a < b)) (file.text fixedText)) =
        some ⟨[byte '3'], 1, 3, -2, 1, 5, -4⟩ := by decide +kernel
  rw [hfile, Option.bind_some, hsummary] at hprinted
  obtain rfl := Option.some.inj hprinted
  exact ⟨file, _, hfile, hread, rfl, rfl, rfl, rfl, rfl, rfl, (hfew (by decide)).2⟩

end Simulator
end LobCity
