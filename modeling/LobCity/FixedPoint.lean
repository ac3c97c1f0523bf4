import LobCity.Library.Int64Range
import LobCity.Library.Numerals
import LobCity.Library.Pairs
import LobCity.SentMessages

/-! Numbers in FIX text. Digit strings and decimal numerals are the texts that denote a
number; what the two number parsers return on one is that number, the price one with four
decimals and rounded down. -/
namespace LobCity
open Library

abbrev Digits := List (Fin 10)

def digitText (ds : Digits) : List Byte := ds.map fun d : Fin 10 => digitByte d

/-- Digits, and behind a dot, if there is one, any number of digits. -/
structure Numeral where
  whole : Digits
  decimals : Option Digits
deriving DecidableEq

namespace Numeral

def text (n : Numeral) : List Byte :=
  digitText n.whole ++ n.decimals.elim [] fun ds => byte '.' :: digitText ds

def value (n : Numeral) : ℚ := positional n.whole + n.decimals.elim 0 fraction

def price (n : Numeral) : ℤ := ⌊n.value * 10 ^ 4⌋

def scaled (n : Numeral) : ℕ := positional n.whole * 10 ^ 4 + n.decimals.elim 0 (places 4)

theorem price_eq (n : Numeral) : n.price = n.scaled := by
  have hwhole (x : ℚ) : ⌊(positional n.whole + x) * 10 ^ 4⌋ =
      ⌊x * 10 ^ 4⌋ + positional n.whole * 10 ^ 4 := by
    have hadd : (positional n.whole + x) * 10 ^ 4 =
        x * 10 ^ 4 + ((positional n.whole * 10 ^ 4 : ℕ) : ℚ) := by
      push_cast
      ring
    rw [hadd, Int.floor_add_natCast, Nat.cast_mul, Nat.cast_pow, Nat.cast_ofNat]
  rw [price, value, scaled, hwhole]
  cases n.decimals with
  | none => simp
  | some ds =>
    have hfloor := floor_fraction ds 4
    simp only [Nat.cast_ofNat] at hfloor
    rw [Option.elim_some, Option.elim_some, hfloor]
    push_cast
    ring

end Numeral

/-- No product or sum of the loop of `parseFastDecimal`, nor of the padding behind it, overflows. -/
def DecimalExact : List Byte → Int64 → Nat → Bool → Prop
  | [], val, decimalCount, _ =>
    ∀ k < 4 - decimalCount, Fits64 ((Nat.iterate (· * 10) k val).toInt * 10)
  | c :: text, val, decimalCount, seenDot =>
    if c = byte '.' then DecimalExact text val decimalCount true
    else Fits64 (val.toInt * 10) ∧ Fits64 ((val * 10).toInt + (digit c).toInt) ∧
      (if seenDot then
        decimalCount + 1 = 4 ∨ DecimalExact text (val * 10 + digit c) (decimalCount + 1) seenDot
      else DecimalExact text (val * 10 + digit c) decimalCount seenDot)

section Digit

theorem digitByte_ne_dot (d : Fin 10) : digitByte d ≠ byte '.' := by
  decide +revert

theorem digit_digitByte (d : Fin 10) : digit (digitByte d) = Int64.ofInt (d : ℕ) := by
  decide +revert

theorem digitByte_injective : Function.Injective fun d : Fin 10 => digitByte d :=
  fun d d' h => Fin.ext (digitByte_inj d d.isLt d' d'.isLt h)

theorem digitText_injective : Function.Injective digitText :=
  List.map_injective_iff.mpr digitByte_injective

@[simp] theorem digitText_nil : digitText [] = [] := rfl

@[simp] theorem digitText_cons (d : Fin 10) (ds : Digits) :
    digitText (d :: ds) = digitByte d :: digitText ds := rfl

@[simp] theorem digitText_append (ds es : Digits) :
    digitText (ds ++ es) = digitText ds ++ digitText es := List.map_append

theorem dot_not_mem_digitText (ds : Digits) : byte '.' ∉ digitText ds := by
  intro h
  obtain ⟨d, -, hd⟩ := List.mem_map.mp h
  exact digitByte_ne_dot d hd

theorem Numeral.text_injective : Function.Injective Numeral.text := by
  intro n n' h
  obtain ⟨ws, decimals⟩ := n
  obtain ⟨ws', decimals'⟩ := n'
  have hdot := dot_not_mem_digitText ws
  have hdot' := dot_not_mem_digitText ws'
  cases decimals <;> cases decimals' <;> simp only [text, Option.elim_none, Option.elim_some,
    List.append_nil, append_cons_inj hdot hdot'] at h
  · rw [digitText_injective h]
  · simp [h] at hdot
  · simp [← h] at hdot'
  · rw [digitText_injective h.1, digitText_injective h.2]

theorem mul_add_digit (n : ℕ) (d : Fin 10) :
    Int64.ofInt n * 10 + digit (digitByte d) = Int64.ofInt ((n * 10 + d : ℕ) : ℤ) := by
  rw [digit_digitByte, Nat.cast_add, Nat.cast_mul, Int64.ofInt_add, Int64.ofInt_mul]
  rfl

end Digit

section Whole

theorem foldl_digitText (ds : Digits) (n : ℕ) :
    (digitText ds).foldl (fun val c => val * 10 + digit c) (Int64.ofInt n) =
      Int64.ofInt ((ds.foldl (fun n d => n * 10 + d.val) n : ℕ) : ℤ) := by
  induction ds generalizing n with
  | nil => rfl
  | cons d ds ih =>
    rw [digitText_cons, List.foldl_cons, mul_add_digit]
    exact ih _

theorem parseFastInt_digitText (ds : Digits) :
    parseFastInt (digitText ds) = Int64.ofInt (positional ds) := foldl_digitText ds 0

theorem scanDecimal_whole (ds : Digits) (rest : List Byte) (n : ℕ) :
    scanDecimal (digitText ds ++ rest) (Int64.ofInt n) 0 false =
      scanDecimal rest (Int64.ofInt ((ds.foldl (fun n d => n * 10 + d.val) n : ℕ) : ℤ)) 0 false := by
  induction ds generalizing n with
  | nil => rfl
  | cons d ds ih =>
    rw [digitText_cons, List.cons_append, scanDecimal, if_neg (digitByte_ne_dot d), mul_add_digit]
    exact ih _

end Whole

section Decimals

def padded (r : Int64 × Nat) : Int64 := Nat.iterate (· * 10) (4 - r.2) r.1

theorem iterate_ten (n k : ℕ) :
    Nat.iterate (· * 10) k (Int64.ofInt n) = Int64.ofInt ((n * 10 ^ k : ℕ) : ℤ) := by
  induction k with
  | zero => simp
  | succ k ih =>
    have hten : n * 10 ^ (k + 1) = n * 10 ^ k * 10 := by ring
    rw [Function.iterate_succ_apply', ih, hten, Nat.cast_mul (n * 10 ^ k), Int64.ofInt_mul]
    rfl

/-- With `k + 1` decimals to go, on the digits behind the dot. -/
theorem padded_decimals (ds : Digits) {n decimalCount k : ℕ} (hk : decimalCount + (k + 1) = 4) :
    padded (scanDecimal (digitText ds) (Int64.ofInt n) decimalCount true) =
      Int64.ofInt ((n * 10 ^ (k + 1) + places (k + 1) ds : ℕ) : ℤ) := by
  induction ds generalizing n decimalCount k with
  | nil =>
    have hpad : 4 - decimalCount = k + 1 := by omega
    rw [digitText_nil, scanDecimal, padded, hpad, iterate_ten, places, add_zero]
  | cons d ds ih =>
    rw [digitText_cons, scanDecimal, if_neg (digitByte_ne_dot d), if_pos rfl, mul_add_digit]
    cases k with
    | zero =>
      have hlast : decimalCount + 1 = 4 := hk
      rw [if_pos hlast, places, places, pow_zero, pow_one, mul_one, add_zero]
      rfl
    | succ k =>
      have hmore : decimalCount + 1 + (k + 1) = 4 := by omega
      have hne : decimalCount + 1 ≠ 4 := by omega
      have hshift : (n * 10 + d) * 10 ^ (k + 1) + places (k + 1) ds =
          n * 10 ^ (k + 1 + 1) + places (k + 1 + 1) (d :: ds) := by
        rw [places]
        ring
      rw [if_neg hne, ih hmore, hshift]

theorem parseFastDecimal_text (n : Numeral) : parseFastDecimal n.text = Int64.ofInt n.scaled := by
  have hscan : parseFastDecimal n.text = padded (scanDecimal n.text (Int64.ofInt (0 : ℕ)) 0 false) := rfl
  have hwhole : n.whole.foldl (fun n d => n * 10 + d.val) 0 = positional n.whole := rfl
  rw [hscan, Numeral.text, Numeral.scaled, scanDecimal_whole, hwhole]
  cases n.decimals with
  | none =>
    rw [Option.elim_none, Option.elim_none, scanDecimal, padded, Nat.sub_zero, iterate_ten, Nat.add_zero]
  | some ds =>
    rw [Option.elim_some, Option.elim_some, scanDecimal, if_pos rfl]
    exact padded_decimals ds rfl

end Decimals

section Exact

theorem fits_natCast {n : ℕ} (h : n < 2 ^ 63) : Fits64 n := ⟨by omega, by omega⟩

theorem toInt_ofInt_natCast {n : ℕ} (h : n < 2 ^ 63) : (Int64.ofInt n).toInt = n :=
  (fits_natCast h).toInt_ofInt

theorem digit_step_exact {n : ℕ} {d : Fin 10} (h : n * 10 + d < 2 ^ 63) :
    Fits64 ((Int64.ofInt n).toInt * 10) ∧
      Fits64 ((Int64.ofInt n * 10).toInt + (digit (digitByte d)).toInt) := by
  have hten : Int64.ofInt n * 10 = Int64.ofInt ((n * 10 : ℕ) : ℤ) := by
    rw [Nat.cast_mul, Int64.ofInt_mul]
    rfl
  have hd : (d : ℕ) < 2 ^ 63 := by omega
  rw [hten, digit_digitByte, toInt_ofInt_natCast hd, toInt_ofInt_natCast (by omega),
    toInt_ofInt_natCast (by omega)]
  exact ⟨⟨by omega, by omega⟩, ⟨by omega, by omega⟩⟩

theorem decimalExact_decimals (ds : Digits) {n decimalCount k : ℕ} (hk : decimalCount + (k + 1) = 4)
    (hfits : n * 10 ^ (k + 1) + places (k + 1) ds < 2 ^ 63) :
    DecimalExact (digitText ds) (Int64.ofInt n) decimalCount true := by
  induction ds generalizing n decimalCount k with
  | nil =>
    intro j hj
    have hle : n * 10 ^ (j + 1) ≤ n * 10 ^ (k + 1) :=
      Nat.mul_le_mul_left _ (Nat.pow_le_pow_right (by decide) (by omega))
    have hten : n * 10 ^ (j + 1) = n * 10 ^ j * 10 := by ring
    rw [iterate_ten, toInt_ofInt_natCast (by omega)]
    exact ⟨by omega, by omega⟩
  | cons d ds ih =>
    have hshift : n * 10 ^ (k + 1) + places (k + 1) (d :: ds) =
        (n * 10 + d) * 10 ^ k + places k ds := by
      rw [places]
      ring
    rw [hshift] at hfits
    have hle : n * 10 + d ≤ (n * 10 + d) * 10 ^ k := Nat.le_mul_of_pos_right _ (by positivity)
    obtain ⟨hmul, hadd⟩ := digit_step_exact (d := d) (n := n) (by omega)
    rw [digitText_cons, DecimalExact, if_neg (digitByte_ne_dot d), if_pos rfl, mul_add_digit]
    refine ⟨hmul, hadd, ?_⟩
    cases k with
    | zero => exact Or.inl hk
    | succ k => exact Or.inr (ih (by omega) hfits)

theorem decimalExact_whole (ds : Digits) {rest : List Byte} {n : ℕ}
    (hfits : n * 10 ^ ds.length + positional ds < 2 ^ 63)
    (hrest : DecimalExact rest (Int64.ofInt ((n * 10 ^ ds.length + positional ds : ℕ) : ℤ)) 0 false) :
    DecimalExact (digitText ds ++ rest) (Int64.ofInt n) 0 false := by
  induction ds generalizing n with
  | nil => simpa using hrest
  | cons d ds ih =>
    have hshift : n * 10 ^ (d :: ds).length + positional (d :: ds) =
        (n * 10 + d) * 10 ^ ds.length + positional ds := by
      rw [positional_cons, List.length_cons]
      ring
    rw [hshift] at hfits hrest
    have hle : n * 10 + d ≤ (n * 10 + d) * 10 ^ ds.length := Nat.le_mul_of_pos_right _ (by positivity)
    obtain ⟨hmul, hadd⟩ := digit_step_exact (d := d) (n := n) (by omega)
    rw [digitText_cons, List.cons_append, DecimalExact, if_neg (digitByte_ne_dot d), mul_add_digit]
    exact ⟨hmul, hadd, ih hfits hrest⟩

theorem decimalExact_text (n : Numeral) (hfits : n.scaled < 2 ^ 63) : DecimalExact n.text 0 0 false := by
  have hstart : Int64.ofInt (0 : ℕ) = 0 := rfl
  have hwhole : 0 * 10 ^ n.whole.length + positional n.whole = positional n.whole := by ring
  rw [Numeral.scaled] at hfits
  rw [Numeral.text, ← hstart]
  apply decimalExact_whole
  · omega
  · rw [hwhole]
    cases hd : n.decimals with
    | none =>
      rw [hd, Option.elim_none] at hfits
      exact decimalExact_decimals [] (k := 3) rfl (by simpa [places] using hfits)
    | some ds =>
      rw [hd, Option.elim_some] at hfits
      rw [Option.elim_some, DecimalExact, if_pos rfl]
      exact decimalExact_decimals ds rfl hfits

end Exact

section Prices

theorem decimal_digits (n : ℕ) : ∃ ds : Digits, ds ≠ [] ∧ decimal n = digitText ds ∧ positional ds = n := by
  induction n using Nat.strongRecOn with
  | ind n ih =>
    obtain ⟨front, hsplit, hfront⟩ := decimal_split n
    cases hfront with
    | inl h =>
      obtain ⟨rfl, hn⟩ := h
      have hlast : positional [Fin.ofNat 10 n] = n := by
        rw [positional_cons, positional_nil, List.length_nil, pow_zero, mul_one, add_zero]
        exact Nat.mod_eq_of_lt hn
      exact ⟨[Fin.ofNat 10 n], List.cons_ne_nil _ _, hsplit, hlast⟩
    | inr h =>
      obtain ⟨rfl, hn⟩ := h
      obtain ⟨ds, -, htext, hvalue⟩ := ih (n / 10) (by omega)
      have hlast : positional (ds ++ [Fin.ofNat 10 n]) = n := by
        rw [positional_concat, hvalue]
        exact Nat.div_add_mod' n 10
      refine ⟨ds ++ [Fin.ofNat 10 n], by simp, ?_, hlast⟩
      rw [hsplit, htext, digitText_append]
      rfl

/-- The canonical texts of the price `p`: the whole part, a dot and four decimals, of which
zeros at the end may be dropped, and the dot with the last of them. -/
def PriceText (p : ℕ) (text : List Byte) : Prop :=
  ∃ (ds : Digits) (dropped : ℕ), ds ++ List.replicate dropped 0 = lastDigits 4 (p % 10 ^ 4) ∧
    (text = decimal (p / 10 ^ 4) ++ byte '.' :: digitText ds ∨
      ds = [] ∧ text = decimal (p / 10 ^ 4))

def fourDigits (n : ℕ) : Digits := lastDigits 4 n

theorem PriceText.numeral {p : ℕ} {text : List Byte} (h : PriceText p text) :
    ∃ n : Numeral, n.text = text ∧ n.scaled = p := by
  obtain ⟨ds, dropped, hzeros, htext⟩ := h
  obtain ⟨ws, -, hwhole, hvalue⟩ := decimal_digits (p / 10 ^ 4)
  have hlength : ds.length + dropped = 4 := by
    rw [← length_lastDigits (b := 10) 4 (p % 10 ^ 4), ← hzeros, List.length_append,
      List.length_replicate]
  have hplaces : places (ds.length + dropped) ds = p % 10 ^ 4 := by
    rw [places_eq_positional, ← positional_append_zeros, hzeros, positional_lastDigits, Nat.mod_mod]
  have hdecimals : places 4 ds = p % 10 ^ 4 := by rwa [hlength] at hplaces
  have hsum : p / 10 ^ 4 * 10 ^ 4 + p % 10 ^ 4 = p := Nat.div_add_mod' p (10 ^ 4)
  cases htext with
  | inl htext =>
    refine ⟨⟨ws, some ds⟩, ?_, ?_⟩
    · rw [Numeral.text, htext, hwhole, Option.elim_some]
    · rw [Numeral.scaled, hvalue, Option.elim_some, hdecimals, hsum]
  | inr htext =>
    obtain ⟨rfl, htext⟩ := htext
    rw [places] at hdecimals
    refine ⟨⟨ws, none⟩, ?_, ?_⟩
    · rw [Numeral.text, htext, hwhole, Option.elim_none, List.append_nil]
    · rw [Numeral.scaled, hvalue, Option.elim_none, hdecimals, hsum]

theorem Numeral.toInt_parse {n : Numeral} (h : Fits64 n.price) :
    (parseFastDecimal n.text).toInt = n.price := by
  rw [parseFastDecimal_text, ← price_eq, h.toInt_ofInt]

theorem Numeral.scaled_lt {n : Numeral} (h : Fits64 n.price) : n.scaled < 2 ^ 63 := by
  obtain ⟨-, hlt⟩ := h
  rw [price_eq] at hlt
  omega

theorem Numeral.price_mono {n n' : Numeral} (h : n.value ≤ n'.value) : n.price ≤ n'.price :=
  Int.floor_le_floor (mul_le_mul_of_nonneg_right h (by norm_num))

/-- A price parses to its numeral cut off behind the fourth decimal, on the way nothing
overflows, and the canonical texts of a price parse back to it. -/
theorem parseFastDecimal_truncates :
    (∀ n : Numeral, Fits64 n.price →
      (parseFastDecimal n.text).toInt = n.price ∧ DecimalExact n.text 0 0 false) ∧
    (∀ n n' : Numeral, Fits64 n.price → Fits64 n'.price → n.value ≤ n'.value →
      parseFastDecimal n.text ≤ parseFastDecimal n'.text) ∧
    ∀ (p : Int64) (text : List Byte), 0 ≤ p → PriceText p.toInt.toNat text →
      parseFastDecimal text = p := by
  refine ⟨fun n h => ⟨Numeral.toInt_parse h, decimalExact_text n (Numeral.scaled_lt h)⟩, ?_, ?_⟩
  · intro n n' h h' hle
    rw [Int64.le_iff_toInt_le, Numeral.toInt_parse h, Numeral.toInt_parse h']
    exact Numeral.price_mono hle
  · intro p text hp htext
    obtain ⟨n, rfl, hscaled⟩ := htext.numeral
    have hpos : 0 ≤ p.toInt := Int64.le_iff_toInt_le.mp hp
    rw [parseFastDecimal_text, hscaled, Int.toNat_of_nonneg hpos, Int64.ofInt_toInt]

theorem parseFastDecimal_truncates_largest :
    (parseFastDecimal (Numeral.mk [9] (some [0, 0, 0, 0, 9])).text).toInt = 90000 ∧
    parseFastDecimal (Numeral.mk [9] (some [0, 0, 0, 0, 9])).text ≤
      parseFastDecimal
        (Numeral.mk [9, 2, 2, 3, 3, 7, 2, 0, 3, 6, 8, 5, 4, 7, 7] (some [5, 8, 0, 7, 9, 9, 9])).text ∧
    parseFastDecimal [byte '9', byte '.', byte '5'] = 95000 := by
  have hsmall : (Numeral.mk [9] (some [0, 0, 0, 0, 9])).price = 90000 := by
    rw [Numeral.price_eq]
    decide
  have hlarge : (Numeral.mk [9, 2, 2, 3, 3, 7, 2, 0, 3, 6, 8, 5, 4, 7, 7]
      (some [5, 8, 0, 7, 9, 9, 9])).price = 2 ^ 63 - 1 := by
    rw [Numeral.price_eq]
    decide
  have hle : (Numeral.mk [9] (some [0, 0, 0, 0, 9])).value ≤
      (Numeral.mk [9, 2, 2, 3, 3, 7, 2, 0, 3, 6, 8, 5, 4, 7, 7] (some [5, 8, 0, 7, 9, 9, 9])).value := by
    norm_num [Numeral.value, fraction, positional]
  have hfits : Fits64 (Numeral.mk [9] (some [0, 0, 0, 0, 9])).price := by
    rw [hsmall]
    decide
  have hfits' : Fits64 (Numeral.mk [9, 2, 2, 3, 3, 7, 2, 0, 3, 6, 8, 5, 4, 7, 7]
      (some [5, 8, 0, 7, 9, 9, 9])).price := by
    rw [hlarge]
    decide
  refine ⟨(parseFastDecimal_truncates.1 _ hfits).1.trans hsmall,
    parseFastDecimal_truncates.2.1 _ _ hfits hfits' hle, ?_⟩
  refine parseFastDecimal_truncates.2.2 95000 _ (by decide) ⟨[5], 3, ?_, Or.inl ?_⟩
  · decide +kernel
  · decide +kernel

end Prices

end LobCity
