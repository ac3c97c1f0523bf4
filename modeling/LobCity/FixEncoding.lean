import LobCity.FixFields
import LobCity.FixedPoint

/-! Parsing what was encoded: the message of a list of fields, sent with or without the
last delimiter, from the last field of each tag that the parser knows. -/
namespace LobCity
open Library

section Tags

theorem ofInt_eq_tag_iff {n t : ℕ} (ht : t < 2 ^ 31) :
    Int32.ofInt n = Int32.ofInt t ↔ n % 2 ^ 32 = t := by
  have hfits : (Int32.ofInt t).toInt = t := Int32.toInt_ofInt_of_le (by omega) (by omega)
  rw [Int32.ofInt_eq_iff_bmod_eq_toInt, hfits, Int.bmod_def]
  split <;> omega

theorem FieldText.tag_of_digits {x : FieldText} {ds : Digits} (h : x.key = digitText ds) :
    x.tag = Int32.ofInt (positional ds) := by
  rw [tag, h, parseFastInt_digitText, Int64.toInt32_ofInt]

theorem FieldText.tag_iff {x : FieldText} {ds : Digits} (h : x.key = digitText ds) {t : ℕ}
    (ht : t < 2 ^ 31) : x.tag = Int32.ofInt t ↔ positional ds % 2 ^ 32 = t := by
  rw [tag_of_digits h, ofInt_eq_tag_iff ht]

end Tags

namespace FixField

def pair (f : FixField) : FieldText := ⟨decimal f.tag, f.value, (not_mem_decimal f.tag).1, f.clear⟩

theorem pair_text (f : FixField) : f.pair.text = f.text := rfl

theorem tag_pair_iff {f : FixField} (hf : f.tag < 2 ^ 31) {t : ℕ} (ht : t < 2 ^ 31) :
    f.pair.tag = Int32.ofInt t ↔ f.tag = t := by
  obtain ⟨ds, -, hkey, hvalue⟩ := decimal_digits f.tag
  have hmod : f.tag % 2 ^ 32 = f.tag := Nat.mod_eq_of_lt (by omega)
  rw [FieldText.tag_iff hkey ht, hvalue, hmod]

end FixField

/-- `tag=value<SOH>` for each field, with or without the last delimiter. -/
def serialise (fields : List FixField) (final : Bool) : List Byte :=
  if final then fields.flatMap FixField.wire else (fields.flatMap FixField.wire).dropLast

def lastValue (fields : List FixField) (tag : ℕ) : Option (List Byte) :=
  ((fields.filter (·.tag = tag)).map (·.value)).getLast?

def lastChar (fields : List FixField) (tag : ℕ) : Option Byte :=
  ((fields.filter (·.tag = tag)).filterMap (·.value.head?)).getLast?

structure Decodes (fields : List FixField) (msg : ParsedFixMessage (List Byte)) : Prop where
  msgType : msg.msgType = (lastChar fields 35).getD 0
  side : msg.side = (lastChar fields 54).getD 0
  ordType : msg.ordType = (lastChar fields 40).getD 0
  no_qty : lastValue fields 38 = none → msg.qty = 0
  qty : ∀ ds : Digits, lastValue fields 38 = some (digitText ds) → msg.qty.toInt = positional ds
  no_price : lastValue fields 44 = none → msg.price = 0
  price : ∀ n : Numeral, lastValue fields 44 = some n.text → msg.price.toInt = n.price
  clOrdID : msg.clOrdID = (lastValue fields 11).getD []
  origClOrdID : msg.origClOrdID = (lastValue fields 41).getD []

section Decode
open Pair
variable {fields fields' : List FixField}

theorem serialise_joined (fields : List FixField) (final : Bool) :
    ∃ (closed : List FieldText) (last : Option FieldText),
      serialise fields final = joined closed last ∧ closed ++ last.toList = fields.map FixField.pair := by
  have hwire (l : List FixField) : l.flatMap FixField.wire = joined (l.map FixField.pair) none := by
    rw [joined, List.flatMap_map, Option.elim_none, List.append_nil]
    rfl
  cases final with
  | true => exact ⟨fields.map FixField.pair, none, hwire fields, List.append_nil _⟩
  | false =>
    cases List.eq_nil_or_concat fields with
    | inl h =>
      rw [h]
      exact ⟨[], none, rfl, rfl⟩
    | inr h =>
      obtain ⟨init, f, rfl⟩ := h
      refine ⟨init.map FixField.pair, some f.pair, ?_, by simp⟩
      have hlast : (init ++ [f]).flatMap FixField.wire = (init.flatMap FixField.wire ++ f.text) ++ [soh] := by
        simp [FixField.wire]
      rw [serialise, if_neg Bool.false_ne_true, List.concat_eq_append, hlast, List.dropLast_concat, hwire]
      simp [joined, FixField.pair_text]

theorem parsedText_serialise (fields : List FixField) (final : Bool) :
    parsedText (serialise fields final) = (true, .ofFields (fields.map FixField.pair)) := by
  obtain ⟨closed, last, htext, hfields⟩ := serialise_joined fields final
  rw [htext, parsedText_joined_eq, hfields]

variable {β : Type}

theorem lastSaid_pairs (htag : ∀ f ∈ fields, f.tag < 2 ^ 31) {t : ℕ} (ht : t < 2 ^ 31)
    (read : List Byte → Option β) : lastSaid (Int32.ofInt t) read (fields.map FixField.pair) =
      ((fields.filter (·.tag = t)).filterMap (fun f => read f.value)).getLast? := by
  have hsaid : ∀ f ∈ fields, said (Int32.ofInt t) read f.pair =
      if f.tag = t then read f.value else none := by
    intro f hf
    rw [said]
    exact if_congr (FixField.tag_pair_iff (htag f hf) ht) rfl rfl
  rw [lastSaid, List.filterMap_map, List.filterMap_filter]
  congr 1
  exact List.filterMap_congr fun f hf => by simpa using hsaid f hf

/-- The message depends on each tag the parser knows through its own fields only. -/
theorem ofFields_congr (htag : ∀ f ∈ fields, f.tag < 2 ^ 31) (htag' : ∀ f ∈ fields', f.tag < 2 ^ 31)
    (h : ∀ t ∈ [35, 54, 40, 38, 44, 11, 41],
      fields'.filter (·.tag = t) = fields.filter (·.tag = t)) :
    ParsedFixMessage.ofFields (fields'.map FixField.pair) = .ofFields (fields.map FixField.pair) := by
  have hsame {β : Type} (t : ℕ) (ht : t ∈ [35, 54, 40, 38, 44, 11, 41])
      (read : List Byte → Option β) : lastSaid (Int32.ofInt t) read (fields'.map FixField.pair) =
        lastSaid (Int32.ofInt t) read (fields.map FixField.pair) := by
    have hlt : t < 2 ^ 31 := by
      have hall : ∀ t ∈ [35, 54, 40, 38, 44, 11, 41], t < 2 ^ 31 := by decide
      exact hall t ht
    rw [lastSaid_pairs htag hlt, lastSaid_pairs htag' hlt, h t ht]
  have h35 := hsame 35 (by decide) List.head?
  have h54 := hsame 54 (by decide) List.head?
  have h40 := hsame 40 (by decide) List.head?
  have h38 := hsame 38 (by decide) fun v => some (parseFastInt v)
  have h44 := hsame 44 (by decide) fun v => some (parseFastDecimal v)
  have h11 := hsame 11 (by decide) some
  have h41 := hsame 41 (by decide) some
  unfold ParsedFixMessage.ofFields
  congr 2

theorem exists_of_lastValue {t : ℕ} {v : List Byte} (h : lastValue fields t = some v) :
    ∃ f ∈ fields, f.tag = t ∧ f.value = v := by
  obtain ⟨f, hf, hv⟩ := List.mem_map.mp (List.mem_of_getLast? h)
  obtain ⟨hmem, htag⟩ := List.mem_filter.mp hf
  exact ⟨f, hmem, of_decide_eq_true htag, hv⟩

theorem ofFields_decodes (htag : ∀ f ∈ fields, f.tag < 2 ^ 31)
    (hqty : ∀ f ∈ fields, f.tag = 38 → ∃ ds : Digits, f.value = digitText ds ∧ Fits64 (positional ds))
    (hprice : ∀ f ∈ fields, f.tag = 44 → ∃ n : Numeral, f.value = n.text ∧ Fits64 n.price) :
    Decodes fields (.ofFields (fields.map FixField.pair)) := by
  have hchar (t : ℕ) (ht : t < 2 ^ 31) :
      lastSaid (Int32.ofInt t) List.head? (fields.map FixField.pair) = lastChar fields t :=
    lastSaid_pairs htag ht _
  have hvalue {β : Type} (t : ℕ) (ht : t < 2 ^ 31) (read : List Byte → β) :
      lastSaid (Int32.ofInt t) (fun v => some (read v)) (fields.map FixField.pair) =
        (lastValue fields t).map read := by
    rw [lastSaid_pairs htag ht, lastValue, List.filterMap_eq_map', ← List.getLast?_map, List.map_map]
    rfl
  have hid (t : ℕ) (ht : t < 2 ^ 31) :
      lastSaid (Int32.ofInt t) some (fields.map FixField.pair) = lastValue fields t :=
    (hvalue t ht id).trans (Option.map_id_apply ..)
  have hqtys := hvalue 38 (by decide) parseFastInt
  have hprices := hvalue 44 (by decide) parseFastDecimal
  constructor
  case msgType => exact congrArg (·.getD 0) (hchar 35 (by decide))
  case side => exact congrArg (·.getD 0) (hchar 54 (by decide))
  case ordType => exact congrArg (·.getD 0) (hchar 40 (by decide))
  case clOrdID => exact congrArg (·.getD []) (hid 11 (by decide))
  case origClOrdID => exact congrArg (·.getD []) (hid 41 (by decide))
  case no_qty =>
    intro h
    rw [h] at hqtys
    exact congrArg (·.getD 0) hqtys
  case no_price =>
    intro h
    rw [h] at hprices
    exact congrArg (·.getD 0) hprices
  case qty =>
    intro ds h
    obtain ⟨f, hf, hf38, hvalue⟩ := exists_of_lastValue h
    obtain ⟨ds', hds, hfits⟩ := hqty f hf hf38
    obtain rfl : ds' = ds := digitText_injective (hds.symm.trans hvalue)
    rw [h, Option.map_some, parseFastInt_digitText] at hqtys
    have hget := congrArg (·.getD 0) hqtys
    exact (congrArg Int64.toInt hget).trans hfits.toInt_ofInt
  case price =>
    intro n h
    obtain ⟨f, hf, hf44, hvalue⟩ := exists_of_lastValue h
    obtain ⟨n', hn, hfits⟩ := hprice f hf hf44
    obtain rfl : n' = n := Numeral.text_injective (hn.symm.trans hvalue)
    rw [h, Option.map_some] at hprices
    have hget := congrArg (·.getD 0) hprices
    exact (congrArg Int64.toInt hget).trans (Numeral.toInt_parse hfits)

/-- What was encoded is parsed back, and fields of other tags, and the order among
different tags, make no difference. -/
theorem parsedText_decodes (fields : List FixField) (final : Bool)
    (htag : ∀ f ∈ fields, f.tag < 2 ^ 31)
    (hqty : ∀ f ∈ fields, f.tag = 38 → ∃ ds : Digits, f.value = digitText ds ∧ Fits64 (positional ds))
    (hprice : ∀ f ∈ fields, f.tag = 44 → ∃ n : Numeral, f.value = n.text ∧ Fits64 n.price) :
    (parsedText (serialise fields final)).1 = true ∧
      Decodes fields (parsedText (serialise fields final)).2 ∧
      ∀ (fields' : List FixField) (final' : Bool), (∀ f ∈ fields', f.tag < 2 ^ 31) →
        (∀ t ∈ [35, 54, 40, 38, 44, 11, 41],
          fields'.filter (·.tag = t) = fields.filter (·.tag = t)) →
        parsedText (serialise fields' final') = parsedText (serialise fields final) := by
  have hparsed := parsedText_serialise fields final
  refine ⟨congrArg Prod.fst hparsed, ?_, ?_⟩
  · rw [hparsed]
    exact ofFields_decodes htag hqty hprice
  · intro fields' final' htag' hsame
    rw [hparsed, parsedText_serialise, ofFields_congr htag htag' hsame]

theorem parsedText_decodes_reordered :
    let price : FixField := ⟨44, [byte '1', byte '.', byte '2'], by decide⟩
    let qty : FixField := ⟨38, [byte '5', byte '0'], by decide⟩
    let id : FixField := ⟨11, [byte 'a', byte '=', byte 'b'], by decide⟩
    let fields := [⟨44, [byte '7'], by decide⟩, qty, price, id]
    (parsedText (serialise fields false)).2.price.toInt = 12000 ∧
      parsedText (serialise [id, ⟨44, [byte '7'], by decide⟩, ⟨58, [byte 'x'], by decide⟩, price, qty]
        true) = parsedText (serialise fields false) := by
  intro price qty id fields
  have htag : ∀ f ∈ fields, f.tag < 2 ^ 31 := by decide
  have hqty : ∀ f ∈ fields, f.tag = 38 →
      ∃ ds : Digits, f.value = digitText ds ∧ Fits64 (positional ds) := by
    simp only [fields, qty, price, id, List.forall_mem_cons]
    exact ⟨nofun, fun _ => ⟨[5, 0], by decide, by decide⟩, nofun, nofun, nofun⟩
  have hprice : ∀ f ∈ fields, f.tag = 44 → ∃ n : Numeral, f.value = n.text ∧ Fits64 n.price := by
    simp only [fields, qty, price, id, List.forall_mem_cons]
    refine ⟨fun _ => ⟨⟨[7], none⟩, by decide, ?_⟩, nofun, fun _ => ⟨⟨[1], some [2]⟩, by decide, ?_⟩,
      nofun, nofun⟩
    all_goals
      rw [Numeral.price_eq]
      decide
  obtain ⟨-, hdecodes, hother⟩ := parsedText_decodes fields false htag hqty hprice
  constructor
  · have hvalue : (Numeral.mk [1] (some [2])).price = 12000 := by
      rw [Numeral.price_eq]
      decide
    rw [hdecodes.price ⟨[1], some [2]⟩ (by decide), hvalue]
  · exact hother _ true (by decide) (by simp [fields, price, qty, id])

end Decode
end LobCity
