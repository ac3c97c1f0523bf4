import LobCity.FixEncoding

/-! The grammar of a message against what the parser accepts, and fields whose tags it has
no use for. The scan for a tag runs to the next `=` and over a delimiter on the way, and a
tag is kept in 32 bits, so neither law holds of every buffer. -/
namespace LobCity
open Library Pair

section Grammar

def IsDigit (c : Byte) : Prop := byte '0' ≤ c ∧ c ≤ byte '9'

instance (c : Byte) : Decidable (IsDigit c) := inferInstanceAs (Decidable (_ ∧ _))

def FieldText.Numbered (x : FieldText) : Prop := x.key ≠ [] ∧ ∀ c ∈ x.key, IsDigit c

instance (x : FieldText) : Decidable x.Numbered := inferInstanceAs (Decidable (_ ∧ _))

/-- Fields, all but perhaps the last of them closed by a delimiter. -/
def Grammar (buffer : List Byte) : Prop :=
  ∃ (closed : List FieldText) (last : Option FieldText),
    buffer = joined closed last ∧ ∀ x ∈ closed ++ last.toList, x.Numbered

/-- However the buffer is cut, each tag at the first `=` and each value at the first
delimiter behind it, what stands in front of an `=` is a digit string. -/
def TagsNumbered (buffer : List Byte) : Prop :=
  ∀ (closed : List FieldText) (last : Option FieldText),
    buffer = joined closed last → ∀ x ∈ closed ++ last.toList, x.Numbered

theorem Grammar.accepted {buffer : List Byte} (h : Grammar buffer) :
    (parseFixMessage buffer).1 = true := by
  obtain ⟨closed, last, hbuf, -⟩ := h
  exact (parseFixMessage_accepted_iff buffer).mpr ⟨closed, last, hbuf⟩

/-- There is one way to cut a buffer. -/
theorem grammar_joined_iff (closed : List FieldText) (last : Option FieldText) :
    Grammar (joined closed last) ↔ ∀ x ∈ closed ++ last.toList, x.Numbered := by
  constructor
  · intro h
    obtain ⟨closed', last', hbuf, hnumbered⟩ := h
    obtain ⟨rfl, rfl⟩ := joined_inj hbuf
    exact hnumbered
  · exact fun h => ⟨closed, last, rfl, h⟩

/-- The parser accepts a buffer exactly if it is in the grammar, if and only if every tag
it cuts out of the buffer is a digit string. -/
theorem accepted_grammar_iff (buffer : List Byte) :
    ((parseFixMessage buffer).1 = true ↔ Grammar buffer) ↔ TagsNumbered buffer := by
  constructor
  · intro h closed last hbuf
    have haccepted := (parseFixMessage_accepted_iff buffer).mpr ⟨closed, last, hbuf⟩
    rw [hbuf] at h haccepted
    exact (grammar_joined_iff closed last).mp (h.mp haccepted)
  · intro h
    refine ⟨fun haccepted => ?_, Grammar.accepted⟩
    obtain ⟨closed, last, hbuf⟩ := (parseFixMessage_accepted_iff buffer).mp haccepted
    exact ⟨closed, last, hbuf, h closed last hbuf⟩

/-- On `35=D<SOH>garbage<SOH>44=5<SOH>` the segment without a sign is merged with the field
behind it. -/
theorem merged_accepted :
    let fields : List FieldText := [⟨[byte '3', byte '5'], [byte 'D'], by decide, by decide⟩,
      ⟨"garbage".toList.map byte ++ [soh, byte '4', byte '4'], [byte '5'], by decide, by decide⟩]
    ¬ ((parseFixMessage (joined fields none)).1 = true ↔ Grammar (joined fields none)) := by
  intro fields
  rw [grammar_joined_iff]
  intro h
  have hnumbered := h.mp (congrArg Prod.fst (parsedText_joined fields none))
  revert hnumbered
  decide +kernel

end Grammar

structure DigitField where
  tag : Digits
  value : List Byte
  clear : soh ∉ value

namespace DigitField

def number (f : DigitField) : ℕ := positional f.tag

theorem sign_not_mem (ds : Digits) : byte '=' ∉ digitText ds := by
  have hsign : ∀ d : Fin 10, digitByte d ≠ byte '=' := by decide
  simp [digitText, hsign]

def pair (f : DigitField) : FieldText := ⟨digitText f.tag, f.value, sign_not_mem f.tag, f.clear⟩

def wire (fields : List DigitField) : List Byte :=
  fields.flatMap fun f => digitText f.tag ++ byte '=' :: f.value ++ [soh]

def neededTags : List ℕ := [35, 54, 40, 38, 44, 11, 41]

def needed (fields : List DigitField) : List DigitField := fields.filter (·.number ∈ neededTags)

variable {β : Type} (t : ℕ) (read : List Byte → Option β)

/-- The last field that says something and whose tag is `t` once it is kept in 32 bits. -/
def lastTaken (fields : List DigitField) : Option DigitField :=
  (fields.filter fun f => f.number % 2 ^ 32 = t ∧ (read f.value).isSome).getLast?

def lastNamed (fields : List DigitField) : Option DigitField :=
  (fields.filter fun f => f.number = t ∧ (read f.value).isSome).getLast?

/-- The last field taken for `t` has another tag, and says something else than the last one
whose tag is `t`, or than `default` if there is none. -/
def Masked (default : β) (fields : List DigitField) : Prop :=
  ∃ f, lastTaken t read fields = some f ∧ f.number ≠ t ∧
    (read f.value).getD default ≠ ((lastNamed t read fields).bind (read ·.value)).getD default

structure Unmasked (fields : List DigitField) : Prop where
  msgType : ¬ Masked 35 List.head? 0 fields
  side : ¬ Masked 54 List.head? 0 fields
  ordType : ¬ Masked 40 List.head? 0 fields
  qty : ¬ Masked 38 (fun v => some (parseFastInt v)) 0 fields
  price : ¬ Masked 44 (fun v => some (parseFastDecimal v)) 0 fields
  clOrdID : ¬ Masked 11 some [] fields
  origClOrdID : ¬ Masked 41 some [] fields

variable {t read} {fields : List DigitField}

theorem parsedText_wire (fields : List DigitField) :
    parsedText (wire fields) = (true, .ofFields (fields.map pair)) := by
  have hwire : wire fields = joined (fields.map pair) none := by
    rw [joined, List.flatMap_map, Option.elim_none, List.append_nil]
    rfl
  rw [hwire, parsedText_joined_eq, Option.toList_none, List.append_nil]

theorem lastSaid_eq_lastTaken (ht : t < 2 ^ 31) (fields : List DigitField) :
    lastSaid (Int32.ofInt t) read (fields.map pair) =
      (lastTaken t read fields).bind (read ·.value) := by
  have hsaid (f : DigitField) : said (Int32.ofInt t) read f.pair =
      if f.number % 2 ^ 32 = t then read f.value else none := by
    have htag : f.pair.tag = Int32.ofInt t ↔ f.number % 2 ^ 32 = t := FieldText.tag_iff rfl ht
    rw [said]
    exact if_congr htag rfl rfl
  have hsome (f : DigitField) : (said (Int32.ofInt t) read f.pair).isSome =
      decide (f.number % 2 ^ 32 = t ∧ (read f.value).isSome) := by
    rw [hsaid]
    by_cases h : f.number % 2 ^ 32 = t
    · rw [if_pos h, Bool.decide_and, decide_eq_true h, Bool.true_and, Bool.decide_eq_true]
    · rw [if_neg h, Bool.decide_and, decide_eq_false h, Bool.false_and, Option.isSome_none]
  rw [lastSaid, lastTaken, List.filterMap_map, getLast?_filterMap_eq_bind]
  simp only [Function.comp_apply, hsome]
  refine Option.bind_congr fun f hf => ?_
  have htaken := List.of_mem_filter (List.mem_of_getLast? hf)
  rw [hsaid, if_pos (of_decide_eq_true htaken).1]

theorem mod_needed : ∀ t ∈ neededTags, t % 2 ^ 32 = t := by decide

/-- The fields that are left are taken for `t` only under that tag. -/
theorem lastTaken_needed (ht : t ∈ neededTags) (fields : List DigitField) :
    lastTaken t read (needed fields) = lastNamed t read fields := by
  rw [lastTaken, lastNamed, needed, List.filter_filter]
  refine congrArg _ (List.filter_congr fun f _ => ?_)
  have hiff : (f.number % 2 ^ 32 = t ∧ (read f.value).isSome) ∧ f.number ∈ neededTags ↔
      f.number = t ∧ (read f.value).isSome := by
    constructor
    · intro h
      rw [mod_needed _ h.2] at h
      exact h.1
    · intro h
      rw [h.1, mod_needed t ht]
      exact ⟨⟨rfl, h.2⟩, ht⟩
  rw [← Bool.decide_and]
  exact decide_eq_decide.mpr hiff

theorem lastNamed_of_lastTaken {f : DigitField} (h : lastTaken t read fields = some f)
    (hf : f.number = t) (ht : t ∈ neededTags) : lastNamed t read fields = some f := by
  have htaken := List.of_mem_filter (List.mem_of_getLast? h)
  refine getLast?_filter_of_imp h (decide_eq_true ⟨hf, (of_decide_eq_true htaken).2⟩) fun x hx => ?_
  obtain ⟨hx, hsays⟩ := of_decide_eq_true hx
  refine decide_eq_true ⟨?_, hsays⟩
  rw [hx, mod_needed t ht]

theorem lastNamed_of_none (h : lastTaken t read fields = none) (ht : t ∈ neededTags) :
    lastNamed t read fields = none := by
  rw [lastTaken, List.getLast?_eq_none_iff, List.filter_eq_nil_iff] at h
  rw [lastNamed, List.getLast?_eq_none_iff, List.filter_eq_nil_iff]
  intro f hf hnamed
  obtain ⟨hx, hsays⟩ := of_decide_eq_true hnamed
  refine h f hf (decide_eq_true ⟨?_, hsays⟩)
  rw [hx, mod_needed t ht]

/-- One component is as it was unless its tag is masked. -/
theorem lastSaid_needed_iff (ht : t ∈ neededTags) (default : β) (fields : List DigitField) :
    (lastSaid (Int32.ofInt t) read ((needed fields).map pair)).getD default =
        (lastSaid (Int32.ofInt t) read (fields.map pair)).getD default ↔
      ¬ Masked t read default fields := by
  have hlt : ∀ t ∈ neededTags, t < 2 ^ 31 := by decide
  rw [lastSaid_eq_lastTaken (hlt t ht), lastSaid_eq_lastTaken (hlt t ht), lastTaken_needed ht]
  constructor
  · intro h hmasked
    obtain ⟨f, hf, -, hne⟩ := hmasked
    rw [hf, Option.bind_some] at h
    exact hne h.symm
  · intro h
    cases hlast : lastTaken t read fields with
    | none => rw [lastNamed_of_none hlast ht]
    | some f =>
      by_cases hf : f.number = t
      · rw [lastNamed_of_lastTaken hlast hf ht]
      · by_contra hne
        exact h ⟨f, hlast, hf, fun he => hne he.symm⟩

/-- Dropping the fields that are not needed changes nothing exactly if no needed tag is masked. -/
theorem parsedText_needed_iff (fields : List DigitField) :
    parsedText (wire (needed fields)) = parsedText (wire fields) ↔ Unmasked fields := by
  have hcomponent {β : Type} (t : ℕ) (ht : t ∈ neededTags) (read : List Byte → Option β) (default : β) :
      (lastSaid (Int32.ofInt t) read ((needed fields).map pair)).getD default =
        (lastSaid (Int32.ofInt t) read (fields.map pair)).getD default ↔
      ¬ Masked t read default fields := lastSaid_needed_iff ht default fields
  rw [parsedText_wire, parsedText_wire, Prod.mk.injEq]
  simp only [true_and, ParsedFixMessage.ofFields, ParsedFixMessage.mk.injEq]
  constructor
  · intro ⟨h35, h54, h40, h38, h44, h11, h41⟩
    exact ⟨(hcomponent 35 (by decide) _ 0).mp h35, (hcomponent 54 (by decide) _ 0).mp h54,
      (hcomponent 40 (by decide) _ 0).mp h40, (hcomponent 38 (by decide) _ 0).mp h38,
      (hcomponent 44 (by decide) _ 0).mp h44, (hcomponent 11 (by decide) _ []).mp h11,
      (hcomponent 41 (by decide) _ []).mp h41⟩
  · intro h
    exact ⟨(hcomponent 35 (by decide) _ 0).mpr h.msgType, (hcomponent 54 (by decide) _ 0).mpr h.side,
      (hcomponent 40 (by decide) _ 0).mpr h.ordType, (hcomponent 38 (by decide) _ 0).mpr h.qty,
      (hcomponent 44 (by decide) _ 0).mpr h.price, (hcomponent 11 (by decide) _ []).mpr h.clOrdID,
      (hcomponent 41 (by decide) _ []).mpr h.origClOrdID⟩

/-- Behind the side of a buy a field with the tag `2 ^ 32 + 54`, which makes it a sell. -/
theorem aliased_side :
    let fields : List DigitField := [⟨[3, 5], [byte 'D'], by decide⟩, ⟨[5, 4], [byte '1'], by decide⟩,
      ⟨[4, 2, 9, 4, 9, 6, 7, 3, 5, 0], [byte '2'], by decide⟩]
    parsedText (wire (needed fields)) ≠ parsedText (wire fields) := by
  intro fields
  rw [parsedText_wire, parsedText_wire]
  decide +kernel

end DigitField
end LobCity
