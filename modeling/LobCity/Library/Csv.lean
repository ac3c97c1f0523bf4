import Mathlib.Data.List.Basic

/-! Text of separated values. The reader is a machine on characters: a record ends with its
line unless a quote is open, two quotes inside of quotes are one. What is written without
quotes is read back, as long as no value contains one of the three signs and no line is
blank. -/
namespace LobCity.Library
variable {α : Type*}

structure Csv (α : Type*) where
  comma : α
  quote : α
  newline : α
  comma_ne_newline : comma ≠ newline
  comma_ne_quote : comma ≠ quote
  newline_ne_quote : newline ≠ quote

namespace Csv

inductive Mode
  | startRecord
  | startField
  | inField
  | inQuotedField
  | quoteInQuotedField
deriving DecidableEq

/-- The records that are complete, the fields of the next one, and the field being read. -/
structure Reader (α : Type*) where
  mode : Mode
  field : List α
  fields : List (List α)
  records : List (List (List α))

namespace Reader

def new : Reader α := ⟨.startRecord, [], [], []⟩

def addChar (r : Reader α) (mode : Mode) (c : α) : Reader α :=
  { r with mode := mode, field := r.field ++ [c] }

def saveField (r : Reader α) : Reader α :=
  { r with mode := .startField, field := [], fields := r.fields ++ [r.field] }

def endRecord (r : Reader α) : Reader α := ⟨.startRecord, [], [], r.records ++ [r.fields]⟩

variable [DecidableEq α] (d : Csv α)

def step (r : Reader α) (c : α) : Reader α :=
  match r.mode with
  | .startRecord =>
    if c = d.newline then r.endRecord
    else if c = d.quote then { r with mode := .inQuotedField }
    else if c = d.comma then r.saveField
    else r.addChar .inField c
  | .startField =>
    if c = d.newline then r.saveField.endRecord
    else if c = d.quote then { r with mode := .inQuotedField }
    else if c = d.comma then r.saveField
    else r.addChar .inField c
  | .inField =>
    if c = d.newline then r.saveField.endRecord
    else if c = d.comma then r.saveField
    else r.addChar .inField c
  | .inQuotedField =>
    if c = d.quote then { r with mode := .quoteInQuotedField } else r.addChar .inQuotedField c
  | .quoteInQuotedField =>
    if c = d.quote then r.addChar .inQuotedField c
    else if c = d.comma then r.saveField
    else if c = d.newline then r.saveField.endRecord
    else r.addChar .inField c

/-- The text is over: a record that has been begun ends with it. -/
def finish (r : Reader α) : List (List (List α)) :=
  if r.mode = .startRecord then r.records else r.saveField.endRecord.records

end Reader

variable [DecidableEq α] (d : Csv α)

def read (text : List α) : List (List (List α)) := (text.foldl (Reader.step d) .new).finish

def line : List (List α) → List α
  | [] => [d.newline]
  | [v] => v ++ [d.newline]
  | v :: w :: row => v ++ d.comma :: line (w :: row)

def Clear (v : List α) : Prop := d.comma ∉ v ∧ d.quote ∉ v ∧ d.newline ∉ v

instance (v : List α) : Decidable (d.Clear v) := inferInstanceAs (Decidable (_ ∧ _))

omit [DecidableEq α] in
theorem Clear.append {d : Csv α} {v w : List α} (hv : d.Clear v) (hw : d.Clear w) : d.Clear (v ++ w) :=
  ⟨List.not_mem_append hv.1 hw.1, List.not_mem_append hv.2.1 hw.2.1,
    List.not_mem_append hv.2.2 hw.2.2⟩

variable {d} {v : List α} {row fields : List (List α)} {records : List (List (List α))}

theorem foldl_inField (hv : d.Clear v) (field : List α) :
    v.foldl (Reader.step d) ⟨.inField, field, fields, records⟩ =
      ⟨.inField, field ++ v, fields, records⟩ := by
  induction v generalizing field with
  | nil => rw [List.append_nil, List.foldl_nil]
  | cons c v ih =>
    obtain ⟨hcomma, hquote, hnewline⟩ := hv
    have hc : c ≠ d.newline := fun h => hnewline (h ▸ List.mem_cons_self)
    have hc' : c ≠ d.comma := fun h => hcomma (h ▸ List.mem_cons_self)
    have hstep : Reader.step d ⟨.inField, field, fields, records⟩ c =
        ⟨.inField, field ++ [c], fields, records⟩ := by
      simp only [Reader.step, if_neg hc, if_neg hc', Reader.addChar]
    rw [List.foldl_cons, hstep, ih ⟨List.not_mem_of_not_mem_cons hcomma,
      List.not_mem_of_not_mem_cons hquote, List.not_mem_of_not_mem_cons hnewline⟩,
      List.append_assoc, List.singleton_append]

theorem step_comma (field : List α) : Reader.step d ⟨.inField, field, fields, records⟩ d.comma =
    ⟨.startField, [], fields ++ [field], records⟩ := by
  simp only [Reader.step, if_neg d.comma_ne_newline, if_true, Reader.saveField]

theorem step_newline (field : List α) : Reader.step d ⟨.inField, field, fields, records⟩ d.newline =
    ⟨.startRecord, [], [], records ++ [fields ++ [field]]⟩ := by
  simp only [Reader.step, if_true, Reader.saveField, Reader.endRecord]

/-- But for a quote it makes no difference whether a field has begun. -/
theorem foldl_startField {text : List α} (hne : text ≠ []) (hquote : text.head? ≠ some d.quote) :
    text.foldl (Reader.step d) ⟨.startField, [], fields, records⟩ =
      text.foldl (Reader.step d) ⟨.inField, [], fields, records⟩ := by
  cases text with
  | nil => exact absurd rfl hne
  | cons c text =>
    have hc : c ≠ d.quote := fun h => hquote (congrArg some h)
    rw [List.foldl_cons, List.foldl_cons]
    simp only [Reader.step, if_neg hc, Reader.saveField, Reader.addChar]

theorem foldl_startRecord {text : List α} (hne : text ≠ []) (hquote : text.head? ≠ some d.quote)
    (hnewline : text.head? ≠ some d.newline) :
    text.foldl (Reader.step d) ⟨.startRecord, [], fields, records⟩ =
      text.foldl (Reader.step d) ⟨.inField, [], fields, records⟩ := by
  cases text with
  | nil => exact absurd rfl hne
  | cons c text =>
    have hc : c ≠ d.quote := fun h => hquote (congrArg some h)
    have hc' : c ≠ d.newline := fun h => hnewline (congrArg some h)
    rw [List.foldl_cons, List.foldl_cons]
    simp only [Reader.step, if_neg hc, if_neg hc', Reader.saveField, Reader.addChar]

omit [DecidableEq α] in
theorem line_ne_nil (row : List (List α)) : d.line row ≠ [] := by
  cases row with
  | nil => simp [line]
  | cons v row => cases row <;> simp [line]

omit [DecidableEq α] in
theorem head_line (hclear : ∀ v ∈ row, d.Clear v) : (d.line row).head? ≠ some d.quote := by
  have hvalue {v : List α} (hv : d.Clear v) {c : α} (hc : c ≠ d.quote) (rest : List α) :
      (v ++ c :: rest).head? ≠ some d.quote := by
    cases v with
    | nil => exact fun h => hc (Option.some.inj h)
    | cons b v => exact fun h => hv.2.1 (Option.some.inj h ▸ List.mem_cons_self)
  cases row with
  | nil => exact fun h => d.newline_ne_quote (Option.some.inj h)
  | cons v row =>
    have hv := hclear v List.mem_cons_self
    cases row with
    | nil => exact hvalue hv d.newline_ne_quote []
    | cons w row => exact hvalue hv d.comma_ne_quote _

theorem foldl_line (hne : row ≠ []) (hclear : ∀ v ∈ row, d.Clear v) :
    (d.line row).foldl (Reader.step d) ⟨.inField, [], fields, records⟩ =
      ⟨.startRecord, [], [], records ++ [fields ++ row]⟩ := by
  induction row generalizing fields with
  | nil => exact absurd rfl hne
  | cons v row ih =>
    have hv := hclear v List.mem_cons_self
    cases row with
    | nil =>
      rw [line, List.foldl_append, foldl_inField hv, List.foldl_cons, List.foldl_nil, List.nil_append,
        step_newline]
    | cons w row =>
      have hrest : ∀ v ∈ w :: row, d.Clear v := fun u hu => hclear u (List.mem_cons_of_mem v hu)
      rw [line, List.foldl_append, foldl_inField hv, List.foldl_cons, List.nil_append, step_comma,
        foldl_startField (line_ne_nil _) (head_line hrest), ih (List.cons_ne_nil w row) hrest,
        List.append_assoc, List.singleton_append]

omit [DecidableEq α] in
theorem head_line_record (hne : row ≠ []) (hblank : row ≠ [[]]) (hclear : ∀ v ∈ row, d.Clear v) :
    (d.line row).head? ≠ some d.newline := by
  cases row with
  | nil => exact absurd rfl hne
  | cons v row =>
    have hv := (hclear v List.mem_cons_self).2.2
    cases v with
    | nil =>
      cases row with
      | nil => exact absurd rfl hblank
      | cons w row => exact fun h => d.comma_ne_newline (Option.some.inj h)
    | cons b v =>
      have hb : (d.line ((b :: v) :: row)).head? = some b := by cases row <;> rfl
      rw [hb]
      exact fun h => hv (Option.some.inj h ▸ List.mem_cons_self)

/-- Records written without quotes are read back. -/
theorem read_lines {rows : List (List (List α))}
    (h : ∀ row ∈ rows, row ≠ [] ∧ row ≠ [[]] ∧ ∀ v ∈ row, d.Clear v) :
    d.read (rows.flatMap d.line) = rows := by
  have hfold (records : List (List (List α))) :
      (rows.flatMap d.line).foldl (Reader.step d) ⟨.startRecord, [], [], records⟩ =
        ⟨.startRecord, [], [], records ++ rows⟩ := by
    induction rows generalizing records with
    | nil => rw [List.flatMap_nil, List.foldl_nil, List.append_nil]
    | cons row rows ih =>
      obtain ⟨hne, hblank, hclear⟩ := h row List.mem_cons_self
      rw [List.flatMap_cons, List.foldl_append, foldl_startRecord (line_ne_nil row) (head_line hclear)
        (head_line_record hne hblank hclear), foldl_line hne hclear, List.nil_append,
        ih (fun r hr => h r (List.mem_cons_of_mem row hr)), List.append_assoc, List.singleton_append]
  rw [read, Reader.new, hfold, Reader.finish, if_pos rfl, List.nil_append]

end Csv
end LobCity.Library
