import LobCity.Framing

/-! Well-formed FIX messages as they are sent, and which of them the framing loop gets
back. It looks for the text of the last tag anywhere in the stream, so a field in front
of the last one must not contain it. -/
namespace LobCity
open Library

def decimal (n : Nat) : List Byte := (Nat.toDigits 10 n).map byte

structure FixField where
  tag : Nat
  value : List Byte
  clear : soh ∉ value

namespace FixField

def text (f : FixField) : List Byte := decimal f.tag ++ byte '=' :: f.value

def wire (f : FixField) : List Byte := f.text ++ [soh]

/-- The field contains the text that ends a message. -/
def Hides (f : FixField) : Prop := f.tag % 100 = 10 ∨ checksumTag <:+: f.value

instance (f : FixField) : Decidable f.Hides := inferInstanceAs (Decidable (_ ∨ _))

end FixField

/-- A message: its last field is the one with tag 10. -/
structure FixText where
  body : List FixField
  trailer : FixField
  body_tag : ∀ f ∈ body, f.tag ≠ 10
  trailer_tag : trailer.tag = 10

def FixText.wire (m : FixText) : List Byte := m.body.flatMap FixField.wire ++ m.trailer.wire

section Decimal

def digitByte (d : Nat) : Byte := byte d.digitChar

theorem decimal_split (n : Nat) :
    ∃ front, decimal n = front ++ [digitByte (n % 10)] ∧
      (front = [] ∧ n < 10 ∨ front = decimal (n / 10) ∧ 10 ≤ n) := by
  rw [decimal, Nat.toDigits_eq_if (by decide)]
  by_cases h : n < 10
  · rw [if_pos h, Nat.mod_eq_of_lt h]
    exact ⟨[], rfl, Or.inl ⟨rfl, h⟩⟩
  · rw [if_neg h, List.map_append]
    exact ⟨_, rfl, Or.inr ⟨rfl, Nat.le_of_not_lt h⟩⟩

theorem digitByte_inj : ∀ d < 10, ∀ d' < 10, digitByte d = digitByte d' → d = d' := by decide

theorem not_mem_decimal (n : Nat) : byte '=' ∉ decimal n ∧ soh ∉ decimal n := by
  have hdigit : ∀ d < 10, byte '=' ≠ digitByte d ∧ soh ≠ digitByte d := by decide
  induction n using Nat.strongRecOn with
  | ind n ih =>
    obtain ⟨front, hsplit, hfront⟩ := decimal_split n
    obtain ⟨hsign, hdelim⟩ := hdigit (n % 10) (Nat.mod_lt n (by decide))
    have hrest : byte '=' ∉ front ∧ soh ∉ front := by
      cases hfront with
      | inl h =>
        obtain ⟨rfl, -⟩ := h
        simp
      | inr hn =>
        obtain ⟨rfl, hn⟩ := hn
        exact ih (n / 10) (by omega)
    rw [hsplit]
    simp [hrest, hsign, hdelim]

theorem digit_suffix_decimal {d : Nat} (hd : d < 10) (n : Nat) :
    [digitByte d] <:+ decimal n ↔ n % 10 = d := by
  obtain ⟨front, hsplit, -⟩ := decimal_split n
  rw [hsplit, List.singleton_suffix_append_singleton_iff]
  constructor
  · exact fun h => (digitByte_inj d hd _ (Nat.mod_lt n (by decide)) h).symm
  · rintro rfl
    rfl

theorem ten_suffix_decimal (n : Nat) : [byte '1', byte '0'] <:+ decimal n ↔ n % 100 = 10 := by
  obtain ⟨front, hsplit, hfront⟩ := decimal_split n
  have hlast : [byte '1', byte '0'] <:+ decimal n ↔
      [digitByte 0] <:+ decimal n ∧ [digitByte 1] <:+ front := by
    rw [hsplit, List.suffix_concat_iff, List.singleton_suffix_append_singleton_iff]
    constructor
    · rintro (h | ⟨t, ht, hsuf⟩)
      · cases h
      · obtain ⟨rfl, hd⟩ := List.append_inj' (show [byte '1'] ++ [byte '0'] = t ++ _ from ht) rfl
        exact ⟨List.singleton_inj.mp hd, hsuf⟩
    · rintro ⟨hd, hsuf⟩
      exact Or.inr ⟨[digitByte 1], by rw [← hd]; rfl, hsuf⟩
  rw [hlast, digit_suffix_decimal (by decide)]
  cases hfront with
  | inl hn =>
    obtain ⟨rfl, hn⟩ := hn
    have hno : ¬ [digitByte 1] <:+ [] := by simp
    simp only [hno, and_false, false_iff]
    omega
  | inr hn =>
    obtain ⟨rfl, hn⟩ := hn
    rw [digit_suffix_decimal (by decide)]
    omega

end Decimal

section Occurrence
variable {pat text rest : List Byte}

/-- A text without a delimiter that starts in front of one ends in front of it. -/
theorem starts_iff_infix (hclear : soh ∉ pat) :
    (∃ j ≤ text.length, pat <+: (text ++ soh :: rest).drop j) ↔ pat <:+: text := by
  constructor
  · rintro ⟨j, hj, hp⟩
    rw [List.drop_append_of_le_length hj] at hp
    cases Nat.le_total pat.length (text.drop j).length with
    | inl hle =>
      have hin := List.prefix_of_prefix_length_le hp (List.prefix_append _ _) hle
      exact hin.isInfix.trans (List.drop_suffix j text).isInfix
    | inr hle =>
      obtain ⟨u, hu⟩ := List.prefix_of_prefix_length_le (List.prefix_append _ _) hp hle
      -- then the delimiter stands in it, or it is all in front
      cases u with
      | nil =>
        rw [List.append_nil] at hu
        rw [← hu]
        exact (List.drop_suffix j text).isInfix
      | cons c u =>
        rw [← hu, List.prefix_append_right_inj] at hp
        obtain ⟨v, hv⟩ := hp
        obtain ⟨rfl, -⟩ := List.cons.inj hv
        rw [← hu] at hclear
        simp at hclear
  · rintro ⟨u, v, rfl⟩
    refine ⟨u.length, by simp, ?_⟩
    rw [List.append_assoc, List.append_assoc, List.drop_left]
    exact List.prefix_append _ _

theorem FixField.infix_text_iff (f : FixField) : checksumTag <:+: f.text ↔ f.Hides := by
  obtain ⟨hsign, -⟩ := not_mem_decimal f.tag
  have htag : byte '=' ∈ checksumTag := by decide
  rw [text, List.infix_append_iff, List.infix_cons_iff, Hides, ← ten_suffix_decimal]
  constructor
  · rintro (h | (⟨v, hv⟩ | h) | ⟨l, l', hl, hsuf, hpre⟩)
    · exact absurd (h.subset htag) hsign
    · exact absurd (List.cons.inj hv).1 (by decide)
    · exact Or.inr h
    · -- the sign of the field is that of the tag
      cases l' with
      | nil =>
        rw [List.append_nil] at hl
        exact absurd (hsuf.subset (hl ▸ htag)) hsign
      | cons c l' =>
        obtain ⟨v, hv⟩ := hpre
        obtain ⟨rfl, -⟩ := List.cons.inj hv
        have hl' : [byte '1', byte '0'] ++ [byte '='] = l ++ byte '=' :: l' := hl
        have hten : byte '=' ∉ [byte '1', byte '0'] := by decide
        obtain ⟨rfl, -⟩ := (List.append_cons_inj_of_notMem hten List.not_mem_nil).mp hl'
        exact Or.inl hsuf
  · rintro (h | h)
    · exact Or.inr (Or.inr ⟨[byte '1', byte '0'], [byte '='], rfl, h, by simp⟩)
    · exact Or.inr (Or.inl (Or.inr h))

/-- Where `10=` starts in front of the last field, a field hides it. -/
theorem starts_body_iff (body : List FixField) (rest : List Byte) :
    (∃ j < (body.flatMap FixField.wire).length,
      checksumTag <+: (body.flatMap FixField.wire ++ rest).drop j) ↔ ∃ f ∈ body, f.Hides := by
  induction body with
  | nil => simp
  | cons f body ih =>
    have hwire : (f :: body).flatMap FixField.wire ++ rest =
        f.text ++ soh :: (body.flatMap FixField.wire ++ rest) := by simp [FixField.wire]
    have hlen : ((f :: body).flatMap FixField.wire).length =
        f.text.length + 1 + (body.flatMap FixField.wire).length := by
      rw [List.flatMap_cons, List.length_append]
      simp [FixField.wire]
    have hfirst : (∃ j ≤ f.text.length,
        checksumTag <+: (f.text ++ soh :: (body.flatMap FixField.wire ++ rest)).drop j) ↔
          checksumTag <:+: f.text := starts_iff_infix (by decide)
    rw [f.infix_text_iff] at hfirst
    have hdrop (j : Nat) : (f.text ++ soh :: (body.flatMap FixField.wire ++ rest)).drop
        (f.text.length + 1 + j) = (body.flatMap FixField.wire ++ rest).drop j := by
      rw [Nat.add_assoc, ← List.drop_drop, List.drop_left, Nat.add_comm 1 j, List.drop_succ_cons]
    rw [hwire, hlen, List.exists_mem_cons_iff, ← hfirst, ← ih]
    constructor
    · rintro ⟨j, hj, hp⟩
      by_cases hle : j ≤ f.text.length
      · exact Or.inl ⟨j, hle, hp⟩
      · obtain ⟨k, rfl⟩ := Nat.exists_eq_add_of_le (Nat.lt_of_not_le hle)
        exact Or.inr ⟨k, Nat.lt_of_add_lt_add_left hj, by rwa [← hdrop]⟩
    · rintro (⟨j, hj, hp⟩ | ⟨k, hk, hp⟩)
      · exact ⟨j, by omega, hp⟩
      · exact ⟨f.text.length + 1 + k, Nat.add_lt_add_left hk _, by rwa [hdrop]⟩

end Occurrence

namespace FixText
open Accumulator (find find_eq_some find_isSome frameLen? frameLen?_eq_some framer)
variable {m : FixText}

theorem trailer_wire (m : FixText) : m.trailer.wire = checksumTag ++ (m.trailer.value ++ [soh]) := by
  rw [FixField.wire, FixField.text, m.trailer_tag]
  have hten : decimal 10 = [byte '1', byte '0'] := by decide
  rw [hten]
  rfl

theorem soh_not_mem_text (f : FixField) : soh ∉ f.text := by
  obtain ⟨-, hdelim⟩ := not_mem_decimal f.tag
  have hsign : soh ≠ byte '=' := by decide
  simp [FixField.text, hdelim, hsign, f.clear]

theorem body_ends {body : List FixField} (h : body ≠ []) :
    ∃ u, body.flatMap FixField.wire = u ++ [soh] := by
  obtain ⟨front, f, rfl⟩ := (List.eq_nil_or_concat' body).resolve_left h
  exact ⟨front.flatMap FixField.wire ++ f.text, by simp [FixField.wire]⟩

theorem frameLen?_of_hides {f : FixField} (hf : f ∈ m.body) (hides : f.Hides) (rest : List Byte) :
    frameLen? (m.wire ++ rest) ≠ some m.wire.length := by
  intro hlen
  obtain ⟨msgEnd, delimPos, hm, hd, hn⟩ := frameLen?_eq_some.mp hlen
  obtain ⟨u, hu⟩ := body_ends (List.ne_nil_of_mem hf)
  have hwire : m.wire ++ rest = u ++ soh :: (m.trailer.wire ++ rest) := by
    rw [wire, hu]
    simp
  obtain ⟨j, hj, hp⟩ := (starts_body_iff m.body (m.trailer.wire ++ rest)).mpr ⟨f, hf, hides⟩
  have hp : checksumTag <+: (m.wire ++ rest).drop j := by
    rwa [wire, List.append_assoc]
  obtain ⟨i, hi, hfind⟩ := find_isSome (by decide) (Nat.zero_le j) hp
  obtain rfl := Option.some.inj (hm.symm.trans hfind)
  rw [hu, List.length_append, List.length_singleton] at hj
  have hdelim : [soh] <+: (m.wire ++ rest).drop u.length := by
    rw [hwire, List.drop_left]
    exact ⟨_, rfl⟩
  have hbefore : msgEnd ≤ u.length := by omega
  obtain ⟨d, hle, hfind'⟩ := find_isSome (by decide) hbefore hdelim
  obtain rfl := Option.some.inj (hd.symm.trans hfind')
  have htotal : m.wire.length = (u ++ [soh]).length + m.trailer.wire.length := by
    rw [wire, hu, List.length_append]
  rw [List.length_append, List.length_singleton] at htotal
  have htrailer : m.trailer.wire.length ≠ 0 := by simp [trailer_wire, checksumTag]
  omega

theorem frameLen?_of_shown (h : ∀ f ∈ m.body, ¬ f.Hides) (rest : List Byte) :
    frameLen? (m.wire ++ rest) = some m.wire.length := by
  set front := m.body.flatMap FixField.wire with hfront
  have hwire : m.wire ++ rest = front ++ (m.trailer.wire ++ rest) := by
    rw [wire, List.append_assoc]
  have htag : find (m.wire ++ rest) checksumTag 0 = some front.length := by
    refine find_eq_some.mpr ⟨⟨Nat.zero_le _, ?_⟩, ?_, fun j hj _ hp => ?_⟩
    · rw [hwire, List.drop_left, trailer_wire, List.append_assoc]
      exact List.prefix_append _ _
    · rw [hwire, trailer_wire]
      simp [checksumTag]
    · rw [hwire] at hp
      obtain ⟨f, hf, hides⟩ := (starts_body_iff m.body _).mp ⟨j, hj, hp⟩
      exact h f hf hides
  have htext : front ++ (m.trailer.wire ++ rest) = (front ++ m.trailer.text) ++ soh :: rest := by
    simp [FixField.wire]
  have hdelim : find (m.wire ++ rest) [soh] front.length =
      some (front ++ m.trailer.text).length := by
    refine find_eq_some.mpr ⟨⟨by simp, ?_⟩, ?_, fun j hj hle hp => ?_⟩
    · rw [hwire, htext, List.drop_left]
      exact ⟨rest, rfl⟩
    · rw [hwire, htext]
      simp
    · rw [hwire] at hp
      obtain ⟨k, rfl⟩ := Nat.exists_eq_add_of_le hle
      have hk : k < m.trailer.text.length := by
        rw [List.length_append] at hj
        omega
      rw [← List.drop_drop, List.drop_left, FixField.wire, List.append_assoc,
        List.drop_append_of_le_length (Nat.le_of_lt hk), List.drop_eq_getElem_cons hk] at hp
      obtain ⟨v, hv⟩ := hp
      have hmem := List.getElem_mem hk
      rw [← (List.cons.inj hv).1] at hmem
      exact soh_not_mem_text _ hmem
  refine frameLen?_eq_some.mpr ⟨_, _, htag, hdelim, ?_⟩
  simp [wire, FixField.wire, ← hfront]
  omega

/-- The first frame is the first message exactly when no field of its body hides the tag. -/
theorem frameLen?_wire_iff (m : FixText) (rest : List Byte) :
    frameLen? (m.wire ++ rest) = some m.wire.length ↔ ∀ f ∈ m.body, ¬ f.Hides := by
  refine ⟨fun hlen f hf hides => ?_, fun h => frameLen?_of_shown h rest⟩
  exact frameLen?_of_hides hf hides rest hlen

theorem cut_wire_iff (msgs : List FixText) :
    framer.cut (msgs.flatMap wire) = (msgs.map wire, []) ↔
      ∀ m ∈ msgs, ∀ f ∈ m.body, ¬ f.Hides := by
  induction msgs with
  | nil => simpa using Framer.cut_none (F := framer) (x := []) rfl
  | cons m msgs ih =>
    rw [List.forall_mem_cons, ← ih, ← frameLen?_wire_iff m (msgs.flatMap wire), List.flatMap_cons]
    set rest := msgs.flatMap wire with hrest
    have hcut {n : Nat} (hn : frameLen? (m.wire ++ rest) = some n) := Framer.cut_some (F := framer) hn
    constructor
    · intro h
      cases hn : frameLen? (m.wire ++ rest) with
      | none =>
        rw [Framer.cut_none (F := framer) hn] at h
        simp at h
      | some n =>
        rw [hcut hn] at h
        obtain ⟨hframes, hleft⟩ := Prod.mk.inj h
        obtain ⟨hmsg, hframes⟩ := List.cons.inj hframes
        have hle : n ≤ (m.wire ++ rest).length := framer.le hn
        have hlen : n = m.wire.length := by
          rw [← hmsg, List.length_take_of_le hle]
        subst hlen
        rw [List.drop_left] at hframes hleft
        exact ⟨rfl, Prod.ext hframes hleft⟩
    · rintro ⟨hn, hrest'⟩
      rw [hcut hn, List.take_left, List.drop_left, hrest']
      rfl

end FixText

/-- However they are cut into reads, the sent messages are framed one by one and to the end
exactly when no field in front of the last has a tag that ends in 10 or a value that
contains `10=`. -/
theorem Connection.serve_sent_iff {msgs : List FixText} {reads : List (List Byte)}
    (hreads : ∀ readBuf ∈ reads, readBuf ≠ []) (hsent : reads.flatten = msgs.flatMap FixText.wire) :
    ((new.serve reads).framed = msgs.map FixText.wire ∧ (new.serve reads).accumulator.content = []) ↔
      ∀ m ∈ msgs, ∀ f ∈ m.body, ¬ (f.tag % 100 = 10 ∨ checksumTag <:+: f.value) := by
  have h := serve_new hreads
  rw [hsent] at h
  rw [h.framed, h.content]
  exact Prod.mk.injEq .. ▸ FixText.cut_wire_iff msgs

/-- An order with a minimum quantity, tag 110. -/
def minQtyOrder : FixText where
  body := [⟨35, [byte 'D'], by decide⟩, ⟨38, [byte '7'], by decide⟩, ⟨110, [byte '5'], by decide⟩,
    ⟨44, [byte '9'], by decide⟩]
  trailer := ⟨10, [byte '0'], by decide⟩
  body_tag := by decide
  trailer_tag := rfl

/-- It is cut behind the minimum quantity, and the rest of it is another frame. -/
theorem minQtyOrder_cut :
    minQtyOrder.wire ≠ [] ∧
      (Connection.new.serve [minQtyOrder.wire]).framed.map List.length = [16, 10] ∧
      (Connection.new.serve [minQtyOrder.wire]).framed ≠ [minQtyOrder].map FixText.wire := by
  decide +kernel

theorem Connection.serve_sent_split :
    let first : FixText := ⟨[⟨35, [byte 'F'], by decide⟩], ⟨10, [byte '1'], by decide⟩, by decide, rfl⟩
    let second : FixText := ⟨[⟨11, [byte '8'], by decide⟩], ⟨10, [byte '2'], by decide⟩, by decide, rfl⟩
    let stream := first.wire ++ second.wire
    let reads := [stream.take 4, (stream.drop 4).take 13, stream.drop 17]
    (new.serve reads).framed = [first.wire, second.wire] ∧
      (new.serve reads).accumulator.content = [] := by
  intro first second stream reads
  have hsent : reads.flatten = [first, second].flatMap FixText.wire := by decide +kernel
  exact (serve_sent_iff (by decide +kernel) hsent).mpr (by decide +kernel)

end LobCity
