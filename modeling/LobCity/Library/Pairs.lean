import Mathlib.Data.List.Induction

/-! Pairs of a key and a value in text: a sign stands between the two, and between one pair
and the next a stop. The key is free of the sign and the value of the stop, so the text
of a list of pairs determines the list. -/
namespace LobCity.Library
variable {α : Type*}

theorem append_cons_inj {a : α} {l l' m m' : List α} (hl : a ∉ l) (hl' : a ∉ l') :
    l ++ a :: m = l' ++ a :: m' ↔ l = l' ∧ m = m' := by
  induction l generalizing l' with
  | nil =>
    cases l' with
    | nil => simp
    | cons c l' => simp [(List.ne_of_not_mem_cons hl')]
  | cons b l ih =>
    cases l' with
    | nil => simp [(List.ne_of_not_mem_cons hl).symm]
    | cons c l' =>
      have hrest := ih (List.not_mem_of_not_mem_cons hl) (List.not_mem_of_not_mem_cons hl')
      simp [hrest, and_assoc]

structure Pair (sign stop : α) where
  key : List α
  value : List α
  key_clear : sign ∉ key
  value_clear : stop ∉ value

namespace Pair
variable {sign stop : α}

theorem ext_iff {x y : Pair sign stop} : x = y ↔ x.key = y.key ∧ x.value = y.value := by
  cases x
  cases y
  simp

def text (x : Pair sign stop) : List α := x.key ++ sign :: x.value

theorem text_ne_nil (x : Pair sign stop) : x.text ≠ [] := by simp [text]

/-- The text of pairs that are all closed by a stop, and of a last one that is not. -/
def joined (closed : List (Pair sign stop)) (last : Option (Pair sign stop)) : List α :=
  closed.flatMap (fun x => x.text ++ [stop]) ++ last.elim [] text

theorem joined_cons (x : Pair sign stop) (closed : List (Pair sign stop))
    (last : Option (Pair sign stop)) : joined (x :: closed) last = x.text ++ stop :: joined closed last := by
  simp [joined]

theorem joined_none : joined ([] : List (Pair sign stop)) none = [] := rfl

theorem joined_some (x : Pair sign stop) : joined [] (some x) = x.text := rfl

theorem text_inj {x y : Pair sign stop} : x.text = y.text ↔ x = y := by
  rw [text, text, append_cons_inj x.key_clear y.key_clear, ext_iff]

theorem text_append_inj {x y : Pair sign stop} {l l' : List α} :
    x.text ++ stop :: l = y.text ++ stop :: l' ↔ x = y ∧ l = l' := by
  rw [text, text, List.append_assoc, List.append_assoc, List.cons_append, List.cons_append,
    append_cons_inj x.key_clear y.key_clear,
    append_cons_inj x.value_clear y.value_clear, ext_iff, and_assoc]

theorem text_ne_append {x y : Pair sign stop} {l : List α} : x.text ≠ y.text ++ stop :: l := by
  intro h
  rw [text, text, List.append_assoc, List.cons_append,
    append_cons_inj x.key_clear y.key_clear] at h
  apply x.value_clear
  rw [h.2]
  simp

theorem joined_inj {closed closed' : List (Pair sign stop)} {last last' : Option (Pair sign stop)}
    (h : joined closed last = joined closed' last') : closed = closed' ∧ last = last' := by
  induction closed generalizing closed' with
  | nil =>
    cases closed' with
    | nil =>
      cases last <;> cases last' <;>
        simp_all [joined_none, joined_some, text_inj, text_ne_nil, (text_ne_nil _).symm]
    | cons y closed' =>
      rw [joined_cons] at h
      cases last with
      | none => simp [joined_none] at h
      | some x => exact absurd h text_ne_append
  | cons x closed ih =>
    rw [joined_cons] at h
    cases closed' with
    | nil =>
      cases last' with
      | none => simp [joined_none] at h
      | some y => exact absurd h.symm text_ne_append
    | cons y closed' =>
      rw [joined_cons, text_append_inj] at h
      obtain ⟨rfl, hrest⟩ := h
      obtain ⟨rfl, rfl⟩ := ih hrest
      exact ⟨rfl, rfl⟩

end Pair

section LastWrite
variable {σ β : Type*}

/-- A component that each step either writes or leaves holds what was written last. -/
theorem foldl_eq_getLast?_filterMap {step : σ → α → σ} {get : σ → β} {written : α → Option β}
    (h : ∀ s a, get (step s a) = (written a).getD (get s)) (items : List α) (s : σ) :
    get (items.foldl step s) = (items.filterMap written).getLast?.getD (get s) := by
  induction items using List.reverseRecOn with
  | nil => rfl
  | append_singleton items a ih =>
    rw [List.foldl_append, List.foldl_cons, List.foldl_nil, h, ih, List.filterMap_append]
    cases hw : written a with
    | none => simp [hw]
    | some b => simp [hw]

/-- The last that is written is what the last item that writes does. -/
theorem getLast?_filterMap_eq_bind (written : α → Option β) (items : List α) :
    (items.filterMap written).getLast? =
      ((items.filter fun a => (written a).isSome).getLast?).bind written := by
  induction items using List.reverseRecOn with
  | nil => rfl
  | append_singleton items a ih =>
    rw [List.filterMap_append, List.filter_append]
    cases hw : written a with
    | none => simp [hw, ih]
    | some b => simp [hw]

/-- The last of the items with `p` is the last of those with `q`, if it is one of them. -/
theorem getLast?_filter_of_imp {p q : α → Bool} {items : List α} {a : α}
    (h : (items.filter p).getLast? = some a) (ha : q a = true) (himp : ∀ x, q x = true → p x = true) :
    (items.filter q).getLast? = some a := by
  have hfilter : (items.filter p).filter q = items.filter q := by
    rw [List.filter_filter]
    refine List.filter_congr fun x _ => ?_
    cases hq : q x with
    | false => rfl
    | true => exact himp x hq
  obtain ⟨init, hinit⟩ := List.getLast?_eq_some_iff.mp h
  rw [← hfilter, hinit, List.filter_append]
  simp [ha]

end LastWrite
end LobCity.Library
