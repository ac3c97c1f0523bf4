import Mathlib.Logic.Function.Basic
import Mathlib.Data.List.Induction
import Mathlib.Data.List.Nodup

/-! Doubly linked segments over two link functions. `Segment next prev p L n` reads:
walking `next` visits exactly `L`, entered from `p` and left towards `n`, and `prev`
walks it back. Unlinking and appending are the usual pointer updates. -/
namespace LobCity.Library
variable {α : Type*}

def Segment (next prev : α → Option α) : Option α → List α → Option α → Prop
  | _, [], _ => True
  | p, a :: L, n => prev a = p ∧ next a = L.head?.or n ∧ Segment next prev (some a) L n

namespace Segment
variable {next prev next' prev' : α → Option α}

theorem congr {p n : Option α} {L : List α} (h : Segment next prev p L n)
    (hn : ∀ a ∈ L, next' a = next a) (hp : ∀ a ∈ L, prev' a = prev a) :
    Segment next' prev' p L n := by
  induction L generalizing p with
  | nil => trivial
  | cons a L ih =>
    obtain ⟨h1, h2, h3⟩ := h
    exact ⟨(hp a (by simp)).trans h1, (hn a (by simp)).trans h2,
      ih h3 (fun b hb => hn b (by simp [hb])) (fun b hb => hp b (by simp [hb]))⟩

/-- The sequence fixes the links of its members. -/
theorem unique {p n : Option α} {L : List α} (h : Segment next prev p L n)
    (h' : Segment next' prev' p L n) {a : α} (ha : a ∈ L) : next' a = next a ∧ prev' a = prev a := by
  induction L generalizing p with
  | nil => simp at ha
  | cons b L ih =>
    obtain ⟨hp, hn, hL⟩ := h
    obtain ⟨hp', hn', hL'⟩ := h'
    cases List.mem_cons.mp ha with
    | inl he =>
      rw [he]
      exact ⟨hn'.trans hn.symm, hp'.trans hp.symm⟩
    | inr ha => exact ih hL hL' ha

theorem append {p n : Option α} {L M : List α} :
    Segment next prev p (L ++ M) n ↔
      Segment next prev p L (M.head?.or n) ∧ Segment next prev (L.getLast?.or p) M n := by
  induction L generalizing p with
  | nil => simp [Segment]
  | cons a L ih =>
    have hl : ((a :: L).getLast?).or p = (L.getLast?).or (some a) := by
      cases L <;> simp [List.getLast?_cons]
    simp only [List.cons_append, Segment, ih, hl, and_assoc]
    have hh : ((L ++ M).head?).or n = (L.head?).or (M.head?.or n) := by
      cases L <;> simp
    rw [hh]

theorem links {p n : Option α} {A B : List α} {a : α} (h : Segment next prev p (A ++ a :: B) n) :
    prev a = A.getLast?.or p ∧ next a = B.head?.or n := by
  obtain ⟨-, h1, h2, -⟩ := append.mp h
  exact ⟨h1, h2⟩

section Overlap
variable {L L' : List α}

theorem eq_of_head? {p p' : Option α} (h : Segment next prev p L none)
    (h' : Segment next prev p' L' none) (hhead : L.head? = L'.head?) : L = L' := by
  induction L generalizing L' p p' with
  | nil => exact (List.head?_eq_none_iff.mp hhead.symm).symm
  | cons a L ih =>
    obtain ⟨M, rfl⟩ := List.head?_eq_some_iff.mp hhead.symm
    obtain ⟨-, hn, hL⟩ := h
    obtain ⟨-, hn', hM⟩ := h'
    have hnext : L.head? = M.head? := by simpa using hn.symm.trans hn'
    rw [ih hL hM hnext]

theorem eq_of_getLast? {n n' : Option α} (h : Segment next prev none L n)
    (h' : Segment next prev none L' n') (hlast : L.getLast? = L'.getLast?) : L = L' := by
  induction L using List.reverseRecOn generalizing L' n n' with
  | nil => exact (List.getLast?_eq_none_iff.mp hlast.symm).symm
  | append_singleton L a ih =>
    rw [List.getLast?_concat] at hlast
    obtain ⟨M, rfl⟩ := List.getLast?_eq_some_iff.mp hlast.symm
    obtain ⟨hL, hp, -⟩ := append.mp h
    obtain ⟨hM, hp', -⟩ := append.mp h'
    have hprev : L.getLast? = M.getLast? := by simpa using hp.symm.trans hp'
    rw [ih hL hM hprev]

theorem eq_of_mem (h : Segment next prev none L none) (h' : Segment next prev none L' none) {a : α}
    (ha : a ∈ L) (ha' : a ∈ L') : L = L' := by
  obtain ⟨A, B, rfl⟩ := List.append_of_mem ha
  obtain ⟨A', B', rfl⟩ := List.append_of_mem ha'
  obtain ⟨hA, hB⟩ := append.mp h
  obtain ⟨hA', hB'⟩ := append.mp h'
  obtain ⟨hp, hn⟩ := h.links
  obtain ⟨hp', hn'⟩ := h'.links
  have hprev : A.getLast? = A'.getLast? := by simpa using hp.symm.trans hp'
  rw [eq_of_getLast? hA hA' hprev, eq_of_head? hB hB' rfl]

end Overlap

variable [DecidableEq α]

/-- Rewrite the forward link of the last member, if there is one. -/
def setLast (next : α → Option α) (L : List α) (m : Option α) : α → Option α :=
  match L.getLast? with
  | some t => Function.update next t m
  | none => next

def setFirst (prev : α → Option α) (L : List α) (q : Option α) : α → Option α :=
  match L.head? with
  | some b => Function.update prev b q
  | none => prev

theorem setLast_of_not_mem {L : List α} {m : Option α} {x : α} (hx : x ∉ L) :
    setLast next L m x = next x := by
  unfold setLast
  cases hL : L.getLast? with
  | none => rfl
  | some t =>
    have ht : t ∈ L := List.mem_of_getLast? hL
    exact Function.update_of_ne (fun he => hx (by rwa [he])) _ _

theorem setFirst_of_not_mem {L : List α} {q : Option α} {x : α} (hx : x ∉ L) :
    setFirst prev L q x = prev x := by
  unfold setFirst
  cases hL : L.head? with
  | none => rfl
  | some b =>
    have hb : b ∈ L := List.mem_of_head? hL
    exact Function.update_of_ne (fun he => hx (by rwa [he])) _ _

theorem setExit {p n m : Option α} {L : List α} (h : Segment next prev p L n) (hL : L.Nodup) :
    Segment (setLast next L m) prev p L m := by
  cases List.eq_nil_or_concat L with
  | inl h =>
    obtain rfl := h
    trivial
  | inr hcase =>
    obtain ⟨M, t, rfl⟩ := hcase
    rw [List.concat_eq_append] at *
    obtain ⟨hM, ht, -, -⟩ := append.mp h
    have hnot : t ∉ M := by
      have hd := List.nodup_append.mp hL
      intro hm
      exact hd.2.2 t hm t (by simp) rfl
    have hs : setLast next (M ++ [t]) m = Function.update next t m := by
      simp [setLast]
    rw [hs]
    refine append.mpr ⟨hM.congr (fun x hx => ?_) (fun _ _ => rfl), ht, by simp, trivial⟩
    exact Function.update_of_ne (fun he => hnot (by rwa [← he])) _ _

theorem setEntry {p q n : Option α} {L : List α} (h : Segment next prev p L n) (hL : L.Nodup) :
    Segment next (setFirst prev L q) q L n := by
  cases L with
  | nil => trivial
  | cons b B =>
    obtain ⟨-, h2, h3⟩ := h
    have hnot : b ∉ B := (List.nodup_cons.mp hL).1
    refine ⟨by simp [setFirst], h2, h3.congr (fun _ _ => rfl) fun x hx => ?_⟩
    exact Function.update_of_ne (fun he => hnot (by rwa [← he])) _ _

theorem push_back {L : List α} {a : α} (h : Segment next prev none L none) (hL : L.Nodup)
    (ha : a ∉ L) (hn : next a = none) :
    Segment (setLast next L (some a)) (Function.update prev a L.getLast?)
      none (L ++ [a]) none := by
  refine append.mpr ⟨(h.setExit hL).congr (fun _ _ => rfl) fun x hx => ?_, ?_⟩
  · exact Function.update_of_ne (fun he => ha (by rwa [← he])) _ _
  · exact ⟨by simp, by simpa using (setLast_of_not_mem ha).trans hn, trivial⟩

/-- Unlinking `a` closes the gap between its neighbours. -/
theorem unlink {A B : List α} {a : α} {p n : Option α}
    (h : Segment next prev p (A ++ a :: B) n) (hL : (A ++ a :: B).Nodup) :
    Segment (setLast next A (next a)) (setFirst prev B (prev a)) p (A ++ B) n := by
  obtain ⟨hA, hpa, hna, hB⟩ := append.mp h
  obtain ⟨hAn, hBn, hd⟩ := List.nodup_append.mp hL
  have hBn' := (List.nodup_cons.mp hBn).2
  refine append.mpr ⟨?_, ?_⟩
  · rw [← hna]
    refine (hA.setExit hAn).congr (fun _ _ => rfl) fun x hx => setFirst_of_not_mem fun hxB => ?_
    exact hd x hx x (List.mem_cons_of_mem a hxB) rfl
  · rw [← hpa]
    refine (hB.setEntry hBn').congr (fun x hx => setLast_of_not_mem fun hxA => ?_) fun _ _ => rfl
    exact hd x hxA x (List.mem_cons_of_mem a hx) rfl

end Segment
end LobCity.Library
