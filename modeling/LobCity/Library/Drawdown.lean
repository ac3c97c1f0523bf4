import Mathlib.Data.List.Basic
import Mathlib.Order.Lattice

/-! The largest value of a series and its largest fall, kept in one pass, with a comparison
that need not tell all values apart. -/
namespace LobCity.Library
variable {α : Type*}

structure StrictWeak (lt : α → α → Bool) : Prop where
  asymm : ∀ {a b}, lt a b = true → lt b a = false
  cotrans : ∀ {a c}, lt a c = true → ∀ b, lt a b = true ∨ lt b c = true

def NotAbove (lt : α → α → Bool) (a b : α) : Prop := lt b a = false

namespace StrictWeak
variable {lt : α → α → Bool} {a b c : α}

theorem refl (h : StrictWeak lt) (a : α) : NotAbove lt a a := by
  cases ha : lt a a with
  | false => exact ha
  | true => exact absurd (ha.symm.trans (h.asymm ha)) (by decide)

theorem trans (h : StrictWeak lt) (hab : NotAbove lt a b) (hbc : NotAbove lt b c) :
    NotAbove lt a c := by
  cases hca : lt c a with
  | false => exact hca
  | true =>
    cases h.cotrans hca b with
    | inl hcb => exact absurd (hcb.symm.trans hbc) (by decide)
    | inr hba => exact absurd (hba.symm.trans hab) (by decide)

theorem flip (h : StrictWeak lt) : StrictWeak fun a b => lt b a :=
  ⟨fun hab => h.asymm hab, fun hac b => (h.cotrans hac b).symm⟩

theorem of_linearOrder {α : Type*} [LinearOrder α] : StrictWeak fun a b : α => decide (a < b) := by
  refine ⟨fun {a b} hab => ?_, fun {a c} hac b => ?_⟩
  · exact decide_eq_false (not_lt_of_gt (of_decide_eq_true hab))
  · have hac : a < c := of_decide_eq_true hac
    exact (lt_or_ge a b).imp decide_eq_true fun hba => decide_eq_true (lt_of_le_of_lt hba hac)

end StrictWeak

/-- The larger of the two, the first one if they are alike. -/
def keepLarger (lt : α → α → Bool) (peak x : α) : α := if lt peak x then x else peak

def runningPeak (lt : α → α → Bool) (first : α) (xs : List α) : α := xs.foldl (keepLarger lt) first

def fallStep (lt : α → α → Bool) (sub : α → α → α) (s : α × α) (x : α) : α × α :=
  (keepLarger lt s.1 x, keepLarger lt s.2 (sub (keepLarger lt s.1 x) x))

def Precedes (xs : List α) (a b : α) : Prop := ∃ ys zs, xs = ys ++ b :: zs ∧ a ∈ ys ++ [b]

section Peak
variable {lt : α → α → Bool} {first : α} {xs : List α}

theorem keepLarger_spec (h : StrictWeak lt) (p x : α) :
    (keepLarger lt p x = p ∨ keepLarger lt p x = x) ∧ NotAbove lt p (keepLarger lt p x) ∧
      NotAbove lt x (keepLarger lt p x) := by
  unfold keepLarger
  split_ifs with hlt
  · exact ⟨Or.inr rfl, h.asymm hlt, h.refl x⟩
  · exact ⟨Or.inl rfl, h.refl p, by simpa [NotAbove] using hlt⟩

/-- It is one of the values, and none is above it. -/
theorem runningPeak_spec (h : StrictWeak lt) (first : α) (xs : List α) :
    runningPeak lt first xs ∈ first :: xs ∧
      ∀ y ∈ first :: xs, NotAbove lt y (runningPeak lt first xs) := by
  induction xs generalizing first with
  | nil =>
    refine ⟨List.mem_singleton.mpr rfl, fun y hy => ?_⟩
    obtain rfl := List.mem_singleton.mp hy
    exact h.refl y
  | cons x xs ih =>
    obtain ⟨hkeep, hfirst, hx⟩ := keepLarger_spec h first x
    obtain ⟨hmem, hle⟩ := ih (keepLarger lt first x)
    have hpeak := hle _ List.mem_cons_self
    show runningPeak lt (keepLarger lt first x) xs ∈ _ ∧ _
    refine ⟨?_, fun y hy => ?_⟩
    · cases List.mem_cons.mp hmem with
      | inl hmem =>
        rw [hmem]
        rcases hkeep with hkeep | hkeep <;> rw [hkeep] <;> simp
      | inr hmem => exact List.mem_cons_of_mem _ (List.mem_cons_of_mem _ hmem)
    · rcases List.mem_cons.mp hy with rfl | hy
      · exact h.trans hfirst hpeak
      · rcases List.mem_cons.mp hy with rfl | hy
        · exact h.trans hx hpeak
        · exact hle y (List.mem_cons_of_mem _ hy)

end Peak

section Fall
variable {lt : α → α → Bool} {sub : α → α → α} {zero first : α} {xs : List α}

theorem precedes_concat {a b x : α} :
    Precedes (xs ++ [x]) a b ↔ Precedes xs a b ∨ b = x ∧ a ∈ xs ++ [x] := by
  constructor
  · rintro ⟨ys, zs, hsplit, ha⟩
    rcases List.eq_nil_or_concat zs with rfl | ⟨zs, z, rfl⟩
    · obtain ⟨rfl, hx⟩ := List.append_inj' hsplit rfl
      obtain rfl := List.singleton_inj.mp hx
      exact Or.inr ⟨rfl, ha⟩
    · have hsplit : xs ++ [x] = (ys ++ b :: zs) ++ [z] := by simpa using hsplit
      exact Or.inl ⟨ys, zs, (List.append_inj' hsplit rfl).1, ha⟩
  · rintro (⟨ys, zs, rfl, ha⟩ | ⟨rfl, ha⟩)
    · exact ⟨ys, zs ++ [x], by simp, ha⟩
    · exact ⟨xs, [], rfl, ha⟩

theorem precedes_map {β : Type*} {f : β → α} {xs : List β} {a b : α} :
    Precedes (xs.map f) a b ↔ ∃ x y, Precedes xs x y ∧ a = f x ∧ b = f y := by
  constructor
  · rintro ⟨ys, zs, hsplit, ha⟩
    obtain ⟨us, vs, rfl, rfl, hv⟩ := List.map_eq_append_iff.mp hsplit
    obtain ⟨y, vs, rfl, rfl, rfl⟩ := List.map_eq_cons_iff.mp hv
    have ha : a ∈ (us ++ [y]).map f := by simpa using ha
    obtain ⟨x, hx, rfl⟩ := List.mem_map.mp ha
    exact ⟨x, y, ⟨us, vs, rfl, hx⟩, rfl, rfl⟩
  · rintro ⟨x, y, ⟨us, vs, rfl, hx⟩, rfl, rfl⟩
    refine ⟨us.map f, vs.map f, by simp, ?_⟩
    have hx := List.mem_map_of_mem (f := f) hx
    simpa using hx

/-- What the pass keeps of a series. -/
structure FallOf (lt : α → α → Bool) (sub : α → α → α) (zero : α) (xs : List α) (s : α × α) :
    Prop where
  mem : s.1 ∈ xs
  above : ∀ y ∈ xs, NotAbove lt y s.1
  fall : s.2 = zero ∨ ∃ a b, Precedes xs a b ∧ s.2 = sub a b
  zero_le : NotAbove lt zero s.2
  larger : ∀ a b, Precedes xs a b → NotAbove lt (sub a b) s.2

def FallsMore (lt : α → α → Bool) (sub : α → α → α) : Prop :=
  ∀ {a b}, NotAbove lt a b → ∀ c, NotAbove lt (sub a c) (sub b c)

theorem FallOf.step {s : α × α} (hs : FallOf lt sub zero xs s) (h : StrictWeak lt)
    (hsub : FallsMore lt sub) (x : α) : FallOf lt sub zero (xs ++ [x]) (fallStep lt sub s x) := by
  obtain ⟨hkeep, hold, hnew⟩ := keepLarger_spec h s.1 x
  set peak := keepLarger lt s.1 x with hpeak
  obtain ⟨hfall, hless, hlast⟩ := keepLarger_spec h s.2 (sub peak x)
  have hmem : peak ∈ xs ++ [x] := by
    rcases hkeep with hkeep | hkeep <;> rw [hkeep]
    · exact List.mem_append_left _ hs.mem
    · exact List.mem_append_right _ (List.mem_singleton.mpr rfl)
  have habove : ∀ y ∈ xs ++ [x], NotAbove lt y peak := by
    intro y hy
    cases List.mem_append.mp hy with
    | inl hy => exact h.trans (hs.above y hy) hold
    | inr hy =>
      obtain rfl := List.mem_singleton.mp hy
      exact hnew
  refine ⟨hmem, habove, ?_, h.trans hs.zero_le hless, fun a b hab => ?_⟩
  · show keepLarger lt s.2 (sub peak x) = zero ∨ _
    cases hfall with
    | inl hsame =>
      refine hs.fall.imp (fun hzero => hsame.trans hzero) fun hpair => ?_
      obtain ⟨a, b, hab, heq⟩ := hpair
      exact ⟨a, b, precedes_concat.mpr (Or.inl hab), hsame.trans heq⟩
    | inr hsame => exact Or.inr ⟨peak, x, precedes_concat.mpr (Or.inr ⟨rfl, hmem⟩), hsame⟩
  · cases precedes_concat.mp hab with
    | inl hab => exact h.trans (hs.larger a b hab) hless
    | inr hab =>
      obtain ⟨rfl, ha⟩ := hab
      exact h.trans (hsub (habove a ha) b) hlast

theorem FallOf.foldl {s : α × α} (hs : FallOf lt sub zero xs s) (h : StrictWeak lt)
    (hsub : FallsMore lt sub) (ys : List α) :
    FallOf lt sub zero (xs ++ ys) (ys.foldl (fallStep lt sub) s) := by
  induction ys generalizing xs s with
  | nil => rwa [List.append_nil]
  | cons y ys ih =>
    have hnext := ih (hs.step h hsub y)
    rwa [List.append_assoc] at hnext

/-- The pass over a series, which begins at its first value and with no fall. -/
theorem fallOf_series (h : StrictWeak lt) (hsub : FallsMore lt sub) (zero first : α) (xs : List α) :
    FallOf lt sub zero (first :: xs) ((first :: xs).foldl (fallStep lt sub) (first, zero)) := by
  obtain ⟨hkeep, hless, hlast⟩ := keepLarger_spec h zero (sub first first)
  have hpeak : keepLarger lt first first = first := by
    unfold keepLarger
    exact ite_self first
  have hprecedes (a b : α) (hab : Precedes [first] a b) : a = first ∧ b = first := by
    have hab : Precedes ([] ++ [first]) a b := hab
    cases precedes_concat.mp hab with
    | inl hab =>
      obtain ⟨ys, zs, hnil, -⟩ := hab
      simp at hnil
    | inr hab => exact ⟨by simpa using hab.2, hab.1⟩
  have hstart : FallOf lt sub zero [first] (fallStep lt sub (first, zero) first) := by
    unfold fallStep
    dsimp only
    rw [hpeak]
    refine ⟨List.mem_singleton.mpr rfl, fun y hy => ?_, ?_, hless, fun a b hab => ?_⟩
    · obtain rfl := List.mem_singleton.mp hy
      exact h.refl y
    · refine hkeep.imp (fun hzero => hzero) fun hfall => ⟨first, first, ⟨[], [], rfl, ?_⟩, hfall⟩
      exact List.mem_singleton.mpr rfl
    · obtain ⟨rfl, rfl⟩ := hprecedes a b hab
      exact hlast
  exact hstart.foldl h hsub xs

end Fall
end LobCity.Library
