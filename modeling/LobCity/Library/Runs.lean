import Mathlib.Data.Option.Basic
import Mathlib.Data.List.Basic

/-! Finite runs of a partial step function, and the induction rules used on them: what is
checked on one step holds after every run. -/
namespace LobCity.Library
variable {σ τ ι : Type*}

def run (step : σ → ι → Option σ) : σ → List ι → Option σ
  | s, [] => some s
  | s, i :: is => (step s i).bind fun s' => run step s' is

/-- Every step of the run is taken in a state that allows it. -/
def Along (step : σ → ι → Option σ) (ok : σ → ι → Prop) : σ → List ι → Prop
  | _, [] => True
  | s, i :: is => ok s i ∧ ∀ s', step s i = some s' → Along step ok s' is

instance decidableAlong (step : σ → ι → Option σ) (ok : σ → ι → Prop)
    [∀ s i, Decidable (ok s i)] : ∀ s is, Decidable (Along step ok s is)
  | _, [] => isTrue trivial
  | s, i :: is =>
    match h : step s i with
    | none => decidable_of_iff (ok s i) (by simp [Along, h])
    | some s' =>
      have := decidableAlong step ok s' is
      decidable_of_iff (ok s i ∧ Along step ok s' is) (by simp [Along, h])

variable {step : σ → ι → Option σ} {ok ok' : σ → ι → Prop}

theorem run_append (s : σ) (is js : List ι) :
    run step s (is ++ js) = (run step s is).bind fun s' => run step s' js := by
  induction is generalizing s with
  | nil => rfl
  | cons i is ih =>
    simp only [List.cons_append, run, Option.bind_assoc]
    exact congrArg _ (funext ih)

theorem along_append {s : σ} {is js : List ι} :
    Along step ok s (is ++ js) ↔
      Along step ok s is ∧ ∀ t, run step s is = some t → Along step ok t js := by
  induction is generalizing s with
  | nil => exact ⟨fun h => ⟨trivial, fun t ht => Option.some.inj ht ▸ h⟩, fun h => h.2 s rfl⟩
  | cons i is ih =>
    constructor
    · rintro ⟨hi, hrest⟩
      refine ⟨⟨hi, fun s' hs => (ih.mp (hrest s' hs)).1⟩, fun t ht => ?_⟩
      obtain ⟨s', hs, hrun⟩ := Option.bind_eq_some_iff.mp ht
      exact (ih.mp (hrest s' hs)).2 t hrun
    · rintro ⟨⟨hi, hrest⟩, hjs⟩
      refine ⟨hi, fun s' hs => ih.mpr ⟨hrest s' hs, fun t ht => hjs t ?_⟩⟩
      simpa [run, hs] using ht

theorem Along.mono {s : σ} {is : List ι} (h : Along step ok s is)
    (himp : ∀ s i, ok s i → ok' s i) : Along step ok' s is := by
  induction is generalizing s with
  | nil => trivial
  | cons i is ih => exact ⟨himp s i h.1, fun s' hs => ih (h.2 s' hs)⟩

theorem Along.and {s : σ} {is : List ι} (h : Along step ok s is) (h' : Along step ok' s is) :
    Along step (fun s i => ok s i ∧ ok' s i) s is := by
  induction is generalizing s with
  | nil => trivial
  | cons i is ih => exact ⟨⟨h.1, h'.1⟩, fun s' hs => ih (h.2 s' hs) (h'.2 s' hs)⟩

theorem along_of_forall {p : ι → Prop} {s : σ} {is : List ι} (h : ∀ i ∈ is, p i) :
    Along step (fun _ i => p i) s is := by
  induction is generalizing s with
  | nil => trivial
  | cons i is ih => exact ⟨h i (by simp), fun _ _ => ih fun j hj => h j (by simp [hj])⟩

/-- What holds at the start and is kept by every allowed step holds at the end,
and the run does reach its end. -/
theorem run_invariant {Inv : σ → Prop}
    (hstep : ∀ s i, Inv s → ok s i → ∃ s', step s i = some s' ∧ Inv s')
    {s : σ} {is : List ι} (hs : Inv s) (hok : Along step ok s is) :
    ∃ s', run step s is = some s' ∧ Inv s' := by
  induction is generalizing s with
  | nil => exact ⟨s, rfl, hs⟩
  | cons i is ih =>
    obtain ⟨s1, h1, hs1⟩ := hstep s i hs hok.1
    obtain ⟨s2, h2, hs2⟩ := ih hs1 (hok.2 s1 h1)
    exact ⟨s2, by simp [run, h1, h2], hs2⟩

/-- Two runs whose steps keep a relation between the states, one step for one. -/
theorem run_related {κ : Type*} {step' : τ → κ → Option τ} {R : σ → τ → Prop} {f : ι → κ}
    (hstep : ∀ s t i, R s t → ok s i → ∃ s' t', step s i = some s' ∧ step' t (f i) = some t' ∧ R s' t')
    {s : σ} {t : τ} {is : List ι} (h : R s t) (hok : Along step ok s is) :
    ∃ s' t', run step s is = some s' ∧ run step' t (is.map f) = some t' ∧ R s' t' := by
  induction is generalizing s t with
  | nil => exact ⟨s, t, rfl, rfl, h⟩
  | cons i is ih =>
    obtain ⟨s1, t1, hs, ht, h1⟩ := hstep s t i h hok.1
    obtain ⟨s2, t2, hs2, ht2, h2⟩ := ih h1 (hok.2 s1 hs)
    exact ⟨s2, t2, by simp [run, hs, hs2], by simp [run, ht, ht2], h2⟩

/-- What an invariant and the condition of a step give for the step, they give all along. -/
theorem along_of_invariant {Inv : σ → Prop}
    (hstep : ∀ s i, Inv s → ok s i → ok' s i ∧ ∀ s', step s i = some s' → Inv s')
    {s : σ} {is : List ι} (hs : Inv s) (hok : Along step ok s is) : Along step ok' s is := by
  induction is generalizing s with
  | nil => trivial
  | cons i is ih =>
    obtain ⟨hi, hnext⟩ := hstep s i hs hok.1
    exact ⟨hi, fun s' h => ih (hnext s' h) (hok.2 s' h)⟩

/-- A run whose steps do what they should if its end is one of those in `Q`, which only
states in `Q` lead to. -/
theorem along_of_end {Inv Q : σ → Prop}
    (hstep : ∀ s i, Inv s → ok s i → ∃ s', step s i = some s' ∧ Inv s' ∧ (Q s' → Q s ∧ ok' s i))
    {s : σ} {is : List ι} (hs : Inv s) (hok : Along step ok s is) :
    ∃ t, run step s is = some t ∧ Inv t ∧ (Q t → Q s ∧ Along step ok' s is) := by
  induction is generalizing s with
  | nil => exact ⟨s, rfl, hs, fun hq => ⟨hq, trivial⟩⟩
  | cons i is ih =>
    obtain ⟨s1, h1, hs1, hback⟩ := hstep s i hs hok.1
    obtain ⟨t, ht, hinv, hend⟩ := ih hs1 (hok.2 s1 h1)
    refine ⟨t, by simp [run, h1, ht], hinv, fun hq => ?_⟩
    obtain ⟨hq1, hrest⟩ := hend hq
    obtain ⟨hq0, hi⟩ := hback hq1
    refine ⟨hq0, hi, fun s' hs' => ?_⟩
    obtain rfl := Option.some.inj (h1.symm.trans hs')
    exact hrest

/-- A run that gets through keeps what every step that is allowed and gets through keeps. -/
theorem run_kept_along {Inv : σ → Prop}
    (hstep : ∀ s i s', Inv s → ok s i → step s i = some s' → Inv s')
    {s s' : σ} {is : List ι} (hs : Inv s) (hok : Along step ok s is)
    (hrun : run step s is = some s') : Inv s' := by
  induction is generalizing s with
  | nil =>
    cases hrun
    exact hs
  | cons i is ih =>
    obtain ⟨s1, h1, hrest⟩ := Option.bind_eq_some_iff.mp hrun
    exact ih (hstep s i s1 hs hok.1 h1) (hok.2 s1 h1) hrest

/-- What no step raises by more than its charge, no run raises by more than all charges. -/
theorem run_charged {Inv : σ → Prop} {measure : σ → Nat} {charged : ι → Bool}
    (hstep : ∀ s i s', Inv s → ok s i → step s i = some s' →
      Inv s' ∧ measure s' ≤ measure s + if charged i then 1 else 0)
    {s s' : σ} {is : List ι} (hs : Inv s) (hok : Along step ok s is)
    (hrun : run step s is = some s') : measure s' ≤ measure s + is.countP charged := by
  induction is generalizing s with
  | nil =>
    cases hrun
    exact Nat.le_refl _
  | cons i is ih =>
    obtain ⟨s1, h1, hrest⟩ := Option.bind_eq_some_iff.mp hrun
    obtain ⟨hs1, hle⟩ := hstep s i s1 hs hok.1 h1
    have hlater := ih hs1 (hok.2 s1 h1) hrest
    rw [List.countP_cons]
    omega

theorem run_kept {Inv : σ → Prop} (hstep : ∀ s i s', Inv s → step s i = some s' → Inv s')
    {s s' : σ} {is : List ι} (hs : Inv s) (hrun : run step s is = some s') : Inv s' :=
  run_kept_along (fun s i s' h _ => hstep s i s' h) hs (along_of_forall fun _ _ => trivial) hrun

/-- Where each step decides by itself whether the property survives it, the property
holds all along a run exactly when every step is a good one. -/
theorem forall_prefix_iff {Inv P : σ → Prop} {good : σ → ι → Prop}
    (hstep : ∀ s i, Inv s → ok s i → P s → ∃ s', step s i = some s' ∧ Inv s' ∧ (P s' ↔ good s i))
    {s : σ} {is : List ι} (hs : Inv s) (hP : P s) (hok : Along step ok s is) :
    (∀ n s', run step s (is.take n) = some s' → P s') ↔ Along step good s is := by
  induction is generalizing s with
  | nil =>
    refine ⟨fun _ => trivial, fun _ n s' hr => ?_⟩
    rw [List.take_nil] at hr
    obtain rfl := Option.some.inj hr
    exact hP
  | cons i is ih =>
    obtain ⟨s1, h1, hs1, hgood⟩ := hstep s i hs hok.1 hP
    constructor
    · intro hall
      have hP1 : P s1 := hall 1 s1 (by simp [run, h1])
      refine ⟨hgood.mp hP1, fun s2 h2 => ?_⟩
      obtain rfl := Option.some.inj (h1.symm.trans h2)
      refine (ih hs1 hP1 (hok.2 s1 h1)).mp fun n s' hr => hall (n + 1) s' ?_
      simpa [run, h1] using hr
    · rintro ⟨hg, hrest⟩ n s' hr
      have hP1 := hgood.mpr hg
      cases n with
      | zero =>
        obtain rfl := Option.some.inj hr
        exact hP
      | succ n =>
        refine (ih hs1 hP1 (hok.2 s1 h1)).mpr (hrest s1 h1) n s' ?_
        simpa [run, h1] using hr

end LobCity.Library
