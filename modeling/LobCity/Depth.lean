import LobCity.Weight
import Mathlib.Data.List.TakeWhile

/-! How far an order cuts into the side it meets, read off the book before the call: it
uses up a front stretch of the orders that it reaches. -/
namespace LobCity
open Library

def depth (L : List Resting) : Nat := total (fun r => r.quantity.toNat) L

/-- `q` shares use up all of `L`: they go all the way, and to get to the last order, which
may want nothing itself, some must be left. -/
def UsesUp (q : Quantity) (L : List Resting) : Prop :=
  depth L ≤ q.toNat ∧ (L = [] ∨ depth L.dropLast < q.toNat)

instance (q : Quantity) : DecidablePred (UsesUp q) := fun _ => inferInstanceAs (Decidable (_ ∧ _))

section Cut
variable {reaches : Price → Bool} {q : Quantity} {r : Resting} {A B : List Resting}

theorem depth_nil : depth [] = 0 := rfl

theorem depth_cons (r : Resting) (L : List Resting) :
    depth (r :: L) = r.quantity.toNat + depth L := List.sum_cons

theorem volume_cons (r : Resting) (L : List Resting) :
    volume (r :: L) = r.quantity + volume L := List.sum_cons

theorem depth_dropLast_le (L : List Resting) : depth L.dropLast ≤ depth L := by
  induction L with
  | nil => exact Nat.le_refl 0
  | cons r L ih =>
    cases L with
    | nil => simp [depth_nil]
    | cons x L =>
      rw [List.dropLast_cons_cons, depth_cons, depth_cons]
      exact Nat.add_le_add_left ih _

theorem usesUp_nil (q : Quantity) : UsesUp q [] := ⟨Nat.zero_le _, Or.inl rfl⟩

theorem usesUp_of_lt (h : depth A < q.toNat) : UsesUp q A :=
  ⟨Nat.le_of_lt h, Or.inr (Nat.lt_of_le_of_lt (depth_dropLast_le A) h)⟩

theorem toNat_sub (h : r.quantity.toNat ≤ q.toNat) :
    (q - r.quantity).toNat = q.toNat - r.quantity.toNat :=
  UInt32.toNat_sub_of_le _ _ (UInt32.le_iff_toNat_le.mpr h)

theorem usesUp_cons : UsesUp q (r :: A) ↔
    q ≠ 0 ∧ r.quantity.toNat ≤ q.toNat ∧ UsesUp (q - r.quantity) A := by
  have hzero : q ≠ 0 ↔ q.toNat ≠ 0 := not_congr UInt32.toNat_inj.symm
  rw [hzero]
  cases A with
  | nil =>
    simp only [UsesUp, depth_cons, depth_nil, List.dropLast_singleton]
    simp
    omega
  | cons x A =>
    simp only [UsesUp, depth_cons, List.dropLast_cons_cons, reduceCtorEq, false_or]
    constructor
    · rintro ⟨htotal, hlast⟩
      have hr : r.quantity.toNat ≤ q.toNat := by omega
      rw [toNat_sub hr]
      omega
    · rintro ⟨-, hr, htotal, hlast⟩
      rw [toNat_sub hr] at htotal hlast
      omega

/-- Past a stretch that is used up, the matching goes on with what is left. -/
theorem fillGreedily_past (hA : ∀ r ∈ A, reaches r.price = true) (hu : UsesUp q A) :
    (fillGreedily reaches (A ++ B) q).rest = (fillGreedily reaches B (q - volume A)).rest ∧
      (fillGreedily reaches (A ++ B) q).left = (fillGreedily reaches B (q - volume A)).left ∧
      (q - volume A).toNat = q.toNat - depth A := by
  induction A generalizing q with
  | nil => simp [volume, depth_nil]
  | cons r A ih =>
    obtain ⟨hq, hr, hu⟩ := usesUp_cons.mp hu
    have hstop : ¬ (q = 0 ∨ reaches r.price = false) := by simp [hq, hA r]
    have hle : r.quantity ≤ q := UInt32.le_iff_toNat_le.mpr hr
    have hfull : min q r.quantity = r.quantity := by
      cases Quantity.min_cases q r.quantity with
      | inl h => exact h.1
      | inr h => exact absurd h.2 (UInt32.not_lt.mpr hle)
    obtain ⟨hrest, hleft, hnat⟩ := ih (fun x hx => hA x (by simp [hx])) hu
    have hvolume : q - volume (r :: A) = q - r.quantity - volume A := by
      rw [volume_cons]
      grind
    rw [List.cons_append, fillGreedily_full hstop hfull, hvolume, depth_cons]
    refine ⟨hrest, hleft, ?_⟩
    rw [hnat, toNat_sub hr]
    omega

/-- Where a stretch is reached and not used up, the matching ends in it. -/
theorem fillGreedily_within (hA : ∀ r ∈ A, reaches r.price = true) (hq : q ≠ 0)
    (hu : ¬ UsesUp q A) :
    (fillGreedily reaches (A ++ B) q).left = 0 ∧
      ∃ A', A' ≠ [] ∧ (fillGreedily reaches (A ++ B) q).rest = A' ++ B ∧
        volume A' = volume A - q ∧ ∀ r' ∈ A', ∃ r ∈ A, r'.price = r.price := by
  induction A generalizing q with
  | nil => exact absurd (usesUp_nil q) hu
  | cons r A ih =>
    have hstop : ¬ (q = 0 ∨ reaches r.price = false) := by simp [hq, hA r]
    rw [List.cons_append]
    by_cases hfull : min q r.quantity = r.quantity
    · obtain ⟨-, hle⟩ := (Quantity.min_cases q r.quantity).resolve_right fun h => by grind
      have hr : r.quantity.toNat ≤ q.toNat := UInt32.le_iff_toNat_le.mp hle
      have hu' : ¬ UsesUp (q - r.quantity) A := fun h => hu (usesUp_cons.mpr ⟨hq, hr, h⟩)
      have hA' : ∀ x ∈ A, reaches x.price = true := fun x hx => hA x (by simp [hx])
      rw [fillGreedily_full hstop hfull]
      by_cases hq' : q - r.quantity = 0
      · -- the taker is done exactly with this order
        have hne : A ≠ [] := by
          rintro rfl
          exact hu' (usesUp_nil _)
        obtain ⟨x, A, rfl⟩ := List.exists_cons_of_ne_nil hne
        rw [hq', List.cons_append, fillGreedily_stop (Or.inl rfl)]
        refine ⟨rfl, x :: A, by simp, rfl, ?_, fun y hy => ⟨y, by simp [hy], rfl⟩⟩
        rw [volume_cons r]
        grind
      · obtain ⟨hleft, A', hne, hrest, hvolume, hprice⟩ := ih hA' hq' hu'
        refine ⟨hleft, A', hne, hrest, ?_, fun y hy => ?_⟩
        · rw [hvolume, volume_cons]
          grind
        · obtain ⟨z, hz, hp⟩ := hprice y hy
          exact ⟨z, by simp [hz], hp⟩
    · rw [fillGreedily_outlasts hstop hfull]
      refine ⟨rfl, { r with quantity := r.quantity - q } :: A, by simp, rfl, ?_, ?_⟩
      · rw [volume_cons, volume_cons]
        grind
      · intro y hy
        cases List.mem_cons.mp hy with
        | inl hy => exact ⟨r, by simp, by rw [hy]⟩
        | inr hy => exact ⟨y, by simp [hy], rfl⟩

theorem fillGreedily_zero (L : List Resting) :
    fillGreedily reaches L 0 = ⟨[], L, 0⟩ := by
  cases L with
  | nil => rfl
  | cons r L => exact fillGreedily_stop (Or.inl rfl)

end Cut

namespace Book
variable {b : Book} {o : Incoming}

def reached (b : Book) (o : Incoming) : List Resting :=
  (b.side o.side.opposite).takeWhile fun r => o.reaches r.price

def beyond (b : Book) (o : Incoming) : List Resting :=
  (b.side o.side.opposite).dropWhile fun r => o.reaches r.price

theorem reached_append_beyond (b : Book) (o : Incoming) :
    b.reached o ++ b.beyond o = b.side o.side.opposite := List.takeWhile_append_dropWhile

theorem reaches_of_mem_reached {r : Resting} (h : r ∈ b.reached o) : o.reaches r.price = true := by
  have h : r ∈ (b.side o.side.opposite).takeWhile fun r => o.reaches r.price := h
  simpa using List.mem_takeWhile_imp h

theorem fillGreedily_beyond (b : Book) (o : Incoming) (q : Quantity) :
    fillGreedily o.reaches (b.beyond o) q = ⟨[], b.beyond o, q⟩ := by
  cases hb : b.beyond o with
  | nil => rfl
  | cons r L =>
    have hhead : o.reaches r.price = false := by
      have h := List.head?_dropWhile_not (fun r : Resting => o.reaches r.price)
        (b.side o.side.opposite)
      have hb : (b.side o.side.opposite).dropWhile (fun r => o.reaches r.price) = r :: L := hb
      rw [hb] at h
      simpa using h
    exact fillGreedily_stop (Or.inr hhead)

/-- An order that gets all it reaches and wants more leaves what lies beyond. -/
theorem execution_through (h : UsesUp o.quantity (b.reached o)) :
    (b.execution o).rest = b.beyond o ∧
      (b.execution o).left.toNat = o.quantity.toNat - depth (b.reached o) := by
  obtain ⟨hrest, hleft, hnat⟩ :=
    fillGreedily_past (B := b.beyond o) (fun r hr => reaches_of_mem_reached hr) h
  rw [reached_append_beyond, fillGreedily_beyond] at hrest hleft
  refine ⟨hrest, ?_⟩
  rw [← hnat]
  exact congrArg UInt32.toNat hleft

theorem left_pos_iff :
    0 < (b.execution o).left ↔ depth (b.reached o) < o.quantity.toNat := by
  have hpos : 0 < (b.execution o).left ↔ 0 < (b.execution o).left.toNat :=
    UInt32.lt_iff_toNat_lt
  rw [hpos]
  by_cases hu : UsesUp o.quantity (b.reached o)
  · rw [(execution_through hu).2]
    omega
  · have hge : ¬ depth (b.reached o) < o.quantity.toNat := fun h => hu (usesUp_of_lt h)
    have hleft : (b.execution o).left = 0 := by
      by_cases hq : o.quantity = 0
      · rw [execution, hq, fillGreedily_zero]
      · have h := fillGreedily_within (B := b.beyond o) (fun r hr => reaches_of_mem_reached hr) hq hu
        rw [reached_append_beyond] at h
        exact h.1
    rw [hleft]
    simpa using hge

end Book
end LobCity
