import LobCity.Index

/-! Sums over the resting orders, for any weight of an order: how each edit of the book
changes them, and that an execution neither makes nor loses shares. -/
namespace LobCity
open Library

def total (f : Resting → Nat) (L : List Resting) : Nat := (L.map f).sum

def Book.total (b : Book) (f : Resting → Nat) : Nat :=
  LobCity.total f (b.side .buy) + LobCity.total f (b.side .sell)

section Sums
variable {f : Resting → Nat} {L : List Resting} {r : Resting}

theorem total_congr {g : Resting → Nat} (h : ∀ x ∈ L, f x = g x) : total f L = total g L :=
  congrArg List.sum (List.map_congr_left h)

theorem total_drop (hn : (refs L).Nodup) (hr : r ∈ L) :
    total f (L.filter fun x => x.ref ≠ r.ref) + f r = total f L := by
  induction L with
  | nil => simp at hr
  | cons x L ih =>
    obtain ⟨hx, hL⟩ := List.nodup_cons.mp hn
    cases List.mem_cons.mp hr with
    | inl h =>
      obtain rfl := h
      have hrest : L.filter (fun x => x.ref ≠ r.ref) = L :=
        List.filter_eq_self.mpr fun y hy => decide_eq_true fun he =>
          hx (List.mem_map.mpr ⟨y, hy, he⟩)
      rw [List.filter_cons_of_neg (by simp), hrest]
      simp [total, Nat.add_comm]
    | inr hr =>
      have hne : x.ref ≠ r.ref := fun he => hx (List.mem_map.mpr ⟨r, hr, he.symm⟩)
      rw [List.filter_cons_of_pos (by simpa using hne)]
      have ih := ih hL hr
      simp only [total, List.map_cons, List.sum_cons] at ih ⊢
      omega

theorem total_rewrite (hn : (refs L).Nodup) (hr : r ∈ L) (id : OrderId) (q : Quantity) :
    total f (L.map fun x => if x.ref = r.ref then { x with id := id, quantity := q } else x) + f r =
      total f L + f { r with id := id, quantity := q } := by
  induction L with
  | nil => simp at hr
  | cons x L ih =>
    obtain ⟨hx, hL⟩ := List.nodup_cons.mp hn
    cases List.mem_cons.mp hr with
    | inl h =>
      obtain rfl := h
      have hrest : L.map (fun x => if x.ref = r.ref then { x with id := id, quantity := q } else x) =
          L := (List.map_congr_left fun y hy => if_neg fun he =>
            hx (List.mem_map.mpr ⟨y, hy, he⟩)).trans (List.map_id _)
      rw [List.map_cons, if_pos rfl, hrest]
      simp only [total, List.map_cons, List.sum_cons]
      omega
    | inr hr =>
      have hne : x.ref ≠ r.ref := fun he => hx (List.mem_map.mpr ⟨r, hr, he.symm⟩)
      rw [List.map_cons, if_neg hne]
      have ih := ih hL hr
      simp only [total, List.map_cons, List.sum_cons] at ih ⊢
      omega

end Sums

namespace Book
variable {b : Book} {f : Resting → Nat} {s : Side} {r : Resting}

theorem total_setSide (L : List Resting) :
    (b.setSide s L).total f + LobCity.total f (b.side s) = b.total f + LobCity.total f L := by
  unfold Book.total
  cases s
  · rw [setSide_self, setSide_of_ne _ _ (by decide : Side.sell ≠ Side.buy)]
    omega
  · rw [setSide_self, setSide_of_ne _ _ (by decide : Side.buy ≠ Side.sell)]
    omega

theorem total_rest (o : Incoming) : (b.rest o).total f = b.total f + f o.resting := by
  have hs : (b.rest o).total f =
      (b.setSide o.side (enqueue o.side o.resting (b.side o.side))).total f := rfl
  have ht := total_setSide (b := b) (f := f) (s := o.side) (enqueue o.side o.resting (b.side o.side))
  have hp : LobCity.total f (enqueue o.side o.resting (b.side o.side)) =
      f o.resting + LobCity.total f (b.side o.side) := (enqueue_perm.map f).sum_nat
  omega

theorem total_removed (hd : b.Distinct) (hr : r ∈ b.side s) :
    ((b.eraseId r.id).drop s r.ref).total f + f r = b.total f := by
  have hs : ((b.eraseId r.id).drop s r.ref).total f =
      (b.setSide s ((b.side s).filter fun x => x.ref ≠ r.ref)).total f := rfl
  have ht := total_setSide (b := b) (f := f) (s := s) ((b.side s).filter fun x => x.ref ≠ r.ref)
  have hx := total_drop (f := f) (hd.nodup s) hr
  omega

theorem total_inPlace (hd : b.Distinct) (hr : r ∈ b.side s) (id : OrderId) (q : Quantity) :
    (b.inPlace s r id q).total f + f r = b.total f + f { r with id := id, quantity := q } := by
  set L := (b.side s).map fun x => if x.ref = r.ref then { x with id := id, quantity := q } else x
    with hL
  have hs : (b.inPlace s r id q).total f = (b.setSide s L).total f := rfl
  have ht := total_setSide (b := b) (f := f) (s := s) L
  have hx := total_rewrite (f := f) (hd.nodup s) hr id q
  rw [← hL] at hx
  omega

theorem total_matched (o : Incoming) (time : Timestamp) :
    (b.matched o time).total f + LobCity.total f (b.side o.side.opposite) =
      b.total f + LobCity.total f (b.execution o).rest :=
  total_setSide _

end Book

def shares (picked : OrderId → Prop) [DecidablePred picked] (r : Resting) : Nat :=
  if picked r.id then r.quantity.toNat else 0

section Conservation
variable (picked : OrderId → Prop) [DecidablePred picked] (reaches : Price → Bool)

def taken (F : List Fill) : Nat :=
  (F.map fun f => if picked f.maker.id then f.quantity.toNat else 0).sum

/-- What the makers lose is what the fills say. -/
theorem execution_makers (L : List Resting) (q : Quantity) :
    total (shares picked) L = total (shares picked) (fillGreedily reaches L q).rest +
      taken picked (fillGreedily reaches L q).fills := by
  induction L generalizing q with
  | nil => rfl
  | cons r L ih =>
    by_cases hstop : q = 0 ∨ reaches r.price = false
    · rw [fillGreedily_stop hstop]
      simp [taken]
    by_cases hfull : min q r.quantity = r.quantity
    · rw [fillGreedily_full hstop hfull]
      have ih := ih (q - r.quantity)
      simp only [total, taken, List.map_cons, List.sum_cons, shares] at ih ⊢
      omega
    · obtain ⟨-, hlt⟩ := (Quantity.min_cases q r.quantity).resolve_left fun h => hfull h.1
      have hle : q ≤ r.quantity := by grind
      have hsub : (r.quantity - q).toNat + q.toNat = r.quantity.toNat := by
        rw [UInt32.toNat_sub_of_le _ _ hle]
        have : q.toNat ≤ r.quantity.toNat := UInt32.le_iff_toNat_le.mp hle
        omega
      rw [fillGreedily_outlasts hstop hfull]
      simp only [total, taken, List.map_cons, List.sum_cons, shares, List.map_nil, List.sum_nil]
      split <;> omega

/-- What the taker gets is what the fills say. -/
theorem execution_taker (L : List Resting) (q : Quantity) :
    q.toNat = (fillGreedily reaches L q).left.toNat +
      ((fillGreedily reaches L q).fills.map fun f => f.quantity.toNat).sum := by
  induction L generalizing q with
  | nil => rfl
  | cons r L ih =>
    by_cases hstop : q = 0 ∨ reaches r.price = false
    · rw [fillGreedily_stop hstop]
      simp
    by_cases hfull : min q r.quantity = r.quantity
    · obtain ⟨-, hle⟩ := (Quantity.min_cases q r.quantity).resolve_right fun h => by grind
      have hsub : (q - r.quantity).toNat + r.quantity.toNat = q.toNat := by
        rw [UInt32.toNat_sub_of_le _ _ hle]
        have : r.quantity.toNat ≤ q.toNat := UInt32.le_iff_toNat_le.mp hle
        omega
      rw [fillGreedily_full hstop hfull]
      have ih := ih (q - r.quantity)
      simp only [List.map_cons, List.sum_cons]
      omega
    · rw [fillGreedily_outlasts hstop hfull]
      simp

end Conservation
end LobCity
