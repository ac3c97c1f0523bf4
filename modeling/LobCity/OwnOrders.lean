import LobCity.FillAccounting
import LobCity.Weight

/-! What becomes of a participant's resting orders: others only take shares from them, and
the trades say how many; a quote that it places is the only order it has on its side. -/
namespace LobCity
open Library

def Trade.orderId (t : Trade) : Side → OrderId
  | .buy => t.buyOrderId
  | .sell => t.sellOrderId

theorem Trade.OfQuotes.orderId {own : OrderId → Prop} {cur : Side → OrderId} {t : Trade}
    (h : t.OfQuotes own cur) (hown : ∀ s, cur s ≠ 0 → own (cur s)) (s : Side) :
    t.orderId s = cur s ↔ own (t.orderId s) := by
  cases s with
  | buy => exact (h.names hown).1
  | sell => exact (h.names hown).2

def filled (picked : OrderId → Prop) [DecidablePred picked] (s : Side) (log : List Trade) : Nat :=
  (log.map fun t => if picked (t.orderId s) then t.quantity.toNat else 0).sum

section Filled
variable (picked : OrderId → Prop) [DecidablePred picked] {s : Side} {F : List Fill} {taker : OrderId}

theorem filled_append (log new : List Trade) :
    filled picked s (log ++ new) = filled picked s log + filled picked s new := by
  simp [filled]

theorem filled_makers (time : Timestamp) :
    filled picked s (F.map (Fill.trade s taker time)) = taken picked F := by
  induction F with
  | nil => rfl
  | cons f F ih =>
    have hid : (Fill.trade s taker time f).orderId s = f.maker.id := by cases s <;> rfl
    have hq : (Fill.trade s taker time f).quantity = f.quantity := rfl
    simp only [filled, taken, List.map_cons, List.sum_cons, hid, hq] at ih ⊢
    rw [ih]

theorem filled_taker (ht : ¬ picked taker) (time : Timestamp) :
    filled picked s.opposite (F.map (Fill.trade s taker time)) = 0 := by
  induction F with
  | nil => rfl
  | cons f F ih =>
    have hid : (Fill.trade s taker time f).orderId s.opposite = taker := by cases s <;> rfl
    simp only [filled, List.map_cons, List.sum_cons, hid, if_neg ht] at ih ⊢
    rw [ih]

end Filled

namespace Book
variable {b b' b'' : Book} {own : OrderId → Prop} {px : Side → Price} {o : Incoming} {s : Side}
  {new new' : List Trade}

def Priced (own : OrderId → Prop) (px : Side → Price) (b : Book) : Prop :=
  ∀ s, ∀ r ∈ b.side s, own r.id → r.price = px s

theorem Priced.process_own (h : b.Priced own px) (hnone : ∀ r ∈ b.side o.side, ¬ own r.id)
    (time : Timestamp) : (b.process o time).Priced own (Function.update px o.side o.price) := by
  intro t x hx hown
  cases mem_of_process hx with
  | inl hx =>
    obtain ⟨rfl, -, -, rfl⟩ := hx
    exact (Function.update_self (f := px) ..).symm
  | inr hx =>
    obtain ⟨r, hr, hs, -⟩ := hx
    rw [hs.2.1] at hown
    have ht : t ≠ o.side := by
      rintro rfl
      exact hnone r hr hown
    rw [Function.update_of_ne ht, hs.2.2]
    exact h t r hr hown

theorem RestingIds.trades_nonzero (h : b.RestingIds (· ≠ 0)) (h0 : o.id ≠ 0)
    (time : Timestamp) : ∀ t ∈ (b.execution o).fills.map (Fill.trade o.side.opposite o.id time),
      t.buyOrderId ≠ 0 ∧ t.sellOrderId ≠ 0 := by
  intro t ht
  obtain ⟨f, hf, rfl⟩ := List.mem_map.mp ht
  have hne := h _ _ (fillGreedily_reaches hf).1
  cases hs : o.side with
  | buy => exact ⟨h0, hne⟩
  | sell => exact ⟨hne, h0⟩

variable [DecidablePred own]

def openShares (b : Book) (own : OrderId → Prop) [DecidablePred own] (s : Side) : Nat :=
  LobCity.total (shares own) (b.side s)

theorem openShares_eq_zero (h : ∀ r ∈ b.side s, ¬ own r.id) : b.openShares own s = 0 := by
  have hzero : b.openShares own s = LobCity.total (fun _ => 0) (b.side s) :=
    total_congr fun r hr => if_neg (h r hr)
  rw [hzero]
  simp [LobCity.total]

theorem openShares_congr (h : b'.side s = b.side s) : b'.openShares own s = b.openShares own s := by
  rw [openShares, h, openShares]

theorem openShares_matched (b : Book) (o : Incoming) (time : Timestamp) (s : Side) :
    (b.matched o time).openShares own s +
        (if s = o.side.opposite then taken own (b.execution o).fills else 0) =
      b.openShares own s := by
  unfold openShares
  rw [side_matched]
  by_cases hs : s = o.side.opposite
  · rw [if_pos hs, if_pos hs, hs]
    exact (execution_makers own o.reaches _ _).symm
  · rw [if_neg hs, if_neg hs, Nat.add_zero]

theorem openShares_rest (b : Book) (o : Incoming) (s : Side) :
    (b.rest o).openShares own s =
      b.openShares own s + if s = o.side then shares own o.resting else 0 := by
  unfold openShares
  by_cases hs : s = o.side
  · subst hs
    have hside : (b.rest o).side o.side = enqueue o.side o.resting (b.side o.side) :=
      setSide_self b o.side _
    rw [if_pos rfl, hside, LobCity.total, (enqueue_perm.map (shares own)).sum_nat, List.map_cons,
      List.sum_cons]
    exact Nat.add_comm _ _
  · have hside : (b.rest o).side s = b.side s := setSide_of_ne b _ hs
    rw [if_neg hs, hside, Nat.add_zero]

theorem openShares_removed (hd : b.Distinct) {r : Resting} (hr : r ∈ b.side s) (t : Side) :
    ((b.eraseId r.id).drop s r.ref).openShares own t + (if t = s then shares own r else 0) =
      b.openShares own t := by
  unfold openShares
  by_cases ht : t = s
  · subst ht
    have hside : ((b.eraseId r.id).drop t r.ref).side t =
        (b.side t).filter fun x => x.ref ≠ r.ref := setSide_self _ _ _
    rw [if_pos rfl, hside]
    exact total_drop (hd.nodup t) hr
  · have hside : ((b.eraseId r.id).drop s r.ref).side t = b.side t := setSide_of_ne _ _ ht
    rw [if_neg ht, hside, Nat.add_zero]

/-- What a call of the others does to the participant's orders: none is added or moved, and
what they lose the new trades show. -/
structure Trims (own : OrderId → Prop) [DecidablePred own] (new : List Trade) (b b' : Book) :
    Prop where
  kept : ∀ s, ∀ r ∈ b'.side s, own r.id → ∃ r0 ∈ b.side s, r0.id = r.id ∧ r0.price = r.price
  open_add_filled : ∀ s, b'.openShares own s + filled own s new = b.openShares own s

namespace Trims

theorem of_side (h : b'.side = b.side) : Trims own [] b b' := by
  refine ⟨fun s r hr _ => ⟨r, ?_, rfl, rfl⟩, fun s => openShares_congr (congrFun h s)⟩
  rwa [h] at hr

theorem trans (h : Trims own new b b') (h' : Trims own new' b' b'') :
    Trims own (new ++ new') b b'' := by
  refine ⟨fun s r hr hown => ?_, fun s => ?_⟩
  · obtain ⟨r1, hr1, hid1, hpx1⟩ := h'.kept s r hr hown
    obtain ⟨r0, hr0, hid0, hpx0⟩ := h.kept s r1 hr1 (hid1 ▸ hown)
    exact ⟨r0, hr0, hid0.trans hid1, hpx0.trans hpx1⟩
  · rw [filled_append, ← h.open_add_filled s, ← h'.open_add_filled s]
    omega

theorem priced (h : Trims own new b b') (hp : b.Priced own px) : b'.Priced own px := by
  intro s r hr hown
  obtain ⟨r0, hr0, hid, hpx⟩ := h.kept s r hr hown
  rw [← hpx]
  exact hp s r0 hr0 (hid ▸ hown)

theorem rest (h : Trims own new b b') (ho : ¬ own o.id) : Trims own new b (b'.rest o) := by
  refine ⟨fun s r hr hown => ?_, fun s => ?_⟩
  · cases Represents.mem_rest.mp hr with
    | inl h =>
      obtain ⟨-, rfl⟩ := h
      exact absurd hown ho
    | inr hr =>
      exact h.kept s r hr hown
  · have hzero : shares own o.resting = 0 := if_neg ho
    rw [openShares_rest, hzero, ite_self]
    exact h.open_add_filled s

theorem process (b : Book) (ho : ¬ own o.id) (time : Timestamp) :
    Trims own ((b.execution o).fills.map (Fill.trade o.side.opposite o.id time)) b
      (b.process o time) := by
  have hmatched : Trims own ((b.execution o).fills.map (Fill.trade o.side.opposite o.id time)) b
      (b.matched o time) := by
    refine ⟨fun s r hr _ => ?_, fun s => ?_⟩
    · obtain ⟨r0, hr0, hs, -⟩ := mem_of_matched hr
      exact ⟨r0, hr0, hs.2.1.symm, hs.2.2.symm⟩
    · rw [← openShares_matched b o time s]
      congr 1
      by_cases hs : s = o.side.opposite
      · rw [if_pos hs, hs, filled_makers]
      · have hopp : s = o.side.opposite.opposite := by
          cases s <;> cases ho : o.side <;> simp_all [Side.opposite]
        rw [if_neg hs, hopp]
        exact filled_taker own ho time
  cases process_cases b o time with
  | inl hb =>
    rw [hb.2.2]
    exact hmatched.rest ho
  | inr hb =>
    rw [hb.2]
    exact ⟨hmatched.kept, hmatched.open_add_filled⟩

theorem removed (hd : b.Distinct) {r : Resting} (hr : r ∈ b.side s) (ho : ¬ own r.id) :
    Trims own [] b ((b.eraseId r.id).drop s r.ref) := by
  refine ⟨fun t x hx _ => ⟨x, (Represents.mem_drop hx).1, rfl, rfl⟩, fun t => ?_⟩
  have hzero : shares own r = 0 := if_neg ho
  have h : _ + (if t = s then shares own r else 0) = b.openShares own t := openShares_removed hd hr t
  rwa [hzero, ite_self] at h

theorem cancel (hd : b.Distinct) (hi : b.Indexed) {id : OrderId} (ho : ¬ own id) :
    Trims own [] b (b.cancel id) := by
  cases cancel_cases hd hi id with
  | inl hb =>
    rw [hb.2]
    exact of_side rfl
  | inr hcase =>
    obtain ⟨s, r, hr, rfl, -, hb⟩ := hcase
    rw [hb]
    have h : Trims own [] b ((b.eraseId r.id).drop s r.ref) := removed hd hr ho
    exact ⟨h.kept, h.open_add_filled⟩

theorem inPlace (hd : b.Distinct) {r : Resting} (hr : r ∈ b.side s) (ho : ¬ own r.id)
    {newId : OrderId} (hn : ¬ own newId) (newQty : Quantity) :
    Trims own [] b (b.inPlace s r newId newQty) := by
  have hside (t : Side) : (b.inPlace s r newId newQty).side t =
      (b.rewrite s r.ref newId newQty).side t := rfl
  refine ⟨fun t x hx hown => ?_, fun t => ?_⟩
  · rw [hside] at hx
    cases mem_of_rewrite hd hr hx with
    | inl h =>
      obtain ⟨-, rfl⟩ := h
      exact absurd hown hn
    | inr hx =>
      exact ⟨x, hx.1, rfl, rfl⟩
  · unfold openShares
    rw [hside, rewrite]
    by_cases ht : t = s
    · subst ht
      have h := total_rewrite (f := shares own) (hd.nodup t) hr newId newQty
      have hold : shares own r = 0 := if_neg ho
      have hnew : shares own { r with id := newId, quantity := newQty } = 0 := if_neg hn
      rw [hold, hnew] at h
      rw [setSide_self]
      exact h
    · rw [setSide_of_ne _ _ ht]
      rfl

theorem modify (hd : b.Distinct) (hi : b.Indexed) {origId newId : OrderId} (ho : ¬ own origId)
    (hn : ¬ own newId) (newPrice : Price) (newQty : Quantity) :
    Trims own [] b (b.modify origId newId newPrice newQty) := by
  rcases modify_cases hd hi origId newId newPrice newQty with ⟨-, hb⟩ | ⟨s, r, hr, rfl, -, hcase⟩
  · rw [hb]
    exact of_side rfl
  cases hcase with
  | inl hb =>
    rw [hb.2.2]
    exact inPlace hd hr ho hn newQty
  | inr hb =>
    rw [hb.2]
    exact (removed hd hr ho).rest (o := ⟨r.ref, newId, newPrice, newQty, s, false⟩) hn

end Trims

/-- The participant's order adds at most its own shares to its side. -/
theorem openShares_process_le (b : Book) (o : Incoming) (time : Timestamp) (s : Side) :
    (b.process o time).openShares own s ≤
      b.openShares own s + if s = o.side then o.quantity.toNat else 0 := by
  have hmatched : (b.matched o time).openShares own s ≤ b.openShares own s :=
    Nat.le_of_add_right_le (openShares_matched b o time s).le
  cases process_cases b o time with
  | inl hb =>
    rw [hb.2.2, openShares_rest]
    refine Nat.add_le_add hmatched ?_
    split_ifs with hs
    · have hleft := execution_taker o.reaches (b.side o.side.opposite) o.quantity
      refine le_trans (b := (b.execution o).left.toNat) ?_ (Nat.le_of_add_right_le hleft.ge)
      unfold shares
      split_ifs
      · exact Nat.le_refl _
      · exact Nat.zero_le _
    · exact Nat.le_refl 0
  | inr hb =>
    rw [hb.2]
    exact Nat.le_add_right_of_le hmatched

end Book
end LobCity
