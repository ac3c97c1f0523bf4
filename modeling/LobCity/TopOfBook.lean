import LobCity.Depth

/-! The top of a side, its best price and the shares wanted there, and how the calls change
it, read off the book before the call. -/
namespace LobCity
open Library

/-- An empty side has best price 0. -/
def bestPrice (L : List Resting) : Price := (L.head?.map Resting.price).getD 0

def bestQueue (L : List Resting) : List Resting := L.filter fun r => r.price = bestPrice L

def volumeAt (p : Price) (L : List Resting) : Quantity := volume (L.filter fun r => r.price = p)

def bestVolume (L : List Resting) : Quantity := volume (bestQueue L)

section Top
variable {s : Side} {L : List Resting} {r : Resting} {p : Price}

theorem bestVolume_eq (L : List Resting) : bestVolume L = volumeAt (bestPrice L) L := rfl

theorem mem_bestQueue : r ∈ bestQueue L ↔ r ∈ L ∧ r.price = bestPrice L := by
  simp [bestQueue]

/-- The best price of a side that is not empty is met by an order, and by no better one. -/
theorem bestPrice_eq_iff (hs : Book.Sorted s L) (hne : L ≠ []) :
    bestPrice L = p ↔ (∃ x ∈ L, x.price = p) ∧ ∀ x ∈ L, ¬ s.better x.price p := by
  obtain ⟨r, L, rfl⟩ := List.exists_cons_of_ne_nil hne
  have hhead := (List.pairwise_cons.mp hs).1
  constructor
  · rintro rfl
    refine ⟨⟨r, by simp, rfl⟩, fun x hx => ?_⟩
    cases List.mem_cons.mp hx with
    | inl hx =>
      rw [hx]
      exact Std.Irrefl.irrefl r.price
    | inr hx => exact hhead x hx
  · rintro ⟨⟨x, hx, rfl⟩, hbest⟩
    cases List.mem_cons.mp hx with
    | inl hx => rw [hx]; rfl
    | inr hx =>
      have hr : ¬ s.better r.price x.price := hbest r (by simp)
      have hx : ¬ s.better x.price r.price := hhead x hx
      show r.price = x.price
      cases s <;> simp only [Side.better] at hr hx <;> grind

theorem bestQueue_split (hs : Book.Sorted s L) :
    ∃ T, L = bestQueue L ++ T ∧ ∀ x ∈ T, x.price ≠ bestPrice L := by
  by_cases hne : L = []
  · subst hne
    exact ⟨[], rfl, by simp⟩
  · have hbest := ((bestPrice_eq_iff hs hne).mp rfl).2
    have hworse : ∀ x ∈ L, x.price = bestPrice L ∨ s.better (bestPrice L) x.price := by
      intro x hx
      have hx := hbest x hx
      cases s <;> simp only [Side.better] at hx ⊢ <;> grind
    refine ⟨L.filter fun x => x.price ≠ bestPrice L, Book.sorted_split hs hworse, fun x hx => ?_⟩
    exact of_decide_eq_true (List.mem_filter.mp hx).2

theorem bestQueue_ne_nil (hne : L ≠ []) : bestQueue L ≠ [] := by
  obtain ⟨r, L, rfl⟩ := List.exists_cons_of_ne_nil hne
  exact List.ne_nil_of_mem (mem_bestQueue.mpr ⟨List.mem_cons_self, rfl⟩)

theorem volumeAt_cons (p : Price) (r : Resting) (L : List Resting) :
    volumeAt p (r :: L) = (if r.price = p then r.quantity else 0) + volumeAt p L := by
  unfold volumeAt
  by_cases hr : r.price = p
  · rw [List.filter_cons_of_pos (by simpa using hr), volume_cons, if_pos hr]
  · rw [List.filter_cons_of_neg (by simpa using hr), if_neg hr, UInt32.zero_add]

theorem volumeAt_eq (p : Price) (L : List Resting) :
    volumeAt p L = UInt32.ofNat (total (fun x => if x.price = p then x.quantity.toNat else 0) L) := by
  induction L with
  | nil => rfl
  | cons r L ih =>
    have hcons : total (fun x : Resting => if x.price = p then x.quantity.toNat else 0) (r :: L) =
        (if r.price = p then r.quantity.toNat else 0) +
          total (fun x => if x.price = p then x.quantity.toNat else 0) L := List.sum_cons
    rw [hcons, UInt32.ofNat_add, ← ih, volumeAt_cons]
    split_ifs
    · rw [UInt32.ofNat_toNat]
    · rfl

theorem bestPrice_enqueue (s : Side) (r : Resting) (L : List Resting) :
    bestPrice (Book.enqueue s r L) =
      if L = [] ∨ s.better r.price (bestPrice L) then r.price else bestPrice L := by
  cases L with
  | nil => rfl
  | cons x L =>
    have hx : bestPrice (x :: L) = x.price := rfl
    rw [Book.enqueue_cons, hx]
    by_cases hb : s.better r.price x.price
    · rw [if_pos hb, if_pos (Or.inr hb)]
      rfl
    · rw [if_neg hb, if_neg (by simpa using hb)]
      rfl

theorem volumeAt_perm {L' : List Resting} (h : L.Perm L') (p : Price) :
    volumeAt p L = volumeAt p L' := by
  rw [volumeAt_eq, volumeAt_eq]
  exact congrArg UInt32.ofNat (h.map _).sum_nat

theorem volumeAt_enqueue (s : Side) (r : Resting) (L : List Resting) (p : Price) :
    volumeAt p (Book.enqueue s r L) = (if r.price = p then r.quantity else 0) + volumeAt p L := by
  rw [volumeAt_perm Book.enqueue_perm, volumeAt_cons]

end Top

namespace Book
variable {b : Book} {s : Side} {r : Resting} {o : Incoming}

def TakesBest (b : Book) (o : Incoming) : Prop :=
  b.reached o ≠ [] ∧ UsesUp o.quantity (bestQueue (b.side o.side.opposite))

def TakesAll (b : Book) (o : Incoming) : Prop :=
  b.beyond o = [] ∧ UsesUp o.quantity (b.reached o)

def Remains (b : Book) (o : Incoming) : Prop :=
  o.isMarket = false ∧ depth (b.reached o) < o.quantity.toNat

/-- The order changes a best price: that of the side it meets, unless this is 0 like that of
an empty side, or that of its own side. -/
def MovesBest (b : Book) (o : Incoming) : Prop :=
  (b.TakesBest o ∧ ¬ (bestPrice (b.side o.side.opposite) = 0 ∧ b.TakesAll o)) ∨
    (b.Remains o ∧ o.price ≠ bestPrice (b.side o.side) ∧
      (b.side o.side = [] ∨ o.side.better o.price (bestPrice (b.side o.side))))

/-- An order that changes no best price changes the shares at one: it takes some, or adds
its own. -/
def ResizesBest (b : Book) (o : Incoming) : Prop :=
  (b.reached o ≠ [] ∧ o.quantity ≠ 0 ∧
      (b.TakesBest o → bestVolume (b.side o.side.opposite) ≠ 0)) ∨
    (b.Remains o ∧ o.price = bestPrice (b.side o.side))

def ReplaceMoves (b : Book) (s : Side) (r : Resting) (newPrice : Price) : Prop :=
  let best := bestPrice (b.side s)
  s.better newPrice best ∨ (newPrice ≠ best ∧ ∀ x ∈ b.side s, x.price = best → x.ref = r.ref)

def ReplaceResizes (b : Book) (s : Side) (r : Resting) (newPrice : Price) (newQty : Quantity) :
    Prop :=
  let best := bestPrice (b.side s)
  (if r.price = best then r.quantity else 0) ≠ if newPrice = best then newQty else 0

def CancelMoves (b : Book) (s : Side) (r : Resting) : Prop :=
  let best := bestPrice (b.side s)
  (∀ x ∈ b.side s, x.price = best → x.ref = r.ref) ∧
    ¬ (best = 0 ∧ ∀ x ∈ b.side s, x.ref = r.ref)

theorem side_process (b : Book) (o : Incoming) (time : Timestamp) :
    (b.process o time).side o.side.opposite = (b.execution o).rest ∧
      ((b.Remains o ∧ 0 < (b.execution o).left ∧ (b.process o time).side o.side =
          enqueue o.side ⟨o.ref, o.id, o.price, (b.execution o).left⟩ (b.side o.side)) ∨
        (¬ b.Remains o ∧ (b.process o time).side o.side = b.side o.side)) := by
  have hopp : (b.matched o time).side o.side.opposite = (b.execution o).rest := by
    rw [side_matched, if_pos rfl]
  have hown : (b.matched o time).side o.side = b.side o.side := by
    rw [side_matched, if_neg (side_opposite_ne o.side)]
  cases process_cases b o time with
  | inl h =>
    obtain ⟨hm, hleft, hb⟩ := h
    rw [hb]
    refine ⟨?_, Or.inl ⟨⟨hm, left_pos_iff.mp hleft⟩, hleft, ?_⟩⟩
    · exact (setSide_of_ne _ _ (side_opposite_ne o.side).symm).trans hopp
    · rw [← hown]
      exact setSide_self _ _ _
  | inr h =>
    obtain ⟨hdone, hb⟩ := h
    rw [hb]
    refine ⟨hopp, Or.inr ⟨?_, hown⟩⟩
    rintro ⟨hm, hdepth⟩
    have hleft := left_pos_iff.mpr hdepth
    cases hdone with
    | inl h => simp [hm] at h
    | inr h =>
      rw [h] at hleft
      exact absurd hleft (by decide)

/-- The best queue of the side an order meets is reached if anything is. -/
theorem reaches_bestQueue (h : b.reached o ≠ []) {x : Resting}
    (hx : x ∈ bestQueue (b.side o.side.opposite)) : o.reaches x.price = true := by
  obtain ⟨y, Y, hy⟩ := List.exists_cons_of_ne_nil h
  have hreach : o.reaches y.price = true := reaches_of_mem_reached (hy ▸ List.mem_cons_self)
  have hsplit := b.reached_append_beyond o
  rw [hy, List.cons_append] at hsplit
  have hbest : bestPrice (b.side o.side.opposite) = y.price := by
    rw [← hsplit]
    rfl
  rw [(mem_bestQueue.mp hx).2, hbest]
  exact hreach

theorem rest_eq_nil_iff : (b.execution o).rest = [] ↔ b.TakesAll o := by
  by_cases hu : UsesUp o.quantity (b.reached o)
  · rw [(execution_through hu).1]
    exact ⟨fun h => ⟨h, hu⟩, fun h => h.1⟩
  · refine iff_of_false (fun h => ?_) fun h => hu h.2
    have hreached : b.reached o ≠ [] := by
      intro hnil
      rw [hnil] at hu
      exact hu (usesUp_nil _)
    rw [execution, ← reached_append_beyond] at h
    by_cases hq : o.quantity = 0
    · rw [hq, fillGreedily_zero] at h
      exact hreached (List.append_eq_nil_iff.mp h).1
    · obtain ⟨-, A', hne, hrest, -⟩ := fillGreedily_within (B := b.beyond o)
        (fun r hr => reaches_of_mem_reached hr) hq hu
      rw [hrest] at h
      exact hne (List.append_eq_nil_iff.mp h).1

/-- What an order does to the top of the side it meets: nothing, or it takes a part of the
best queue, or all of it, and then the best price changes. -/
theorem top_execution (hs : Sorted o.side.opposite (b.side o.side.opposite)) :
    let L := b.side o.side.opposite
    let rest := (b.execution o).rest
    ((b.reached o = [] ∨ o.quantity = 0) ∧ ¬ b.TakesBest o ∧ rest = L) ∨
    (b.reached o ≠ [] ∧ o.quantity ≠ 0 ∧ ¬ b.TakesBest o ∧
      bestPrice rest = bestPrice L ∧ bestVolume rest = bestVolume L - o.quantity) ∨
    (b.reached o ≠ [] ∧ o.quantity ≠ 0 ∧ b.TakesBest o ∧
      (rest = [] ∨ bestPrice rest ≠ bestPrice L)) := by
  intro L rest
  by_cases hreached : b.reached o = []
  · refine Or.inl ⟨Or.inl hreached, fun h => h.1 hreached, ?_⟩
    have hbeyond : b.beyond o = L := by
      have h := b.reached_append_beyond o
      rwa [hreached] at h
    show (fillGreedily o.reaches L o.quantity).rest = L
    rw [← hbeyond, fillGreedily_beyond]
  obtain ⟨T, hT, hworse⟩ := bestQueue_split hs
  have hreach : ∀ x ∈ bestQueue L, o.reaches x.price = true :=
    fun x hx => reaches_bestQueue hreached hx
  have hrest : rest = (fillGreedily o.reaches (bestQueue L ++ T) o.quantity).rest := by
    rw [← hT]
    rfl
  by_cases hq : o.quantity = 0
  · have hL : L ≠ [] := fun hnil => by
      have h := b.reached_append_beyond o
      exact hreached (List.append_eq_nil_iff.mp (h.trans hnil)).1
    refine Or.inl ⟨Or.inr hq, fun h => ?_, ?_⟩
    · have hlast := h.2.2.resolve_left (bestQueue_ne_nil hL)
      rw [hq] at hlast
      exact Nat.not_lt_zero _ hlast
    · rw [hrest, hq, fillGreedily_zero, ← hT]
  by_cases hu : UsesUp o.quantity (bestQueue L)
  · refine Or.inr (Or.inr ⟨hreached, hq, ⟨hreached, hu⟩, ?_⟩)
    by_cases hnil : rest = []
    · exact Or.inl hnil
    · refine Or.inr ?_
      obtain ⟨y, Y, hy⟩ := List.exists_cons_of_ne_nil hnil
      have hmem : y ∈ (fillGreedily o.reaches T (o.quantity - volume (bestQueue L))).rest := by
        rw [← (fillGreedily_past hreach hu).1, ← hrest, hy]
        exact List.mem_cons_self
      obtain ⟨z, hz, hsame, -⟩ := survivor_of_rest hmem
      have hbest : bestPrice rest = y.price := by
        rw [hy]
        rfl
      rw [hbest, hsame.2.2]
      exact hworse z hz
  · refine Or.inr (Or.inl ⟨hreached, hq, fun h => hu h.2, ?_⟩)
    obtain ⟨-, A', hne, hA', hvolume, hprice⟩ := fillGreedily_within (B := T) hreach hq hu
    rw [← hrest] at hA'
    have hprice : ∀ x ∈ A', x.price = bestPrice L := by
      intro x hx
      obtain ⟨y, hy, hp⟩ := hprice x hx
      exact hp.trans (mem_bestQueue.mp hy).2
    have hbest : bestPrice rest = bestPrice L := by
      obtain ⟨x, X, rfl⟩ := List.exists_cons_of_ne_nil hne
      rw [hA']
      exact hprice x List.mem_cons_self
    refine ⟨hbest, ?_⟩
    have hA : A'.filter (fun x => x.price = bestPrice L) = A' :=
      List.filter_eq_self.mpr fun x hx => decide_eq_true (hprice x hx)
    have hT : T.filter (fun x => x.price = bestPrice L) = [] :=
      List.filter_eq_nil_iff.mpr fun x hx => by simpa using hworse x hx
    rw [bestVolume_eq, hbest, volumeAt, hA', List.filter_append, hA, hT, List.append_nil, hvolume]
    rfl

theorem exists_side_iff {P : Side → Prop} (s : Side) : (∃ t, P t) ↔ P s.opposite ∨ P s := by
  constructor
  · rintro ⟨t, ht⟩
    cases s <;> cases t <;> first | exact Or.inl ht | exact Or.inr ht
  · intro h
    cases h with
    | inl h => exact ⟨_, h⟩
    | inr h => exact ⟨_, h⟩

theorem moves_process_iff (hs : Sorted o.side.opposite (b.side o.side.opposite)) (time : Timestamp) :
    (∃ s, bestPrice ((b.process o time).side s) ≠ bestPrice (b.side s)) ↔ b.MovesBest o := by
  obtain ⟨hopp, hown⟩ := b.side_process o time
  rw [exists_side_iff o.side, hopp]
  refine or_congr ?_ ?_
  · cases top_execution hs with
    | inl h =>
      obtain ⟨-, hno, hrest⟩ := h
      rw [hrest]
      exact iff_of_false (fun h => h rfl) fun h => hno h.1
    | inr h =>
      cases h with
      | inl h =>
        obtain ⟨-, -, hno, hbest, -⟩ := h
        exact iff_of_false (fun h => h hbest) fun h => hno h.1
      | inr h =>
        obtain ⟨-, -, htakes, hend⟩ := h
        simp only [htakes, true_and]
        by_cases hnil : (b.execution o).rest = []
        · have hall := rest_eq_nil_iff.mp hnil
          rw [hnil]
          simp only [hall, and_true]
          exact not_congr eq_comm
        · have hall := mt rest_eq_nil_iff.mpr hnil
          simp only [hall, and_false, not_false_eq_true, iff_true]
          exact hend.resolve_left hnil
  · cases hown with
    | inl h =>
      obtain ⟨hremains, -, hside⟩ := h
      rw [hside, bestPrice_enqueue]
      simp only [hremains, true_and]
      by_cases hb : b.side o.side = [] ∨ o.side.better o.price (bestPrice (b.side o.side))
      · rw [if_pos hb]
        simp only [hb, and_true]
      · rw [if_neg hb]
        simp only [hb, and_false, ne_eq, not_true_eq_false]
    | inr h =>
      obtain ⟨hremains, hside⟩ := h
      rw [hside]
      exact iff_of_false (fun h => h rfl) fun h => hremains h.1

theorem sub_ne_self {v q : Quantity} (hq : q ≠ 0) : v - q ≠ v := by grind

/-- Where no best price changes, the shares at one of them do exactly if the order resizes it. -/
theorem resizes_process_iff (hs : Sorted o.side.opposite (b.side o.side.opposite))
    (time : Timestamp) (hsame : ¬ b.MovesBest o) :
    (∃ s, bestVolume ((b.process o time).side s) ≠ bestVolume (b.side s)) ↔ b.ResizesBest o := by
  have hbest (s : Side) : bestPrice ((b.process o time).side s) = bestPrice (b.side s) := by
    by_contra hne
    exact hsame ((moves_process_iff hs time).mp ⟨s, hne⟩)
  obtain ⟨hopp, hown⟩ := b.side_process o time
  have hbest_opp := hbest o.side.opposite
  have hbest_own := hbest o.side
  rw [hopp] at hbest_opp
  rw [exists_side_iff o.side, hopp]
  refine or_congr ?_ ?_
  · cases top_execution hs with
    | inl h =>
      obtain ⟨hidle, -, hrest⟩ := h
      rw [hrest]
      refine iff_of_false (fun h => h rfl) fun h => ?_
      cases hidle with
      | inl hidle => exact h.1 hidle
      | inr hidle => exact h.2.1 hidle
    | inr h =>
      cases h with
      | inl h =>
        obtain ⟨hreached, hq, hno, -, hvolume⟩ := h
        rw [hvolume]
        exact iff_of_true (sub_ne_self hq) ⟨hreached, hq, fun h => absurd h hno⟩
      | inr h =>
        obtain ⟨hreached, hq, htakes, hend⟩ := h
        have hnil : (b.execution o).rest = [] := hend.resolve_right fun h => h hbest_opp
        rw [hnil]
        simp only [hreached, hq, htakes, ne_eq, not_false_eq_true, true_and, forall_const]
        exact not_congr eq_comm
  · cases hown with
    | inl h =>
      obtain ⟨hremains, hleft, hside⟩ := h
      rw [hside] at hbest_own ⊢
      rw [bestVolume_eq, hbest_own, volumeAt_enqueue, bestVolume_eq]
      simp only [hremains, true_and]
      by_cases hp : o.price = bestPrice (b.side o.side)
      · rw [if_pos hp]
        refine iff_of_true ?_ hp
        grind
      · rw [if_neg hp, UInt32.zero_add]
        exact iff_of_false (fun h => h rfl) hp
    | inr h =>
      obtain ⟨hremains, hside⟩ := h
      rw [hside]
      exact iff_of_false (fun h => h rfl) fun h => hremains h.1

section Replace
variable {origId newId : OrderId} {newPrice : Price} {newQty : Quantity}

theorem side_modify_of_ne (hd : b.Distinct) (hi : b.Indexed) (hr : r ∈ b.side s)
    (hk : b.index origId = some r.ref) {t : Side} (ht : t ≠ s) :
    (b.modify origId newId newPrice newQty).side t = b.side t := by
  obtain rfl := hi.id_eq hd hr hk
  rw [modify_entry hd hr hk]
  split_ifs
  · exact setSide_of_ne _ _ ht
  · exact (setSide_of_ne _ _ ht).trans (setSide_of_ne _ _ ht)

theorem bestPrice_modify_iff (hd : b.Distinct) (hi : b.Indexed) (hs : ∀ s, Sorted s (b.side s))
    (hs' : Sorted s ((b.modify origId newId newPrice newQty).side s)) (hr : r ∈ b.side s)
    (hk : b.index origId = some r.ref) :
    bestPrice ((b.modify origId newId newPrice newQty).side s) = bestPrice (b.side s) ↔
      ¬ b.ReplaceMoves s r newPrice := by
  have hmem (x : Resting) : x ∈ (b.modify origId newId newPrice newQty).side s ↔ _ :=
    mem_modify hd hi hr hk
  have hnew := (hmem ⟨r.ref, newId, newPrice, newQty⟩).mpr (Or.inl ⟨rfl, rfl⟩)
  have hbest := ((bestPrice_eq_iff (hs s) (List.ne_nil_of_mem hr)).mp rfl).2
  rw [bestPrice_eq_iff hs' (List.ne_nil_of_mem hnew)]
  unfold ReplaceMoves
  constructor
  · rintro ⟨⟨x, hx, hp⟩, hall⟩ hmoves
    cases hmoves with
    | inl hbetter => exact hall _ hnew hbetter
    | inr hlast =>
      cases (hmem x).mp hx with
      | inl hx => exact hlast.1 (by rw [← hp, hx.2])
      | inr hx => exact hx.2 (hlast.2 x hx.1 hp)
  · intro hno
    obtain ⟨hbetter, hlast⟩ := not_or.mp hno
    constructor
    · by_cases hp : newPrice = bestPrice (b.side s)
      · exact ⟨_, hnew, hp⟩
      · by_contra hnone
        refine hlast ⟨hp, fun x hx hxp => ?_⟩
        by_contra hne
        exact hnone ⟨x, (hmem x).mpr (Or.inr ⟨hx, hne⟩), hxp⟩
    · intro x hx
      cases (hmem x).mp hx with
      | inl hx =>
        rw [hx.2]
        exact hbetter
      | inr hx => exact hbest x hx.1

theorem side_requeue (b : Book) (s : Side) (r : Resting) (newId : OrderId) (newPrice : Price)
    (newQty : Quantity) :
    (b.requeue s r newId newPrice newQty).side s =
      enqueue s ⟨r.ref, newId, newPrice, newQty⟩ ((b.side s).filter fun x => x.ref ≠ r.ref) := by
  rw [← setSide_self b s ((b.side s).filter fun x => x.ref ≠ r.ref)]
  exact setSide_self _ _ _

theorem volumeAt_modify (hd : b.Distinct) (hi : b.Indexed) (hr : r ∈ b.side s)
    (hk : b.index origId = some r.ref) (p : Price) :
    volumeAt p ((b.modify origId newId newPrice newQty).side s) +
        (if r.price = p then r.quantity else 0) =
      volumeAt p (b.side s) + if newPrice = p then newQty else 0 := by
  let share : Resting → Nat := fun x => if x.price = p then x.quantity.toNat else 0
  have hshare (x : Resting) : UInt32.ofNat (share x) = if x.price = p then x.quantity else 0 := by
    unfold share
    split_ifs
    · rw [UInt32.ofNat_toNat]
    · rfl
  obtain rfl := hi.id_eq hd hr hk
  rw [modify_entry hd hr hk]
  by_cases hcase : newPrice = r.price ∧ newQty < r.quantity
  · have hsum := congrArg UInt32.ofNat (total_rewrite (f := share) (hd.nodup s) hr newId newQty)
    rw [UInt32.ofNat_add, UInt32.ofNat_add, hshare, hshare] at hsum
    rw [if_pos hcase, inPlace, volumeAt_eq, volumeAt_eq, hcase.1]
    show UInt32.ofNat (LobCity.total share ((b.rewrite s r.ref newId newQty).side s)) + _ = _
    rw [rewrite, setSide_self]
    exact hsum
  · have hsum := congrArg UInt32.ofNat (total_drop (f := share) (hd.nodup s) hr)
    rw [UInt32.ofNat_add, hshare, ← volumeAt_eq, ← volumeAt_eq] at hsum
    rw [if_neg hcase, side_requeue, volumeAt_enqueue, ← hsum]
    grind

theorem bestVolume_modify_iff (hd : b.Distinct) (hi : b.Indexed) (hr : r ∈ b.side s)
    (hk : b.index origId = some r.ref)
    (hsame : bestPrice ((b.modify origId newId newPrice newQty).side s) = bestPrice (b.side s)) :
    bestVolume ((b.modify origId newId newPrice newQty).side s) = bestVolume (b.side s) ↔
      ¬ b.ReplaceResizes s r newPrice newQty := by
  have hsum : volumeAt _ ((b.modify origId newId newPrice newQty).side s) + _ = _ :=
    volumeAt_modify hd hi hr hk (bestPrice (b.side s))
  rw [bestVolume_eq, hsame, bestVolume_eq, ReplaceResizes, not_ne_iff]
  grind

end Replace

theorem bestPrice_cancel_iff (hd : b.Distinct) (hs : ∀ s, Sorted s (b.side s))
    (hr : r ∈ b.side s) {id : OrderId} (hk : b.index id = some r.ref) :
    bestPrice ((b.cancel id).side s) = bestPrice (b.side s) ↔ ¬ b.CancelMoves s r := by
  have hside : (b.cancel id).side s = (b.side s).filter fun x => x.ref ≠ r.ref := by
    rw [cancel_entry hd hr hk]
    exact setSide_self _ _ _
  have hbest := ((bestPrice_eq_iff (hs s) (List.ne_nil_of_mem hr)).mp rfl).2
  have hmem (x : Resting) : x ∈ (b.cancel id).side s ↔ x ∈ b.side s ∧ x.ref ≠ r.ref := by
    rw [hside]
    simp
  unfold CancelMoves
  by_cases hnil : (b.cancel id).side s = []
  · have hall : ∀ x ∈ b.side s, x.ref = r.ref := by
      intro x hx
      by_contra hne
      exact absurd ((hmem x).mpr ⟨hx, hne⟩) (by simp [hnil])
    have hlast : ∀ x ∈ b.side s, x.price = bestPrice (b.side s) → x.ref = r.ref :=
      fun x hx _ => hall x hx
    rw [hnil]
    exact ⟨fun h hmoves => hmoves.2 ⟨h.symm, hall⟩, fun hno => by
      by_contra hne
      exact hno ⟨hlast, fun h => hne h.1.symm⟩⟩
  · have hs' : Sorted s ((b.cancel id).side s) := by
      rw [hside]
      exact (hs s).filter _
    obtain ⟨y, hy⟩ := List.exists_mem_of_ne_nil _ hnil
    rw [bestPrice_eq_iff hs' hnil]
    constructor
    · rintro ⟨⟨x, hx, hp⟩, -⟩ hmoves
      exact ((hmem x).mp hx).2 (hmoves.1 x ((hmem x).mp hx).1 hp)
    · intro hno
      refine ⟨?_, fun x hx => hbest x ((hmem x).mp hx).1⟩
      by_contra hnone
      refine hno ⟨fun x hx hp => ?_, fun h => ((hmem y).mp hy).2 (h.2 y ((hmem y).mp hy).1)⟩
      by_contra hne
      exact hnone ⟨x, (hmem x).mpr ⟨hx, hne⟩, hp⟩

theorem side_cancel_of_ne (hd : b.Distinct) (hr : r ∈ b.side s) {id : OrderId}
    (hk : b.index id = some r.ref) {t : Side} (ht : t ≠ s) : (b.cancel id).side t = b.side t := by
  rw [cancel_entry hd hr hk]
  exact setSide_of_ne _ _ ht

end Book
end LobCity
