import LobCity.Reference

/-! What each call can do to the sequence book, said once: the shape of an execution, and
the cases of `process`, `cancel` and `modify`. Invariants are derived from these. -/
namespace LobCity
open Library

def Fill.full (r : Resting) : Fill := ⟨r, r.quantity⟩

section Execution
variable {reaches : Price → Bool} {L : List Resting} {q : Quantity}

theorem fillGreedily_reaches {f : Fill} (hf : f ∈ (fillGreedily reaches L q).fills) :
    f.maker ∈ L ∧ reaches f.maker.price = true := by
  induction L generalizing q with
  | nil => simp [fillGreedily] at hf
  | cons r L ih =>
    by_cases hstop : q = 0 ∨ reaches r.price = false
    · simp [fillGreedily_stop hstop] at hf
    have hr : reaches r.price = true := by simpa using (not_or.mp hstop).2
    by_cases hfull : min q r.quantity = r.quantity
    · rw [fillGreedily_full hstop hfull] at hf
      cases List.mem_cons.mp hf with
      | inl h =>
        obtain rfl := h
        exact ⟨by simp, hr⟩
      | inr hf =>
        exact ⟨List.mem_cons_of_mem _ (ih hf).1, (ih hf).2⟩
    · rw [fillGreedily_outlasts hstop hfull] at hf
      obtain rfl := List.mem_singleton.mp hf
      exact ⟨by simp, hr⟩

/-- An execution uses up a front stretch of the side, and then either stops or takes a
part of the next order. -/
theorem fillGreedily_split (reaches : Price → Bool) (L : List Resting) (q : Quantity) :
    let x := fillGreedily reaches L q
    (L = x.gone ++ x.rest ∧ x.fills = x.gone.map Fill.full ∧
      (x.left = 0 ∨ ∀ r ∈ x.rest.head?, reaches r.price = false)) ∨
    ∃ r B f, L = x.gone ++ r :: B ∧ x.fills = x.gone.map Fill.full ++ [⟨r, f⟩] ∧
      0 < f ∧ f < r.quantity ∧ x.rest = { r with quantity := r.quantity - f } :: B ∧ x.left = 0 := by
  induction L generalizing q with
  | nil => exact Or.inl ⟨rfl, rfl, Or.inr (by simp [fillGreedily])⟩
  | cons r L ih =>
    dsimp only
    by_cases hstop : q = 0 ∨ reaches r.price = false
    · rw [fillGreedily_stop hstop]
      exact Or.inl ⟨rfl, rfl, hstop.imp id fun h => by simpa using h⟩
    by_cases hfull : min q r.quantity = r.quantity
    · rw [fillGreedily_full hstop hfull, Execution.gone_full]
      cases ih (q - r.quantity) with
      | inl h =>
        obtain ⟨hL, hF, hend⟩ := h
        exact Or.inl ⟨congrArg (r :: ·) hL, congrArg (Fill.full r :: ·) hF, hend⟩
      | inr h =>
        obtain ⟨r', B, f, hL, hF, h0, hlt, hB, hend⟩ := h
        exact Or.inr ⟨r', B, f, congrArg (r :: ·) hL, congrArg (Fill.full r :: ·) hF, h0, hlt, hB,
          hend⟩
    · obtain ⟨hq, hlt⟩ := (Quantity.min_cases q r.quantity).resolve_left fun h => hfull h.1
      have hq0 : q ≠ 0 := (not_or.mp hstop).1
      rw [fillGreedily_outlasts hstop hfull, Execution.gone_outlasts (hq ▸ hfull)]
      exact Or.inr ⟨r, L, q, rfl, rfl, by grind, hlt, rfl, rfl⟩

end Execution

namespace Resting

def Same (r r' : Resting) : Prop := r.ref = r'.ref ∧ r.id = r'.id ∧ r.price = r'.price

theorem Same.refl (r : Resting) : r.Same r := ⟨rfl, rfl, rfl⟩

end Resting

section Survivors
variable {reaches : Price → Bool} {L : List Resting} {q : Quantity}

theorem keys_execution (reaches : Price → Bool) (L : List Resting) (q : Quantity) :
    keys L = keys (fillGreedily reaches L q).gone ++ keys (fillGreedily reaches L q).rest := by
  cases fillGreedily_split reaches L q with
  | inl hL =>
    conv_lhs => rw [hL.1]
    simp [keys]
  | inr h =>
    obtain ⟨r, B, f, hL, -, -, -, hB, -⟩ := h
    conv_lhs => rw [hL]
    rw [hB]
    simp [keys]

theorem map_fst_keys (L : List Resting) : (keys L).map Prod.fst = refs L := by
  simp [keys, refs]

theorem refs_execution (reaches : Price → Bool) (L : List Resting) (q : Quantity) :
    refs L = refs (fillGreedily reaches L q).gone ++ refs (fillGreedily reaches L q).rest := by
  simp only [← map_fst_keys, ← List.map_append, ← keys_execution]

/-- What rests afterwards rested before, with at least its present quantity. -/
theorem survivor_of_rest {r' : Resting} (hr : r' ∈ (fillGreedily reaches L q).rest) :
    ∃ r ∈ L, r'.Same r ∧ r'.quantity ≤ r.quantity ∧ (0 < r.quantity → 0 < r'.quantity) := by
  cases fillGreedily_split reaches L q with
  | inl hL =>
    exact ⟨r', by rw [hL.1]; simp [hr], .refl r', by grind, id⟩
  | inr h =>
    obtain ⟨r, B, f, hL, -, h0, hlt, hB, -⟩ := h
    rw [hB] at hr
    cases List.mem_cons.mp hr with
    | inl h =>
      obtain rfl := h
      exact ⟨r, by rw [hL]; simp, ⟨rfl, rfl, rfl⟩, by grind, fun _ => by grind⟩
    | inr hr =>
      exact ⟨r', by rw [hL]; simp [hr], .refl r', by grind, id⟩

/-- What rested before is used up or still rests. -/
theorem gone_or_rest (reaches : Price → Bool) (q : Quantity) {r : Resting} (hr : r ∈ L) :
    r ∈ (fillGreedily reaches L q).gone ∨ ∃ r' ∈ (fillGreedily reaches L q).rest, r'.Same r := by
  cases fillGreedily_split reaches L q with
  | inl hL =>
    rw [hL.1] at hr
    cases List.mem_append.mp hr with
    | inl hr =>
      exact Or.inl hr
    | inr hr =>
      exact Or.inr ⟨r, hr, .refl r⟩
  | inr h =>
    obtain ⟨r0, B, f, hL, -, -, -, hB, -⟩ := h
    rw [hL] at hr
    cases List.mem_append.mp hr with
    | inl hr =>
      exact Or.inl hr
    | inr hr =>
      refine Or.inr ?_
      rw [hB]
      cases List.mem_cons.mp hr with
      | inl h =>
        obtain rfl := h
        exact ⟨_, List.mem_cons_self, ⟨rfl, rfl, rfl⟩⟩
      | inr hr =>
        exact ⟨r, by simp [hr], .refl r⟩

end Survivors

namespace Book
variable {b : Book}

def matched (b : Book) (o : Incoming) (time : Timestamp) : Book :=
  b.settle o.side.opposite o.id time (b.execution o)

theorem process_cases (b : Book) (o : Incoming) (time : Timestamp) :
    (o.isMarket = false ∧ 0 < (b.execution o).left ∧
      b.process o time = (b.matched o time).rest { o with quantity := (b.execution o).left }) ∨
    ((o.isMarket = true ∨ (b.execution o).left = 0) ∧
      b.process o time = (b.matched o time).release o.ref) := by
  rw [process_eq_reference]
  unfold referenceProcess
  dsimp only
  split_ifs with h
  · exact Or.inl ⟨h.1, h.2, rfl⟩
  · refine Or.inr ⟨?_, rfl⟩
    by_cases hm : o.isMarket = true
    · exact Or.inl hm
    · refine Or.inr ?_
      have hn : ¬ 0 < (b.execution o).left := fun hl => h ⟨by simpa using hm, hl⟩
      grind

theorem trades_process_eq (b : Book) (o : Incoming) (time : Timestamp) :
    (b.process o time).trades =
      b.trades ++ (b.execution o).fills.map (Fill.trade o.side.opposite o.id time) := by
  rcases process_cases b o time with ⟨-, -, h⟩ | ⟨-, h⟩ <;> rw [h] <;> rfl

/-- Off the other side, a limit order only rests. -/
theorem process_clear {o : Incoming} (hm : o.isMarket = false) (hq : 0 < o.quantity)
    (hc : ∀ x ∈ (b.side o.side.opposite).head?, o.side.opposite.better o.price x.price)
    (time : Timestamp) : b.process o time = b.rest o := by
  have hx : b.execution o = ⟨[], b.side o.side.opposite, o.quantity⟩ := by
    unfold execution
    cases hL : b.side o.side.opposite with
    | nil => rfl
    | cons x L =>
      rw [hL] at hc
      refine fillGreedily_stop (Or.inr ?_)
      simpa [Incoming.reaches, hm] using hc x rfl
  have hmatched : b.settle o.side.opposite o.id time (b.execution o) = b := by
    rw [hx]
    exact settle_nil rfl
  rw [process_eq_reference, referenceProcess, hmatched, hx, if_pos ⟨hm, hq⟩]

theorem cancel_entry (hd : b.Distinct) {s : Side} {r : Resting} (hr : r ∈ b.side s) {id : OrderId}
    (hk : b.index id = some r.ref) :
    b.cancel id = ((b.eraseId id).drop s r.ref).release r.ref := by
  rw [cancel, hk, Option.bind_some, lookup_of_mem hd hr]

theorem cancel_cases (hd : b.Distinct) (hi : b.Indexed) (id : OrderId) :
    (b.index id = none ∧ b.cancel id = b) ∨
    ∃ s, ∃ r ∈ b.side s, r.id = id ∧ b.index id = some r.ref ∧
      b.cancel id = ((b.eraseId id).drop s r.ref).release r.ref := by
  cases hk : b.index id with
  | none => exact Or.inl ⟨rfl, cancel_unknown hk⟩
  | some a =>
    obtain ⟨s, r, hr, rfl, hid⟩ := hi id a hk
    exact Or.inr ⟨s, r, hr, hid, rfl, cancel_entry hd hr hk⟩

def inPlace (b : Book) (s : Side) (r : Resting) (newId : OrderId) (newQty : Quantity) : Book :=
  let b1 := (b.rewrite s r.ref newId newQty).eraseId r.id
  { b1 with index := Function.update b1.index newId (some r.ref) }

def requeue (b : Book) (s : Side) (r : Resting) (newId : OrderId) (newPrice : Price)
    (newQty : Quantity) : Book :=
  ((b.eraseId r.id).drop s r.ref).rest ⟨r.ref, newId, newPrice, newQty, s, false⟩

theorem Indexed.id_eq (hi : b.Indexed) (hd : b.Distinct) {s : Side} {r : Resting} (hr : r ∈ b.side s)
    {k : OrderId} (hk : b.index k = some r.ref) : r.id = k := by
  obtain ⟨t, x, hx, hxr, hid⟩ := hi k r.ref hk
  obtain ⟨-, rfl⟩ := hd.unique hx hr hxr
  exact hid

theorem modify_entry (hd : b.Distinct) {s : Side} {r : Resting} (hr : r ∈ b.side s)
    (hk : b.index r.id = some r.ref) (newId : OrderId) (newPrice : Price) (newQty : Quantity) :
    b.modify r.id newId newPrice newQty =
      if newPrice = r.price ∧ newQty < r.quantity then b.inPlace s r newId newQty
      else b.requeue s r newId newPrice newQty := by
  rw [modify, hk, Option.bind_some, lookup_of_mem hd hr]
  rfl

theorem modify_cases (hd : b.Distinct) (hi : b.Indexed) (origId newId : OrderId)
    (newPrice : Price) (newQty : Quantity) :
    (b.index origId = none ∧ b.modify origId newId newPrice newQty = b) ∨
    ∃ s, ∃ r ∈ b.side s, r.id = origId ∧ b.index origId = some r.ref ∧
      ((newPrice = r.price ∧ newQty < r.quantity ∧
          b.modify origId newId newPrice newQty = b.inPlace s r newId newQty) ∨
        (¬ (newPrice = r.price ∧ newQty < r.quantity) ∧
          b.modify origId newId newPrice newQty = b.requeue s r newId newPrice newQty)) := by
  cases hk : b.index origId with
  | none => exact Or.inl ⟨rfl, modify_unknown hk _ _ _⟩
  | some a =>
    obtain ⟨s, r, hr, rfl, rfl⟩ := hi origId a hk
    refine Or.inr ⟨s, r, hr, rfl, rfl, ?_⟩
    rw [modify_entry hd hr hk]
    split_ifs with hcase
    · exact Or.inl ⟨hcase.1, hcase.2, rfl⟩
    · exact Or.inr ⟨hcase, rfl⟩

section Filter
variable {s : Side} {r : Resting} {p : Resting → Bool}

theorem filter_drop (hp : ∀ x, x.ref = r.ref → p x = false) (t : Side) :
    ((b.drop s r.ref).side t).filter p = (b.side t).filter p := by
  unfold drop
  by_cases ht : t = s
  · subst ht
    rw [setSide_self, List.filter_filter]
    refine List.filter_congr fun x _ => ?_
    by_cases hx : x.ref = r.ref
    · simp [hp x hx]
    · simp [hx]
  · rw [setSide_of_ne _ _ ht]

theorem filter_rest {o : Incoming} (hp : p o.resting = false) (t : Side) :
    ((b.rest o).side t).filter p = (b.side t).filter p := by
  have hside : (b.rest o).side t = (b.setSide o.side (enqueue o.side o.resting (b.side o.side))).side t :=
    rfl
  rw [hside]
  by_cases ht : t = o.side
  · subst ht
    rw [setSide_self, enqueue_filter_of_not hp]
  · rw [setSide_of_ne _ _ ht]

theorem filter_rewrite (hp : ∀ x, x.ref = r.ref → p x = false) (id : OrderId) (q : Quantity)
    (t : Side) : ((b.rewrite s r.ref id q).side t).filter p = (b.side t).filter p := by
  unfold rewrite
  by_cases ht : t = s
  · subst ht
    rw [setSide_self]
    induction b.side t with
    | nil => rfl
    | cons x L ih =>
      rw [List.map_cons, List.filter_cons, ih, List.filter_cons]
      by_cases hx : x.ref = r.ref
      · rw [if_pos hx, hp x hx, hp _ (by exact hx)]
        rfl
      · rw [if_neg hx]
  · rw [setSide_of_ne _ _ ht]

end Filter
end Book
end LobCity
