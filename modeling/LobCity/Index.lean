import LobCity.Calls

/-! The id index across calls. For arbitrary ids an entry always leads to a resting order
that carries it (`Indexed`); while resting ids stay unique the index is exactly the map
from ids to resting orders (`Exact`). -/
namespace LobCity.Book
open Library
variable {b : Book} {s : Side} {r : Resting} {o : Incoming}

/-- The index is the bijection between ids and resting orders. -/
def Exact (b : Book) : Prop :=
  ∀ k a, b.index k = some a ↔ ∃ s, ∃ r ∈ b.side s, r.ref = a ∧ r.id = k

def Rests (b : Book) (id : OrderId) : Prop := ∃ s, ∃ r ∈ b.side s, r.id = id

theorem Exact.indexed (h : b.Exact) : b.Indexed := fun k a hk => (h k a).mp hk

theorem side_matched (b : Book) (o : Incoming) (time : Timestamp) (s : Side) :
    (b.matched o time).side s =
      if s = o.side.opposite then (b.execution o).rest else b.side s := by
  by_cases hs : s = o.side.opposite
  · subst hs
    rw [if_pos rfl]
    exact setSide_self _ _ _
  · rw [if_neg hs]
    exact setSide_of_ne _ _ hs

theorem index_matched (b : Book) (o : Incoming) (time : Timestamp) (k : OrderId) :
    (b.matched o time).index k =
      if k ∈ (b.execution o).gone.map Resting.id then none else b.index k := rfl

theorem side_opposite_ne (s : Side) : s ≠ s.opposite := by cases s <;> decide

theorem mem_of_matched {time : Timestamp} (h : r ∈ (b.matched o time).side s) :
    ∃ r0 ∈ b.side s, r.Same r0 ∧ r.quantity ≤ r0.quantity ∧ (0 < r0.quantity → 0 < r.quantity) := by
  rw [side_matched] at h
  split_ifs at h with hs
  · subst hs
    exact survivor_of_rest h
  · exact ⟨r, h, .refl r, by grind, id⟩

theorem matched_of_mem (o : Incoming) (time : Timestamp) (h : r ∈ b.side s) :
    r ∈ (b.execution o).gone ∨ ∃ r' ∈ (b.matched o time).side s, r'.Same r := by
  rw [side_matched]
  split_ifs with hs
  · subst hs
    exact gone_or_rest _ _ h
  · exact Or.inr ⟨r, h, .refl r⟩

theorem mem_gone (h : r ∈ (b.execution o).gone) : r ∈ b.side o.side.opposite := by
  obtain ⟨f, hf, rfl⟩ := List.mem_map.mp h
  exact (fillGreedily_reaches (List.mem_filter.mp hf).1).1

theorem gone_ne_matched (hd : b.Distinct) {g : Resting} {time : Timestamp}
    (hg : g ∈ (b.execution o).gone) (hr : r ∈ (b.matched o time).side s) : g.ref ≠ r.ref := by
  intro he
  obtain ⟨r0, h0, hs0, -⟩ := mem_of_matched hr
  obtain ⟨hs, -⟩ := hd.unique (mem_gone hg) h0 (he.trans hs0.1)
  rw [side_matched, if_pos hs.symm] at hr
  have hn := hd.nodup o.side.opposite
  rw [refs_execution o.reaches _ o.quantity] at hn
  exact (List.nodup_append.mp hn).2.2 g.ref (List.mem_map_of_mem hg) r.ref
    (List.mem_map_of_mem hr) he

theorem Sorted.matched (hs : ∀ s, Sorted s (b.side s)) (o : Incoming) (time : Timestamp) (s : Side) :
    Sorted s ((b.matched o time).side s) := by
  rw [side_matched]
  split_ifs with h
  · subst h
    have hL := hs o.side.opposite
    cases fillGreedily_split o.reaches (b.side o.side.opposite) o.quantity with
    | inl hsplit =>
      rw [hsplit.1] at hL
      exact (List.pairwise_append.mp hL).2.1
    | inr h =>
      obtain ⟨r, B, f, hsplit, -, -, -, hB, -⟩ := h
      rw [hsplit] at hL
      rw [execution, hB]
      obtain ⟨h1, h2⟩ := List.pairwise_cons.mp (List.pairwise_append.mp hL).2.1
      exact List.pairwise_cons.mpr ⟨h1, h2⟩
  · exact hs s

theorem Sorted.removed (hs : ∀ s, Sorted s (b.side s)) (s : Side) (r : Resting) (t : Side) :
    Sorted t (((b.eraseId r.id).drop s r.ref).side t) := by
  unfold drop
  by_cases ht : t = s
  · subst ht
    rw [setSide_self]
    exact (hs t).filter _
  · rw [setSide_of_ne _ _ ht]
    exact hs t

theorem not_mem_matched {a : Addr} (ha : a ∉ refs (b.side s)) (o : Incoming) (time : Timestamp) :
    a ∉ refs ((b.matched o time).side s) := by
  intro hm
  obtain ⟨r, hr, rfl⟩ := List.mem_map.mp hm
  obtain ⟨r0, h0, hs, -⟩ := mem_of_matched hr
  exact ha (List.mem_map.mpr ⟨r0, h0, hs.1.symm⟩)

theorem not_mem_removed (hd : b.Distinct) (hr : r ∈ b.side s) (t : Side) :
    r.ref ∉ refs (((b.eraseId r.id).drop s r.ref).side t) := by
  intro hm
  obtain ⟨x, hx, he⟩ := List.mem_map.mp hm
  obtain ⟨hx, hne⟩ := Represents.mem_drop hx
  exact hne (hd.unique hx hr he).1 he

section Indexed

theorem Indexed.matched (hi : b.Indexed) (time : Timestamp) : (b.matched o time).Indexed := by
  intro k a hk
  rw [index_matched] at hk
  split_ifs at hk with hgone
  obtain ⟨s, r, hr, hra, hrk⟩ := hi k a hk
  cases matched_of_mem o time hr with
  | inl hg =>
    exact absurd (hrk ▸ List.mem_map_of_mem hg) hgone
  | inr h =>
    obtain ⟨r', hr', hs⟩ := h
    exact ⟨s, r', hr', hs.1.trans hra, hs.2.1.trans hrk⟩

theorem Indexed.acquire (hi : b.Indexed) (id : OrderId) (p : Price) (q : Quantity) (s : Side)
    (m : Bool) : (b.acquire id p q s m).2.Indexed := by
  simpa only [Indexed, index_acquire, side_acquire] using hi

theorem Indexed.release (hi : b.Indexed) (a : Addr) : (b.release a).Indexed := hi

theorem Indexed.rest (hi : b.Indexed) (o : Incoming) : (b.rest o).Indexed := by
  intro k a hk
  by_cases he : k = o.id
  · have ha : o.ref = a := by simpa [Book.rest, he] using hk
    exact ⟨o.side, o.resting, Represents.mem_rest.mpr (Or.inl ⟨rfl, rfl⟩), ha, he.symm⟩
  · have hk : b.index k = some a := by simpa [Book.rest, he] using hk
    obtain ⟨s, r, hr, hra, hrk⟩ := hi k a hk
    exact ⟨s, r, Represents.mem_rest.mpr (Or.inr hr), hra, hrk⟩

theorem Indexed.process (hi : b.Indexed) (o : Incoming) (time : Timestamp) :
    (b.process o time).Indexed := by
  cases process_cases b o time with
  | inl h =>
    rw [h.2.2]
    exact (hi.matched time).rest _
  | inr h =>
    rw [h.2]
    exact (hi.matched time).release _

theorem mem_drop_of_ne {a : Addr} {t : Side} (hr : r ∈ b.side t) (ha : r.ref ≠ a) :
    r ∈ (b.drop s a).side t := by
  unfold drop
  by_cases ht : t = s
  · subst ht
    rw [setSide_self]
    exact List.mem_filter.mpr ⟨hr, by simpa using ha⟩
  · rwa [setSide_of_ne _ _ ht]

theorem Indexed.removed (hi : b.Indexed) (hd : b.Distinct) (hr : r ∈ b.side s) :
    ((b.eraseId r.id).drop s r.ref).Indexed := by
  intro k a hk
  have hne : k ≠ r.id := by
    rintro rfl
    simp [eraseId] at hk
  have hk : b.index k = some a := by simpa [eraseId, hne] using hk
  obtain ⟨t, r', hr', hra, hrk⟩ := hi k a hk
  refine ⟨t, r', mem_drop_of_ne hr' fun he => hne ?_, hra, hrk⟩
  obtain ⟨-, rfl⟩ := hd.unique hr' hr he
  exact hrk.symm

theorem Indexed.cancel (hi : b.Indexed) (hd : b.Distinct) (id : OrderId) :
    (b.cancel id).Indexed := by
  cases cancel_cases hd hi id with
  | inl h =>
    rwa [h.2]
  | inr h =>
    obtain ⟨s, r, hr, rfl, -, h⟩ := h
    rw [h]
    exact (hi.removed hd hr).release _

theorem mem_rewrite_self (hr : r ∈ b.side s) (id : OrderId) (q : Quantity) :
    { r with id := id, quantity := q } ∈ (b.rewrite s r.ref id q).side s := by
  rw [rewrite, setSide_self]
  exact List.mem_map.mpr ⟨r, hr, by simp⟩

theorem mem_rewrite_of_ne {a : Addr} {t : Side} (hr : r ∈ b.side t) (ha : r.ref ≠ a)
    (id : OrderId) (q : Quantity) : r ∈ (b.rewrite s a id q).side t := by
  unfold rewrite
  by_cases ht : t = s
  · subst ht
    rw [setSide_self]
    exact List.mem_map.mpr ⟨r, hr, by simp [ha]⟩
  · rwa [setSide_of_ne _ _ ht]

theorem mem_of_rewrite (hd : b.Distinct) (hr : r ∈ b.side s) {id : OrderId} {q : Quantity}
    {t : Side} {x : Resting} (hx : x ∈ (b.rewrite s r.ref id q).side t) :
    (t = s ∧ x = { r with id := id, quantity := q }) ∨ (x ∈ b.side t ∧ x.ref ≠ r.ref) := by
  unfold rewrite at hx
  by_cases ht : t = s
  · subst ht
    rw [setSide_self] at hx
    obtain ⟨y, hy, rfl⟩ := List.mem_map.mp hx
    split_ifs with he
    · obtain ⟨-, rfl⟩ := hd.unique hy hr he
      exact Or.inl ⟨rfl, rfl⟩
    · exact Or.inr ⟨hy, he⟩
  · rw [setSide_of_ne _ _ ht] at hx
    exact Or.inr ⟨hx, fun he => ht (hd.unique hx hr he).1⟩

theorem Indexed.inPlace (hi : b.Indexed) (hd : b.Distinct) (hr : r ∈ b.side s) (newId : OrderId)
    (newQty : Quantity) : (b.inPlace s r newId newQty).Indexed := by
  intro k a hk
  by_cases hnew : k = newId
  · subst hnew
    have ha : r.ref = a := by simpa [Book.inPlace] using hk
    exact ⟨s, _, mem_rewrite_self hr k newQty, ha, rfl⟩
  · have hne : k ≠ r.id := by
      rintro rfl
      simp [Book.inPlace, eraseId, hnew] at hk
    have hk : b.index k = some a := by simpa [Book.inPlace, eraseId, hnew, hne] using hk
    obtain ⟨t, r', hr', hra, hrk⟩ := hi k a hk
    refine ⟨t, r', mem_rewrite_of_ne hr' (fun he => hne ?_) newId newQty, hra, hrk⟩
    obtain ⟨-, rfl⟩ := hd.unique hr' hr he
    exact hrk.symm

theorem Indexed.modify (hi : b.Indexed) (hd : b.Distinct) (origId newId : OrderId)
    (newPrice : Price) (newQty : Quantity) : (b.modify origId newId newPrice newQty).Indexed := by
  cases modify_cases hd hi origId newId newPrice newQty with
  | inl h =>
    rwa [h.2]
  | inr h =>
    obtain ⟨s, r, hr, rfl, -, hcase⟩ := h
    cases hcase with
    | inl h =>
      rw [h.2.2]
      exact hi.inPlace hd hr newId newQty
    | inr h =>
      rw [h.2]
      exact (hi.removed hd hr).rest _

theorem mem_modify (hd : b.Distinct) (hi : b.Indexed) (hr : r ∈ b.side s) {origId newId : OrderId}
    {newPrice : Price} {newQty : Quantity} (hk : b.index origId = some r.ref) {t : Side}
    {x : Resting} :
    x ∈ (b.modify origId newId newPrice newQty).side t ↔
      (t = s ∧ x = ⟨r.ref, newId, newPrice, newQty⟩) ∨ (x ∈ b.side t ∧ x.ref ≠ r.ref) := by
  obtain rfl := hi.id_eq hd hr hk
  rw [modify_entry hd hr hk]
  split_ifs with hcase
  · obtain ⟨rfl, -⟩ := hcase
    constructor
    · exact mem_of_rewrite hd hr
    · rintro (⟨rfl, rfl⟩ | ⟨hx, hne⟩)
      · exact mem_rewrite_self hr newId newQty
      · exact mem_rewrite_of_ne hx hne newId newQty
  · rw [requeue, Represents.mem_rest]
    constructor
    · rintro (⟨rfl, rfl⟩ | hx)
      · exact Or.inl ⟨rfl, rfl⟩
      · obtain ⟨hx, hne⟩ := Represents.mem_drop hx
        exact Or.inr ⟨hx, fun he => hne (hd.unique hx hr he).1 he⟩
    · rintro (⟨rfl, rfl⟩ | ⟨hx, hne⟩)
      · exact Or.inl ⟨rfl, rfl⟩
      · exact Or.inr (mem_drop_of_ne hx hne)

end Indexed

section Exact

theorem Exact.matched (he : b.Exact) (hd : b.Distinct) (o : Incoming) (time : Timestamp) :
    (b.matched o time).Exact := by
  refine fun k a => ⟨he.indexed.matched time k a, ?_⟩
  rintro ⟨s, r, hr, rfl, rfl⟩
  obtain ⟨r0, h0, ⟨hra, hrk, -⟩, -⟩ := mem_of_matched hr
  have h0 : b.index r.id = some r.ref := (he _ _).mpr ⟨s, r0, h0, hra.symm, hrk.symm⟩
  rw [index_matched, if_neg, h0]
  intro hgone
  obtain ⟨g, hg, hgk⟩ := List.mem_map.mp hgone
  have hga : b.index r.id = some g.ref := (he _ _).mpr ⟨_, g, mem_gone hg, rfl, hgk⟩
  exact gone_ne_matched hd hg hr (Option.some.inj (hga.symm.trans h0))

theorem Exact.acquire (he : b.Exact) (id : OrderId) (p : Price) (q : Quantity) (s : Side)
    (m : Bool) : (b.acquire id p q s m).2.Exact := by
  simpa only [Exact, index_acquire, side_acquire] using he

theorem Exact.rest (he : b.Exact) (hid : ¬ b.Rests o.id) : (b.rest o).Exact := by
  refine fun k a => ⟨he.indexed.rest o k a, ?_⟩
  rintro ⟨s, r, hr, rfl, rfl⟩
  cases Represents.mem_rest.mp hr with
  | inl h =>
    obtain ⟨-, rfl⟩ := h
    simp [Book.rest, Incoming.resting]
  | inr hr =>
    have hne : r.id ≠ o.id := fun h => hid ⟨s, r, hr, h⟩
    simpa [Book.rest, hne] using (he _ _).mpr ⟨s, r, hr, rfl, rfl⟩

theorem Exact.unique (he : b.Exact) (hd : b.Distinct) {s s' : Side} {r r' : Resting}
    (hr : r ∈ b.side s) (hr' : r' ∈ b.side s') (hid : r.id = r'.id) : s = s' ∧ r = r' := by
  have h1 := (he r.id r.ref).mpr ⟨s, r, hr, rfl, rfl⟩
  have h2 := (he r.id r'.ref).mpr ⟨s', r', hr', rfl, hid.symm⟩
  exact hd.unique hr hr' (Option.some.inj (h1.symm.trans h2))

theorem not_rests_matched (hid : ¬ b.Rests o.id) (time : Timestamp) :
    ¬ (b.matched o time).Rests o.id := by
  rintro ⟨s, r, hr, hk⟩
  obtain ⟨r0, h0, hs, -⟩ := mem_of_matched hr
  exact hid ⟨s, r0, h0, hs.2.1.symm.trans hk⟩

theorem Exact.process (he : b.Exact) (hd : b.Distinct) (hid : ¬ b.Rests o.id) (time : Timestamp) :
    (b.process o time).Exact := by
  cases process_cases b o time with
  | inl h =>
    rw [h.2.2]
    exact (he.matched hd o time).rest (not_rests_matched hid time)
  | inr h =>
    rw [h.2]
    exact he.matched hd o time

theorem Exact.removed (he : b.Exact) (hd : b.Distinct) (hr : r ∈ b.side s) :
    ((b.eraseId r.id).drop s r.ref).Exact := by
  refine fun k a => ⟨he.indexed.removed hd hr k a, ?_⟩
  rintro ⟨t, x, hx, rfl, rfl⟩
  obtain ⟨hx, hne⟩ := Represents.mem_drop hx
  have hid : x.id ≠ r.id := fun h => by
    obtain ⟨rfl, rfl⟩ := he.unique hd hx hr h
    exact hne rfl rfl
  simpa [eraseId, hid] using (he _ _).mpr ⟨t, x, hx, rfl, rfl⟩

theorem not_rests_removed (he : b.Exact) (hd : b.Distinct) (hr : r ∈ b.side s) {newId : OrderId}
    (hnew : newId = r.id ∨ ¬ b.Rests newId) :
    ¬ ((b.eraseId r.id).drop s r.ref).Rests newId := by
  rintro ⟨t, x, hx, hk⟩
  obtain ⟨hx, hne⟩ := Represents.mem_drop hx
  cases hnew with
  | inl hnew =>
    obtain rfl := hnew
    obtain ⟨rfl, rfl⟩ := he.unique hd hx hr hk
    exact hne rfl rfl
  | inr hnew =>
    exact hnew ⟨t, x, hx, hk⟩

theorem Exact.cancel (he : b.Exact) (hd : b.Distinct) (id : OrderId) : (b.cancel id).Exact := by
  cases cancel_cases hd he.indexed id with
  | inl h =>
    rwa [h.2]
  | inr h =>
    obtain ⟨s, r, hr, rfl, -, h⟩ := h
    rw [h]
    exact he.removed hd hr

theorem Exact.inPlace (he : b.Exact) (hd : b.Distinct) (hr : r ∈ b.side s) {newId : OrderId}
    (hnew : newId = r.id ∨ ¬ b.Rests newId) (newQty : Quantity) :
    (b.inPlace s r newId newQty).Exact := by
  refine fun k a => ⟨he.indexed.inPlace hd hr newId newQty k a, ?_⟩
  rintro ⟨t, x, hx, rfl, rfl⟩
  cases mem_of_rewrite hd hr hx with
  | inl h =>
    obtain ⟨-, rfl⟩ := h
    simp [Book.inPlace]
  | inr hcase =>
    obtain ⟨hx', hne⟩ := hcase
    have hid : x.id ≠ r.id := fun h => hne (by rw [(he.unique hd hx' hr h).2])
    have hid' : x.id ≠ newId := fun h =>
      hnew.elim (fun h' => hid (h.trans h')) fun h' => h' ⟨t, x, hx', h⟩
    simpa [Book.inPlace, eraseId, hid, hid'] using (he _ _).mpr ⟨t, x, hx', rfl, rfl⟩

theorem Exact.modify (he : b.Exact) (hd : b.Distinct) {origId newId : OrderId}
    (hnew : newId = origId ∨ ¬ b.Rests newId) (newPrice : Price) (newQty : Quantity) :
    (b.modify origId newId newPrice newQty).Exact := by
  cases modify_cases hd he.indexed origId newId newPrice newQty with
  | inl h =>
    rwa [h.2]
  | inr h =>
    obtain ⟨s, r, hr, rfl, -, hcase⟩ := h
    cases hcase with
    | inl h =>
      rw [h.2.2]
      exact he.inPlace hd hr hnew newQty
    | inr h =>
      rw [h.2]
      exact (he.removed hd hr).rest (not_rests_removed he hd hr hnew)

end Exact

section Members
variable {t : Side} {x : Resting}

/-- What rests after a call is left of the new order, or rested before. -/
theorem mem_of_process {time : Timestamp} (hx : x ∈ (b.process o time).side t) :
    (t = o.side ∧ o.isMarket = false ∧ 0 < (b.execution o).left ∧
      x = ⟨o.ref, o.id, o.price, (b.execution o).left⟩) ∨
    ∃ r ∈ b.side t, x.Same r ∧ (0 < r.quantity → 0 < x.quantity) := by
  have hold (hx : x ∈ (b.matched o time).side t) :
      ∃ r ∈ b.side t, x.Same r ∧ (0 < r.quantity → 0 < x.quantity) := by
    obtain ⟨r, hr, hs, -, hq⟩ := mem_of_matched hx
    exact ⟨r, hr, hs, hq⟩
  cases process_cases b o time with
  | inl h =>
    obtain ⟨hm, hleft, h⟩ := h
    rw [h] at hx
    cases Represents.mem_rest.mp hx with
    | inl hx =>
      exact Or.inl ⟨hx.1, hm, hleft, hx.2⟩
    | inr hx =>
      exact Or.inr (hold hx)
  | inr h =>
    rw [h.2] at hx
    exact Or.inr (hold hx)

theorem mem_of_cancel (hd : b.Distinct) (hi : b.Indexed) {id : OrderId}
    (hx : x ∈ (b.cancel id).side t) : x ∈ b.side t := by
  cases cancel_cases hd hi id with
  | inl h =>
    rwa [h.2] at hx
  | inr h =>
    obtain ⟨s, r, -, -, -, h⟩ := h
    rw [h] at hx
    exact (Represents.mem_drop hx).1

theorem mem_of_modify (hd : b.Distinct) (hi : b.Indexed) {origId newId : OrderId}
    {newPrice : Price} {newQty : Quantity}
    (hx : x ∈ (b.modify origId newId newPrice newQty).side t) :
    (∃ r ∈ b.side t, r.id = origId ∧ x = ⟨r.ref, newId, newPrice, newQty⟩) ∨ x ∈ b.side t := by
  cases hk : b.index origId with
  | none =>
    rw [modify_unknown hk] at hx
    exact Or.inr hx
  | some a =>
    obtain ⟨s, r, hr, rfl, hid⟩ := hi origId a hk
    cases (mem_modify hd hi hr hk).mp hx with
    | inl hx =>
      obtain ⟨rfl, rfl⟩ := hx
      exact Or.inl ⟨r, hr, hid, rfl⟩
    | inr hx =>
      exact Or.inr hx.1

end Members

section Rests
variable {k : OrderId}

theorem rests_process {time : Timestamp} (h : (b.process o time).Rests k) :
    k = o.id ∨ b.Rests k := by
  obtain ⟨s, x, hx, rfl⟩ := h
  cases mem_of_process hx with
  | inl hx =>
    rw [hx.2.2.2]
    exact Or.inl rfl
  | inr hx =>
    obtain ⟨r, hr, hs, -⟩ := hx
    exact Or.inr ⟨s, r, hr, hs.2.1.symm⟩

theorem rests_cancel (hd : b.Distinct) (hi : b.Indexed) {id : OrderId}
    (h : (b.cancel id).Rests k) : b.Rests k := by
  obtain ⟨s, x, hx, rfl⟩ := h
  exact ⟨s, x, mem_of_cancel hd hi hx, rfl⟩

theorem rests_modify (hd : b.Distinct) (hi : b.Indexed) {origId newId : OrderId} {newPrice : Price}
    {newQty : Quantity} (h : (b.modify origId newId newPrice newQty).Rests k) :
    (k = newId ∧ b.Rests origId) ∨ b.Rests k := by
  obtain ⟨t, x, hx, rfl⟩ := h
  cases mem_of_modify hd hi hx with
  | inl hx =>
    obtain ⟨r, hr, hid, rfl⟩ := hx
    exact Or.inl ⟨rfl, t, r, hr, hid⟩
  | inr hx =>
    exact Or.inr ⟨t, x, hx, rfl⟩

/-- The old name of a renamed order does not rest. -/
theorem not_rests_renamed (he : b.Exact) (hd : b.Distinct) {origId newId : OrderId}
    (hne : newId ≠ origId) (newPrice : Price) (newQty : Quantity) :
    ¬ (b.modify origId newId newPrice newQty).Rests origId := by
  intro h
  cases hk : b.index origId with
  | none =>
    rw [modify_unknown hk] at h
    obtain ⟨s, r, hr, rfl⟩ := h
    have hr : b.index r.id = some r.ref := (he _ _).mpr ⟨s, r, hr, rfl, rfl⟩
    exact absurd (hk.symm.trans hr) (by simp)
  | some a =>
    obtain ⟨s, r, hr, rfl, hid⟩ := he.indexed origId a hk
    obtain ⟨t, x, hx, hxk⟩ := h
    cases (mem_modify hd he.indexed hr hk).mp hx with
    | inl hx =>
      obtain ⟨-, rfl⟩ := hx
      exact hne hxk
    | inr hx =>
      exact hx.2 (congrArg Resting.ref (he.unique hd hx.1 hr (hxk.trans hid.symm)).2)

end Rests

section Positive

def Positive (b : Book) : Prop := ∀ s, ∀ r ∈ b.side s, 0 < r.quantity

theorem Positive.acquire (hp : b.Positive) (id : OrderId) (p : Price) (q : Quantity) (s : Side)
    (m : Bool) : (b.acquire id p q s m).2.Positive := by
  simpa only [Positive, side_acquire] using hp

theorem Positive.process (hp : b.Positive) (o : Incoming) (time : Timestamp) :
    (b.process o time).Positive := by
  intro t x hx
  cases mem_of_process hx with
  | inl hx =>
    rw [hx.2.2.2]
    exact hx.2.2.1
  | inr hx =>
    obtain ⟨r, hr, -, hq⟩ := hx
    exact hq (hp t r hr)

theorem Positive.cancel (hp : b.Positive) (hd : b.Distinct) (hi : b.Indexed) (id : OrderId) :
    (b.cancel id).Positive := fun t x hx => hp t x (mem_of_cancel hd hi hx)

theorem Positive.modify (hp : b.Positive) (hd : b.Distinct) (hi : b.Indexed)
    (origId newId : OrderId) (newPrice : Price) {newQty : Quantity} (hq : 0 < newQty) :
    (b.modify origId newId newPrice newQty).Positive := by
  intro t x hx
  cases mem_of_modify hd hi hx with
  | inl hx =>
    obtain ⟨r, -, -, rfl⟩ := hx
    exact hq
  | inr hx =>
    exact hp t x hx

end Positive
end LobCity.Book
