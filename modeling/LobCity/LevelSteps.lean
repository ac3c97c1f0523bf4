import LobCity.Primitives

/-! The steps that edit a price level: rewriting an order where it stands, unlinking it,
dropping an emptied level, and resting an order at the tail of its level. -/
namespace LobCity
open Library

namespace Represents
variable {hole : Option (Side × Price)} {e : Engine} {hands : List Incoming} {b : Book}
  {s : Side} {r : Resting}

theorem mem_queue (hr : r ∈ b.side s) : r ∈ b.queue s r.price :=
  List.mem_filter.mpr ⟨hr, by simp⟩

theorem level_of_mem (h : Represents hole e hands b) (hr : r ∈ b.side s) :
    ∃ lvl, e.level? s r.price = some lvl ∧ e.levelAt s r.price = lvl ∧
      LevelRep e.heap r.price (b.queue s r.price) lvl := by
  cases hl : e.level? s r.price with
  | none =>
    have hq := mem_queue hr
    rw [h.empty s r.price hl] at hq
    simp at hq
  | some lvl => exact ⟨lvl, rfl, by simp [Engine.levelAt, hl], (h.level s _ lvl hl).1⟩

theorem heap_quantity (h : Represents hole e hands b) (hr : r ∈ b.side s) :
    (e.heap r.ref).quantity = r.quantity :=
  congrArg Order.quantity (h.cell s r hr)

theorem heap_id (h : Represents hole e hands b) (hr : r ∈ b.side s) :
    (e.heap r.ref).id = r.id :=
  congrArg Order.id (h.cell s r hr)

theorem heap_price (h : Represents hole e hands b) (hr : r ∈ b.side s) :
    (e.heap r.ref).price = r.price :=
  congrArg Order.price (h.cell s r hr)

theorem heap_side (h : Represents hole e hands b) (hr : r ∈ b.side s) :
    (e.heap r.ref).side = s :=
  congrArg Order.side (h.cell s r hr)

theorem queue_nodup (h : Represents hole e hands b) (s : Side) (p : Price) :
    (refs (b.queue s p)).Nodup :=
  (h.side_nodup s).sublist (List.filter_sublist.map _)

theorem queue_disjoint (h : Represents hole e hands b) {t t' : Side} {p p' : Price} {a : Addr}
    (ha : a ∈ refs (b.queue t p)) (ha' : a ∈ refs (b.queue t' p')) : t = t' ∧ p = p' := by
  obtain ⟨x, hx, hxa⟩ := List.mem_map.mp ha
  obtain ⟨y, hy, hya⟩ := List.mem_map.mp ha'
  obtain ⟨hx, hxp⟩ := List.mem_filter.mp hx
  obtain ⟨hy, hyp⟩ := List.mem_filter.mp hy
  obtain ⟨rfl, rfl⟩ := h.side_unique hx hy (hxa.trans hya.symm)
  exact ⟨rfl, (of_decide_eq_true hxp).symm.trans (of_decide_eq_true hyp)⟩

theorem ref_ne_of_mem_queue (h : Represents hole e hands b) (hr : r ∈ b.side s) {t : Side}
    {p : Price} (htp : ¬ (t = s ∧ p = r.price)) {x : Resting} (hx : x ∈ b.queue t p) :
    x.ref ≠ r.ref := by
  intro he
  have hmem : r.ref ∈ refs (b.queue t p) := he ▸ List.mem_map_of_mem hx
  exact htp (h.queue_disjoint hmem (List.mem_map_of_mem (mem_queue hr)))

section Rewrite

theorem refs_rewrite (a : Addr) (id : OrderId) (q : Quantity) (L : List Resting) :
    refs (L.map fun x => if x.ref = a then { x with id := id, quantity := q } else x) = refs L := by
  simp only [refs, List.map_map]
  refine List.map_congr_left fun x _ => ?_
  simp only [Function.comp]
  split <;> rfl

theorem queue_rewrite (a : Addr) (id : OrderId) (q : Quantity) (t : Side) (p : Price) :
    (b.rewrite s a id q).queue t p =
      if t = s then
        (b.queue t p).map fun x => if x.ref = a then { x with id := id, quantity := q } else x
      else b.queue t p := by
  unfold Book.queue Book.rewrite
  by_cases ht : t = s
  · subst ht
    rw [Book.setSide_self, if_pos rfl, List.filter_map]
    congr 1
    refine List.filter_congr fun x _ => ?_
    simp only [Function.comp]
    split <;> rfl
  · rw [Book.setSide_of_ne _ _ ht, if_neg ht]

theorem volume_rewrite {L : List Resting} (hL : (refs L).Nodup) (hr : r ∈ L) (id : OrderId)
    (q : Quantity) :
    volume (L.map fun x => if x.ref = r.ref then { x with id := id, quantity := q } else x) =
      volume L - (r.quantity - q) := by
  have hinj := List.inj_on_of_nodup_map hL
  have hs := sum_map_rewrite Resting.quantity
    (fun x => if x.ref = r.ref then { x with id := id, quantity := q } else x) r (L := L)
    (fun x hx hne => if_neg fun he => hne (hinj hx hr he)) hr (List.Nodup.of_map _ hL)
  simpa [volume] using hs

theorem refs_side_rewrite (a : Addr) (id : OrderId) (q : Quantity) (t : Side) :
    refs ((b.rewrite s a id q).side t) = refs (b.side t) := by
  by_cases ht : t = s
  · subst ht
    rw [Book.rewrite, Book.setSide_self, refs_rewrite]
  · rw [Book.rewrite, Book.setSide_of_ne _ _ ht]

theorem sorted_rewrite {t : Side} (h : Book.Sorted t (b.side t)) (a : Addr) (id : OrderId)
    (q : Quantity) : Book.Sorted t ((b.rewrite s a id q).side t) := by
  by_cases ht : t = s
  · subst ht
    have hprice (x : Resting) :
        (if x.ref = a then { x with id := id, quantity := q } else x).price = x.price := by
      split <;> rfl
    rw [Book.rewrite, Book.setSide_self]
    refine List.pairwise_map.mpr (h.imp fun {x y} hxy => ?_)
    rwa [hprice, hprice]
  · rwa [Book.rewrite, Book.setSide_of_ne _ _ ht]

theorem queue_rewrite_of_ne (h : Represents hole e hands b) (hr : r ∈ b.side s) (id : OrderId)
    (q : Quantity) {t : Side} {p : Price} (htp : ¬ (t = s ∧ p = r.price)) :
    (b.rewrite s r.ref id q).queue t p = b.queue t p := by
  rw [queue_rewrite]
  split_ifs with ht
  · refine (List.map_congr_left fun x hx => ?_).trans (List.map_id _)
    exact if_neg (h.ref_ne_of_mem_queue hr htp hx)
  · rfl

section Cell
variable {id : OrderId} {q : Quantity} {g : Heap}

theorem cell_rewrite (h : Represents hole e hands b) (hr : r ∈ b.side s)
    (hg : g = Function.update e.heap r.ref { e.heap r.ref with id := id, quantity := q })
    {t : Side} {x : Resting} (hx : x ∈ (b.rewrite s r.ref id q).side t) :
    (g x.ref).unlink = x.data t := by
  by_cases ht : t = s
  · subst ht
    rw [Book.rewrite, Book.setSide_self] at hx
    obtain ⟨y, hy, rfl⟩ := List.mem_map.mp hx
    by_cases hyr : y.ref = r.ref
    · have hc := h.cell t y hy
      rw [hyr] at hc
      simp only [hyr, if_true, hg, Function.update_self]
      simp only [Order.unlink, Resting.data, Order.new, Order.mk.injEq] at hc ⊢
      simp [hc]
    · simp only [hyr, if_false, hg, Function.update_of_ne hyr]
      exact h.cell t y hy
  · rw [Book.rewrite, Book.setSide_of_ne _ _ ht] at hx
    have hne : x.ref ≠ r.ref := fun he => ht (h.side_unique hx hr he).1
    rw [hg, Function.update_of_ne hne]
    exact h.cell t x hx

theorem levelRep_rewrite (h : Represents hole e hands b) (hr : r ∈ b.side s) {lvl : PriceLevel}
    (hrep : LevelRep e.heap r.price (b.queue s r.price) lvl) (hn : g.next = e.heap.next)
    (hp : g.prev = e.heap.prev) :
    LevelRep g r.price ((b.rewrite s r.ref id q).queue s r.price)
      { lvl with totalVolume := lvl.totalVolume - (r.quantity - q) } := by
  rw [queue_rewrite, if_pos rfl]
  constructor
  · exact hrep.price
  · have hc := hrep.chained.congr (fun a _ => congrFun hn a) fun a _ => congrFun hp a
    rw [refs_rewrite]
    exact ⟨hc.head, hc.tail, hc.links, hc.nodup⟩
  · rw [volume_rewrite (h.queue_nodup _ _) (mem_queue hr), hrep.totalVolume]

end Cell

/-- Setting id and quantity of a resting order, with the level total corrected by the
difference, rewrites it in its place. -/
theorem rewrite (h : Represents hole e hands b) (hr : r ∈ b.side s) (id : OrderId)
    (q : Quantity) {g : Heap}
    (hg : g = Function.update e.heap r.ref { e.heap r.ref with id := id, quantity := q }) :
    Represents hole (({ e with heap := g } : Engine).subVolume s r.price (r.quantity - q)) hands
      (b.rewrite s r.ref id q) := by
  have hn : g.next = e.heap.next := by
    funext a; by_cases ha : a = r.ref <;> simp [Heap.next, hg, ha]
  have hp : g.prev = e.heap.prev := by
    funext a; by_cases ha : a = r.ref <;> simp [Heap.prev, hg, ha]
  obtain ⟨lvl, hlvl, hat, hrep⟩ := h.level_of_mem hr
  set e' := ({ e with heap := g } : Engine).subVolume s r.price (r.quantity - q) with he'
  have hheap : e'.heap = g := by simp [he', Engine.subVolume]
  have hlev (t : Side) (p : Price) : e'.level? t p = if t = s ∧ p = r.price then
      some { lvl with totalVolume := lvl.totalVolume - (r.quantity - q) } else e.level? t p := by
    rw [he', Engine.subVolume, Engine.level?_putLevel, ← hat]
    rfl
  refine { sorted := fun t => sorted_rewrite (h.sorted t) _ _ _
           cell := fun t x hx => hheap ▸ h.cell_rewrite hr hg hx
           hand := ?_, level := ?_, empty := ?_
           index := by simpa [he', Engine.subVolume] using h.index
           trades := by simpa [he', Engine.subVolume] using h.trades
           free := by simpa [he', Engine.subVolume] using h.free
           allocated := by simpa [he', Engine.subVolume] using h.allocated
           owned := by simpa [Book.cells, refs_side_rewrite] using h.owned }
  · intro o ho
    have hne : o.ref ≠ r.ref := fun he => h.side_ne_hand hr ho he.symm
    rw [hheap, hg, Function.update_of_ne hne]
    exact h.hand o ho
  · intro t p l hl
    rw [hlev] at hl
    rw [hheap]
    split_ifs at hl with htp
    · obtain ⟨rfl, rfl⟩ := htp
      obtain rfl := Option.some.inj hl
      have hne : (b.rewrite t r.ref id q).queue t r.price ≠ [] := by
        rw [queue_rewrite, if_pos rfl]
        simpa using List.ne_nil_of_mem (mem_queue hr)
      exact ⟨h.levelRep_rewrite hr hrep hn hp, Or.inl hne⟩
    · obtain ⟨h1, h2⟩ := h.level t p l hl
      rw [h.queue_rewrite_of_ne hr id q htp]
      have hc := h1.chained.congr (fun a _ => congrFun hn a) fun a _ => congrFun hp a
      exact ⟨⟨h1.price, hc, h1.totalVolume⟩, h2⟩
  · intro t p hl
    rw [hlev] at hl
    split_ifs at hl with htp
    rw [queue_rewrite, h.empty t p hl]
    simp

end Rewrite
section Remove

theorem queue_split (h : Represents hole e hands b) (hr : r ∈ b.side s) :
    ∃ A B, b.queue s r.price = A ++ r :: B ∧
      (b.queue s r.price).filter (fun x => x.ref ≠ r.ref) = A ++ B := by
  obtain ⟨A, B, hAB⟩ := List.append_of_mem (mem_queue hr)
  refine ⟨A, B, hAB, ?_⟩
  have hn := h.queue_nodup s r.price
  rw [hAB] at hn ⊢
  simp only [refs, List.map_append, List.map_cons] at hn
  obtain ⟨-, hB, hd⟩ := List.nodup_append.mp hn
  have hA : ∀ x ∈ A, x.ref ≠ r.ref := fun x hx =>
    hd x.ref (List.mem_map_of_mem hx) r.ref (by simp)
  have hB : ∀ x ∈ B, x.ref ≠ r.ref := fun x hx he =>
    (List.nodup_cons.mp hB).1 (he ▸ List.mem_map_of_mem hx)
  rw [List.filter_append, List.filter_cons_of_neg (by simp),
    List.filter_eq_self.mpr (by simpa using hA), List.filter_eq_self.mpr (by simpa using hB)]

theorem queue_drop (a : Addr) (t : Side) (p : Price) :
    (b.drop s a).queue t p =
      if t = s then (b.queue t p).filter fun x => x.ref ≠ a else b.queue t p := by
  unfold Book.queue Book.drop
  by_cases ht : t = s
  · subst ht
    rw [Book.setSide_self, if_pos rfl, List.filter_comm]
  · rw [Book.setSide_of_ne _ _ ht, if_neg ht]

theorem mem_drop {a : Addr} {t : Side} {x : Resting} (hx : x ∈ (b.drop s a).side t) :
    x ∈ b.side t ∧ (t = s → x.ref ≠ a) := by
  unfold Book.drop at hx
  by_cases ht : t = s
  · subst ht
    rw [Book.setSide_self] at hx
    simpa using List.mem_filter.mp hx
  · rw [Book.setSide_of_ne _ _ ht] at hx
    exact ⟨hx, fun h => absurd h ht⟩

theorem count_drop (h : Represents hole e hands b) (hr : r ∈ b.side s) (t : Side) (a : Addr) :
    (refs ((b.drop s r.ref).side t)).count a + (if t = s ∧ a = r.ref then 1 else 0) =
      (refs (b.side t)).count a := by
  unfold Book.drop
  by_cases ht : t = s
  · subst ht
    rw [Book.setSide_self]
    have hm : refs ((b.side t).filter fun x => x.ref ≠ r.ref) =
        (refs (b.side t)).filter fun x => x ≠ r.ref := by
      rw [refs, refs, List.filter_map]; rfl
    rw [hm]
    by_cases ha : a = r.ref
    · subst ha
      have hc : (refs (b.side t)).count r.ref = 1 :=
        List.count_eq_one_of_mem (h.side_nodup t) (List.mem_map_of_mem hr)
      rw [hc, if_pos ⟨rfl, rfl⟩, List.count_eq_zero.mpr (by simp)]
    · rw [List.count_filter (by simpa using ha), if_neg (fun hc => ha hc.2)]
      rfl
  · rw [Book.setSide_of_ne _ _ ht, if_neg (fun hc => ht hc.1)]
    rfl

theorem cells_drop_perm (h : Represents hole e hands b) (hr : r ∈ b.side s) {o : Incoming}
    (ho : o.ref = r.ref) : ((b.drop s r.ref).cells (o :: hands)).Perm (b.cells hands) := by
  rw [List.perm_iff_count]
  intro a
  have h1 := h.count_drop hr .buy a
  have h2 := h.count_drop hr .sell a
  simp only [Book.cells, List.count_append, Book.free_drop, List.map_cons, List.count_cons,
    beq_iff_eq, ho]
  by_cases ha : a = r.ref
  · subst ha
    cases s <;> simp at h1 h2 ⊢ <;> omega
  · simp only [ha, and_false, if_false] at h1 h2
    rw [if_neg (fun hc => ha hc.symm)]
    omega

theorem sorted_drop {t : Side} (h : Book.Sorted t (b.side t)) (a : Addr) :
    Book.Sorted t ((b.drop s a).side t) := by
  by_cases ht : t = s
  · subst ht
    rw [Book.drop, Book.setSide_self]
    exact h.filter _
  · rwa [Book.drop, Book.setSide_of_ne _ _ ht]

theorem queue_drop_of_ne (h : Represents hole e hands b) (hr : r ∈ b.side s) {t : Side} {p : Price}
    (htp : ¬ (t = s ∧ p = r.price)) : (b.drop s r.ref).queue t p = b.queue t p := by
  rw [queue_drop]
  split_ifs with ht
  · exact List.filter_eq_self.mpr fun x hx => decide_eq_true (h.ref_ne_of_mem_queue hr htp hx)
  · rfl

/-- `removeOrder` on its own level takes a resting order off the book, into hands. The
level stays in the map, empty if this was its last order. -/
theorem remove (h : Represents hole e hands b) (hr : r ∈ b.side s)
    (hh : hole = none ∨ hole = some (s, r.price)) :
    Represents (some (s, r.price)) (e.removeFrom s r.price r.ref)
      (⟨r.ref, r.id, r.price, r.quantity, s, false⟩ :: hands) (b.drop s r.ref) := by
  obtain ⟨lvl, hlvl, hat, hrep⟩ := h.level_of_mem hr
  obtain ⟨A, B, hAB, hfil⟩ := h.queue_split hr
  have hrefs : refs (b.queue s r.price) = refs A ++ r.ref :: refs B := by
    rw [hAB, refs, List.map_append, List.map_cons]
    rfl
  have hc : Chained e.heap lvl (refs A ++ r.ref :: refs B) := hrefs ▸ hrep.chained
  have hframe (a : Addr) (ha : a ∉ refs (b.queue s r.price)) :
      (lvl.removeOrder r.ref e.heap).2 a = e.heap a :=
    PriceLevel.removeOrder_frame hc (hrefs ▸ ha)
  set e' := e.removeFrom s r.price r.ref with he'
  have hheap : e'.heap = (lvl.removeOrder r.ref e.heap).2 := by simp [he', Engine.removeFrom, hat]
  have hlev (t : Side) (p : Price) : e'.level? t p =
      if t = s ∧ p = r.price then some (lvl.removeOrder r.ref e.heap).1 else e.level? t p := by
    rw [← Engine.level?_putLevel, ← hat]
    rfl
  refine { sorted := fun t => sorted_drop (h.sorted t) _
           cell := ?_, hand := ?_, level := ?_, empty := ?_
           index := by simpa [he', Engine.removeFrom] using h.index
           trades := by simpa [he', Engine.removeFrom] using h.trades
           free := by simpa [he', Engine.removeFrom] using h.free
           allocated := by simpa [he', Engine.removeFrom] using h.allocated
           owned := (h.cells_drop_perm hr rfl).trans h.owned }
  · intro t x hx
    rw [hheap, PriceLevel.unlink_removeOrder]
    exact h.cell t x (mem_drop hx).1
  · intro o ho
    rw [hheap]
    cases List.mem_cons.mp ho with
    | inl heq =>
      obtain rfl := heq
      rw [PriceLevel.removeOrder_self hc, h.cell s r hr]
      rfl
    | inr ho =>
      rw [hframe _ fun hm => h.not_mem_refs ho s (queue_refs_subset s _ hm)]
      exact h.hand o ho
  · intro t p l hl
    rw [hlev] at hl
    rw [hheap]
    split_ifs at hl with htp
    · obtain ⟨rfl, rfl⟩ := htp
      obtain rfl := Option.some.inj hl
      rw [queue_drop, if_pos rfl, hfil]
      refine ⟨⟨?_, ?_, ?_⟩, Or.inr rfl⟩
      · exact PriceLevel.price_removeOrder.trans hrep.price
      · rw [refs, List.map_append]
        exact PriceLevel.removeOrder_chained hc
      · rw [PriceLevel.totalVolume_removeOrder, hrep.totalVolume, hAB, h.heap_quantity hr]
        simp only [volume, List.map_append, List.map_cons, List.sum_append, List.sum_cons]
        grind
    · obtain ⟨h1, h2⟩ := h.level t p l hl
      rw [h.queue_drop_of_ne hr htp]
      refine ⟨h1.congr fun a ha => hframe a fun hm => htp (h.queue_disjoint ha hm), ?_⟩
      refine h2.imp id fun h2 => ?_
      cases hh with
      | inl hh =>
        rw [hh] at h2
        simp at h2
      | inr hh =>
        exact hh ▸ h2
  · intro t p hl
    rw [hlev] at hl
    split_ifs at hl with htp
    rw [queue_drop, h.empty t p hl]
    simp

theorem head_eq_none {p : Price} (h : Represents hole e hands b) :
    (e.levelAt s p).head = none ↔ b.queue s p = [] := by
  unfold Engine.levelAt
  cases hl : e.level? s p with
  | none => simp [PriceLevel.new, h.empty s p hl]
  | some lvl =>
    rw [Option.getD_some, (h.level s p lvl hl).1.chained.head]
    simp [refs]

theorem eraseIfEmpty {p : Price} (h : Represents (some (s, p)) e hands b) :
    Represents none (e.eraseIfEmpty s p) hands b := by
  have hkeep : ∀ t q lvl, e.level? t q = some lvl → (t, q) ≠ (s, p) → b.queue t q ≠ [] := by
    intro t q lvl hl hne
    exact (h.level t q lvl hl).2.resolve_right fun hc => hne (Option.some.inj hc).symm
  unfold Engine.eraseIfEmpty
  by_cases hq : b.queue s p = []
  · rw [if_pos (h.head_eq_none.mpr hq)]
    refine ⟨h.sorted, ?_, ?_, ?_, ?_, ?_, ?_, ?_, ?_, h.owned⟩
    · simpa using h.cell
    · simpa using h.hand
    · intro t q lvl hl
      rw [Engine.level?_eraseLevel] at hl
      split_ifs at hl with htq
      rw [Engine.heap_eraseLevel]
      refine ⟨(h.level t q lvl hl).1, Or.inl (hkeep t q lvl hl fun hc => htq ?_)⟩
      exact ⟨(Prod.mk.inj hc).1, (Prod.mk.inj hc).2⟩
    · intro t q hl
      rw [Engine.level?_eraseLevel] at hl
      split_ifs at hl with htq
      · rw [htq.1, htq.2, hq]
      · exact h.empty t q hl
    · simpa using h.index
    · simpa using h.trades
    · simpa using h.free
    · simpa using h.allocated
  · rw [if_neg fun hc => hq (h.head_eq_none.mp hc)]
    refine { h with level := fun t q lvl hl => ⟨(h.level t q lvl hl).1, Or.inl ?_⟩ }
    by_cases htq : (t, q) = (s, p)
    · obtain ⟨rfl, rfl⟩ := Prod.mk.inj htq
      exact hq
    · exact hkeep t q lvl hl htq

end Remove

section Rest
variable {o : Incoming}

theorem queue_rest (hs : Book.Sorted o.side (b.side o.side)) (t : Side) (p : Price) :
    (b.rest o).queue t p =
      if t = o.side ∧ p = o.price then b.queue t p ++ [o.resting] else b.queue t p := by
  unfold Book.queue Book.rest
  by_cases ht : t = o.side
  · subst ht
    simp only [Book.setSide_self, true_and]
    by_cases hp : p = o.price
    · subst hp
      rw [if_pos rfl]
      exact Book.enqueue_filter_self (r := o.resting) hs
    · rw [if_neg hp]
      exact Book.enqueue_filter_of_not (by simpa using fun hc => hp hc.symm) _
  · simp only [Book.setSide_of_ne _ _ ht, ht, false_and, if_false]

theorem mem_rest {t : Side} {x : Resting} :
    x ∈ (b.rest o).side t ↔ (t = o.side ∧ x = o.resting) ∨ x ∈ b.side t := by
  unfold Book.rest
  by_cases ht : t = o.side
  · subst ht
    simp [Book.setSide_self, Book.mem_enqueue]
  · simp [Book.setSide_of_ne _ _ ht, ht]

theorem sorted_rest {t : Side} (h : Book.Sorted t (b.side t)) :
    Book.Sorted t ((b.rest o).side t) := by
  by_cases ht : t = o.side
  · subst ht
    simpa only [Book.rest, Book.setSide_self] using Book.enqueue_sorted h
  · simpa only [Book.rest, Book.setSide_of_ne _ _ ht] using h

theorem count_rest (t : Side) (a : Addr) :
    (refs ((b.rest o).side t)).count a =
      (refs (b.side t)).count a + if t = o.side ∧ o.ref = a then 1 else 0 := by
  by_cases ht : t = o.side
  · subst ht
    have hperm : (refs ((b.rest o).side o.side)).Perm (o.ref :: refs (b.side o.side)) := by
      simpa [Book.rest, Book.setSide_self, refs, Incoming.resting] using
        (Book.enqueue_perm (s := o.side) (r := o.resting) (L := b.side o.side)).map Resting.ref
    rw [hperm.count_eq, List.count_cons]
    simp
  · simp [Book.rest, Book.setSide_of_ne _ _ ht, ht]

theorem cells_rest_perm : ((b.rest o).cells hands).Perm (b.cells (o :: hands)) := by
  rw [List.perm_iff_count]
  intro a
  have hf : (b.rest o).free = b.free := rfl
  simp only [Book.cells, List.count_append, List.map_cons, List.count_cons, beq_iff_eq, count_rest,
    hf]
  cases o.side <;> by_cases ha : o.ref = a <;> simp [ha] <;> omega

/-- The level that `try_emplace` finds or makes. -/
theorem levelRep_getD (h : Represents none e hands b) (s : Side) (p : Price) :
    LevelRep e.heap p (b.queue s p) ((e.level? s p).getD (PriceLevel.new p)) := by
  cases hl : e.level? s p with
  | none =>
    rw [h.empty s p hl]
    exact ⟨rfl, ⟨rfl, rfl, trivial, List.nodup_nil⟩, rfl⟩
  | some l => exact (h.level s p l hl).1

/-- `addOrder` rests a limit order at the tail of its own price. -/
theorem rest (h : Represents none e (o :: hands) b) (hm : o.isMarket = false) :
    Represents none (e.addOrder o.ref) hands (b.rest o) := by
  have hcell : e.heap o.ref = o.order := h.hand o (by simp)
  have hrep := h.levelRep_getD o.side o.price
  set lvl := (e.level? o.side o.price).getD (PriceLevel.new o.price) with hlvl
  have hn : (e.heap o.ref).next = none := by rw [hcell]; rfl
  have hp : (e.heap o.ref).prev = none := by rw [hcell]; rfl
  have hout (t : Side) (p : Price) : o.ref ∉ refs (b.queue t p) := fun hc =>
    h.not_mem_refs (by simp) t (queue_refs_subset t p hc)
  have hframe (a : Addr) (ha : a ∉ refs (b.queue o.side o.price)) (hne : a ≠ o.ref) :
      (lvl.appendOrder o.ref e.heap).2 a = e.heap a :=
    PriceLevel.appendOrder_frame hrep.chained hp ha hne
  have he : e.addOrder o.ref =
      { ((e.setId o.id o.ref).putLevel o.side o.price (lvl.appendOrder o.ref e.heap).1) with
        heap := (lvl.appendOrder o.ref e.heap).2 } := by
    unfold Engine.addOrder
    simp only [hcell]
    rfl
  have hheap : (e.addOrder o.ref).heap = (lvl.appendOrder o.ref e.heap).2 := by rw [he]
  have hlev (t : Side) (q : Price) : (e.addOrder o.ref).level? t q =
      if t = o.side ∧ q = o.price then some (lvl.appendOrder o.ref e.heap).1
      else e.level? t q := by
    rw [he]
    exact Engine.level?_putLevel _ _ _ _ _ _
  refine { sorted := fun t => sorted_rest (h.sorted t)
           cell := ?_, hand := ?_, level := ?_, empty := ?_
           index := by rw [he]; simp [Engine.setId, Book.rest, h.index]
           trades := by rw [he]; simpa [Engine.setId, Book.rest] using h.trades
           free := by rw [he]; simpa [Engine.setId, Book.rest] using h.free
           allocated := by rw [he]; simpa [Engine.setId, Book.rest] using h.allocated
           owned := cells_rest_perm.trans h.owned }
  · intro t x hx
    rw [hheap, PriceLevel.unlink_appendOrder]
    cases mem_rest.mp hx with
    | inl h =>
      obtain ⟨rfl, rfl⟩ := h
      rw [show o.resting.ref = o.ref from rfl, hcell]
      simp [Incoming.order, Order.new, Order.unlink, Resting.data, Incoming.resting, hm]
    | inr hx =>
      exact h.cell t x hx
  · intro x hx
    have hne : x.ref ≠ o.ref := fun hc =>
      (List.nodup_cons.mp h.hand_unique).1 (hc ▸ List.mem_map_of_mem hx)
    have hq : x.ref ∉ refs (b.queue o.side o.price) := fun hc =>
      h.not_mem_refs (o := x) (by simp [hx]) o.side (queue_refs_subset _ _ hc)
    rw [hheap, hframe _ hq hne]
    exact h.hand x (by simp [hx])
  · intro t q l hl
    rw [hlev] at hl
    rw [hheap, queue_rest (h.sorted _)]
    split_ifs at hl with htq
    · obtain ⟨rfl, rfl⟩ := htq
      obtain rfl := Option.some.inj hl
      rw [if_pos ⟨rfl, rfl⟩]
      refine ⟨⟨?_, ?_, ?_⟩, Or.inl (by simp)⟩
      · exact PriceLevel.price_appendOrder.trans hrep.price
      · have hadd := PriceLevel.appendOrder_chained hrep.chained (hout _ _) hn hp
        simpa [refs, Incoming.resting] using hadd
      · rw [PriceLevel.totalVolume_appendOrder, hrep.totalVolume, hcell]
        simp [volume, Incoming.resting, Incoming.order, Order.new]
    · rw [if_neg htq]
      obtain ⟨h1, h2⟩ := h.level t q l hl
      refine ⟨h1.congr fun a ha => hframe a (fun hm => htq (h.queue_disjoint ha hm)) fun hc => ?_, h2⟩
      exact hout t q (hc ▸ ha)
  · intro t q hl
    rw [hlev] at hl
    split_ifs at hl with htq
    rw [queue_rest (h.sorted _), if_neg htq]
    exact h.empty t q hl

end Rest
end Represents
end LobCity
