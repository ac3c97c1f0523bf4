import LobCity.Represents

/-! Each primitive of the engine against its counterpart on the sequence book. -/
namespace LobCity
open Library

theorem sum_map_rewrite {α : Type*} (f : α → Quantity) (g : α → α) (a : α) {L : List α}
    (hg : ∀ x ∈ L, x ≠ a → g x = x) (ha : a ∈ L) (hL : L.Nodup) :
    ((L.map g).map f).sum = (L.map f).sum - (f a - f (g a)) := by
  induction L with
  | nil => simp at ha
  | cons x L ih =>
    obtain ⟨hx, hL⟩ := List.nodup_cons.mp hL
    simp only [List.map_cons, List.sum_cons]
    cases List.mem_cons.mp ha with
    | inl h =>
      obtain rfl := h
      have hrest : L.map g = L := by
        refine (List.map_congr_left fun y hy => hg y (by simp [hy]) ?_).trans (List.map_id L)
        rintro rfl
        exact hx hy
      rw [hrest]
      grind
    | inr ha =>
      have hxa : x ≠ a := by rintro rfl; exact hx ha
      rw [ih (fun y hy => hg y (by simp [hy])) ha hL, hg x (by simp) hxa]
      grind

namespace LevelRep
variable {h h' : Heap} {p : Price} {Q : List Resting} {lvl : PriceLevel}

theorem congr (hl : LevelRep h p Q lvl) (hh : ∀ a ∈ refs Q, h' a = h a) :
    LevelRep h' p Q lvl :=
  ⟨hl.price, hl.chained.congr (fun a ha => congrArg Order.next (hh a ha))
    (fun a ha => congrArg Order.prev (hh a ha)), hl.totalVolume⟩

end LevelRep

namespace Represents
variable {hole hole' : Option (Side × Price)} {e : Engine} {hands hands' : List Incoming} {b : Book}

theorem mono (h : Represents none e hands b) : Represents hole e hands b :=
  { h with level := fun s p lvl hl => ⟨(h.level s p lvl hl).1,
      Or.inl ((h.level s p lvl hl).2.resolve_right (by simp))⟩ }

theorem perm_hands (h : Represents hole e hands b) (hp : hands.Perm hands') :
    Represents hole e hands' b :=
  { h with
    hand := fun o ho => h.hand o (hp.mem_iff.mpr ho)
    owned := ((hp.map Incoming.ref).symm.append_left _).trans h.owned }

theorem eraseId (h : Represents hole e hands b) (k : OrderId) :
    Represents hole (e.eraseId k) hands (b.eraseId k) :=
  { h with index := by simp [Engine.eraseId, Book.eraseId, h.index] }

theorem setId (h : Represents hole e hands b) (k : OrderId) (a : Addr) :
    Represents hole (e.setId k a) hands { b with index := Function.update b.index k (some a) } :=
  { h with index := by simp [Engine.setId, h.index] }

theorem recordTrade (h : Represents hole e hands b) (buyId sellId : OrderId) (p : Price)
    (q : Quantity) (t : Timestamp) :
    Represents hole (e.recordTrade buyId sellId p q t) hands
      { b with trades := b.trades ++ [⟨buyId, sellId, p, q, t⟩] } :=
  { h with trades := by simp [Engine.recordTrade, h.trades] }

theorem publish (h : Represents hole e hands b) (rb : RingBufferBBO) :
    Represents hole { e with buffer := rb } hands b := { h with }

theorem not_mem_refs (h : Represents hole e hands b) {o : Incoming} (ho : o ∈ hands) (s : Side) :
    o.ref ∉ refs (b.side s) := by
  intro hm
  obtain ⟨r, hr, he⟩ := List.mem_map.mp hm
  exact h.side_ne_hand hr ho he

theorem queue_refs_subset (s : Side) (p : Price) {a : Addr} (ha : a ∈ refs (b.queue s p)) :
    a ∈ refs (b.side s) := by
  obtain ⟨r, hr, rfl⟩ := List.mem_map.mp ha
  exact List.mem_map_of_mem (List.mem_filter.mp hr).1

/-- Cells that neither rest nor are in hands may hold anything. -/
theorem heapFrame (h : Represents hole e hands b) {g : Heap}
    (hs : ∀ s, ∀ a ∈ refs (b.side s), g a = e.heap a)
    (hh : ∀ o ∈ hands, g o.ref = e.heap o.ref) :
    Represents hole { e with heap := g } hands b :=
  { h with
    cell := fun s r hr => by simpa [hs s r.ref (List.mem_map_of_mem hr)] using h.cell s r hr
    hand := fun o ho => (hh o ho).trans (h.hand o ho)
    level := fun s p lvl hl => ⟨(h.level s p lvl hl).1.congr
      fun a ha => hs s a (queue_refs_subset s p ha), (h.level s p lvl hl).2⟩ }

theorem updateHand (o o' : Incoming) (h : Represents hole e (o :: hands) b)
    (hr : o'.ref = o.ref) :
    Represents hole { e with heap := Function.update e.heap o.ref o'.order } (o' :: hands) b := by
  have hkeep : ∀ s, ∀ a ∈ refs (b.side s),
      Function.update e.heap o.ref o'.order a = e.heap a := fun s a ha =>
    Function.update_of_ne (fun he => h.not_mem_refs (by simp) s (he ▸ ha)) _ _
  refine { h with cell := ?_, hand := ?_, level := ?_, owned := ?_ }
  · intro s r hr
    simpa [hkeep s r.ref (List.mem_map_of_mem hr)] using h.cell s r hr
  · intro x hx
    cases List.mem_cons.mp hx with
    | inl h =>
      obtain rfl := h
      simp [hr]
    | inr hx =>
      have hne : x.ref ≠ o.ref := by
        intro he
        have hn := (List.nodup_cons.mp h.hand_unique).1
        exact hn (he ▸ List.mem_map_of_mem hx)
      simpa [hne] using h.hand x (by simp [hx])
  · intro s p lvl hl
    obtain ⟨h1, h2⟩ := h.level s p lvl hl
    exact ⟨h1.congr fun a ha => hkeep s a (queue_refs_subset s p ha), h2⟩
  · simpa [Book.cells, hr] using h.owned

theorem release (o : Incoming) (h : Represents hole e (o :: hands) b) :
    Represents hole (e.release o.ref) hands (b.release o.ref) := by
  have hc : e.heap o.ref = o.order := h.hand o (by simp)
  have hsame : (e.release o.ref).heap = e.heap := by
    funext x
    by_cases hx : x = o.ref
    · simp [Engine.release, OrderPool.release, Heap.setNext, Heap.setPrev, hx, hc, Incoming.order,
        Order.new]
    · simp [Engine.release, OrderPool.release, Heap.setNext, Heap.setPrev, hx]
  have hout : Represents hole { e with freeList := o.ref :: e.freeList } hands (b.release o.ref) :=
    { h with
      hand := fun x hx => h.hand x (by simp [hx])
      free := by simp [Book.release, h.free]
      owned := by
        refine List.Perm.trans ?_ h.owned
        simp only [Book.cells, Book.release, List.map_cons]
        rw [List.perm_iff_count]
        intro a
        simp only [List.count_append, List.count_cons]
        omega }
  have he : e.release o.ref = { e with freeList := o.ref :: e.freeList } := by
    have : e.release o.ref =
        { e with freeList := o.ref :: e.freeList, heap := (e.release o.ref).heap } := rfl
    rw [this, hsame]
  rw [he]
  exact hout

def Outside (b : Book) (hands : List Incoming) (a : Addr) : Prop :=
  (∀ s, a ∉ refs (b.side s)) ∧ ∀ o ∈ hands, o.ref ≠ a

theorem outside_of_not_mem_cells {a : Addr} (ha : a ∉ b.cells hands) : Outside b hands a := by
  refine ⟨fun s hm => ha ?_, fun o ho he => ha ?_⟩
  · obtain ⟨r, hr, rfl⟩ := List.mem_map.mp hm
    exact mem_cells_of_side hr
  · rw [← he]
    exact List.mem_append_right _ (List.mem_map_of_mem ho)

theorem outside_of_mem_free (h : Represents hole e hands b) {a : Addr} (ha : a ∈ b.free) :
    Outside b hands a := by
  have hfree : 0 < b.free.count a := List.count_pos_iff.mpr ha
  have hcount := h.count_cells a
  refine ⟨fun s hm => ?_, fun o ho he => ?_⟩
  · have hpos := List.count_pos_iff.mpr hm
    cases s <;> split at hcount <;> omega
  · have hpos : 0 < (hands.map Incoming.ref).count a :=
      List.count_pos_iff.mpr (he ▸ List.mem_map_of_mem ho)
    split at hcount <;> omega

theorem updateOutside (h : Represents hole e hands b) {a : Addr} (ha : Outside b hands a)
    (x : Order) : Represents hole { e with heap := Function.update e.heap a x } hands b := by
  refine h.heapFrame (fun s c hc => ?_) fun o ho => Function.update_of_ne (ha.2 o ho) _ _
  have hne : c ≠ a := fun he => ha.1 s (by rwa [he] at hc)
  exact Function.update_of_ne hne _ _

theorem acquire (h : Represents hole e hands b) (id : OrderId) (p : Price) (q : Quantity)
    (s : Side) (m : Bool) :
    (e.acquire id p q s m).1 = (b.acquire id p q s m).1.ref ∧
      Represents hole (e.acquire id p q s m).2 ((b.acquire id p q s m).1 :: hands)
        (b.acquire id p q s m).2 := by
  have hlen : e.allAllocated.length = b.allocated := by simp [h.allocated]
  cases hf : b.free with
  | nil =>
    -- a cell beyond everything allocated so far
    have hnew : b.allocated ∉ b.cells hands := fun hm =>
      Nat.lt_irrefl _ (List.mem_range.mp (h.owned.mem_iff.mp hm))
    have hframe := h.updateOutside (outside_of_not_mem_cells hnew) (Order.new id p q s m)
    have hef : e.freeList = [] := h.free.trans hf
    simp only [Engine.acquire, OrderPool.acquire, Book.acquire, hf, hef, hlen]
    refine ⟨trivial, { hframe with
      hand := fun o ho => ?_, free := rfl, allocated := ?_, owned := ?_ }⟩
    · cases List.mem_cons.mp ho with
      | inl h =>
        obtain rfl := h
        simp [Incoming.order]
      | inr ho =>
        exact hframe.hand o ho
    · simp [h.allocated, List.range_succ]
    · have hp := h.owned.cons b.allocated
      refine List.Perm.trans ?_ (hp.trans ?_)
      · rw [List.perm_iff_count]
        intro a
        simp only [Book.cells, hf, List.map_cons, List.count_append, List.count_cons]
        omega
      · rw [List.range_succ]
        exact (List.perm_append_singleton _ _).symm
  | cons a rest =>
    have hfree : a ∈ b.free := by simp [hf]
    have hframe := h.updateOutside (h.outside_of_mem_free hfree) (Order.new id p q s m)
    have hef : e.freeList = a :: rest := h.free.trans hf
    simp only [Engine.acquire, OrderPool.acquire, Book.acquire, hf, hef]
    refine ⟨trivial, { hframe with
      hand := fun o ho => ?_, free := rfl, owned := ?_ }⟩
    · cases List.mem_cons.mp ho with
      | inl h =>
        obtain rfl := h
        simp [Incoming.order, Order.new]
      | inr ho =>
        exact hframe.hand o ho
    · refine List.Perm.trans ?_ h.owned
      rw [List.perm_iff_count]
      intro x
      simp only [Book.cells, hf, List.map_cons, List.count_append, List.count_cons]
      omega

end Represents
end LobCity
