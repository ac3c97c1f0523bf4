import LobCity.BookInvariant

/-! Crossed books. Matching never leaves the best bid at or above the best ask, and neither
does a cancel; a modify that re-queues an order at a price the other side reaches does,
since `addOrder` never looks at the other side. -/
namespace LobCity
open Library

theorem Side.better_opposite (s : Side) (p q : Price) : s.opposite.better p q ↔ s.better q p := by
  cases s <;> rfl

namespace Book
variable {b : Book} {s : Side} {r : Resting} {o : Incoming}

def Uncrossed (b : Book) : Prop :=
  ∀ s, ∀ r ∈ b.side s, ∀ x ∈ b.side s.opposite, s.opposite.better r.price x.price

def Clear (b : Book) (s : Side) (p : Price) : Prop := ∀ x ∈ b.side s, s.better p x.price

theorem clear_iff_head (hs : Sorted s (b.side s)) {p : Price} :
    b.Clear s p ↔ ∀ x ∈ (b.side s).head?, s.better p x.price := by
  constructor
  · exact fun h x hx => h x (List.mem_of_mem_head? hx)
  · intro h x hx
    cases hb : b.side s with
    | nil => rw [hb] at hx; simp at hx
    | cons y L =>
      rw [hb] at hx h hs
      exact worse_behind hs (h y (by simp)) hx

theorem Uncrossed.of_subset {b' : Book} (hu : b.Uncrossed)
    (h : ∀ s, ∀ r ∈ b'.side s, ∃ r0 ∈ b.side s, r.price = r0.price) : b'.Uncrossed := by
  intro s r hr x hx
  obtain ⟨r0, hr0, hp⟩ := h s r hr
  obtain ⟨x0, hx0, hp'⟩ := h s.opposite x hx
  rw [hp, hp']
  exact hu s r0 hr0 x0 hx0

theorem uncrossed_rest (hu : b.Uncrossed) :
    (b.rest o).Uncrossed ↔ b.Clear o.side.opposite o.price := by
  constructor
  · intro h x hx
    exact h o.side o.resting (Represents.mem_rest.mpr (Or.inl ⟨rfl, rfl⟩)) x
      (Represents.mem_rest.mpr (Or.inr hx))
  · intro hc s r hr x hx
    cases Represents.mem_rest.mp hr with
    | inl h =>
      obtain ⟨rfl, rfl⟩ := h
      cases Represents.mem_rest.mp hx with
      | inl hs =>
        exact absurd hs.1.symm (side_opposite_ne o.side)
      | inr hx =>
        exact hc x hx
    | inr hr =>
      cases Represents.mem_rest.mp hx with
      | inl hs =>
        obtain ⟨hs, rfl⟩ := hs
        rw [Side.better_opposite]
        have hr' : r ∈ b.side o.side.opposite := by rwa [← hs, Side.opposite_opposite]
        have hc := hc r hr'
        rwa [← hs, Side.opposite_opposite] at hc
      | inr hx =>
        exact hu s r hr x hx

theorem Uncrossed.matched (hu : b.Uncrossed) (o : Incoming) (time : Timestamp) :
    (b.matched o time).Uncrossed :=
  hu.of_subset fun _ _ hr => by
    obtain ⟨r0, h0, hs, -⟩ := mem_of_matched hr
    exact ⟨r0, h0, hs.2.2⟩

/-- A limit order that still wants more has cleared everything it reaches. -/
theorem clear_matched (hs : ∀ s, Sorted s (b.side s)) (hm : o.isMarket = false)
    (hleft : 0 < (b.execution o).left) (time : Timestamp) :
    (b.matched o time).Clear o.side.opposite o.price := by
  rw [clear_iff_head (Sorted.matched hs o time _), side_matched, if_pos rfl]
  intro x hx
  cases fillGreedily_split o.reaches (b.side o.side.opposite) o.quantity with
  | inl hend =>
    have hne : (b.execution o).left ≠ 0 := by grind
    have hx := (hend.2.2.resolve_left hne) x hx
    simpa [Incoming.reaches, hm] using hx
  | inr hend =>
    obtain ⟨-, -, -, -, -, -, -, -, hend⟩ := hend
    rw [execution, hend] at hleft
    exact absurd hleft (by decide)

theorem Uncrossed.process (hu : b.Uncrossed) (hs : ∀ s, Sorted s (b.side s)) (o : Incoming)
    (time : Timestamp) : (b.process o time).Uncrossed := by
  cases process_cases b o time with
  | inl h =>
    obtain ⟨hm, hleft, h⟩ := h
    rw [h, uncrossed_rest (hu.matched o time)]
    exact clear_matched hs hm hleft time
  | inr h =>
    rw [h.2]
    exact hu.matched o time

theorem Uncrossed.removed (hu : b.Uncrossed) (s : Side) (r : Resting) :
    ((b.eraseId r.id).drop s r.ref).Uncrossed :=
  hu.of_subset fun _ x hx => ⟨x, (Represents.mem_drop hx).1, rfl⟩

theorem Uncrossed.cancel (hu : b.Uncrossed) (hd : b.Distinct) (hi : b.Indexed) (id : OrderId) :
    (b.cancel id).Uncrossed :=
  hu.of_subset fun _ x hx => ⟨x, mem_of_cancel hd hi hx, rfl⟩

/-- A modify keeps the book uncrossed exactly when its price stands off the other side. -/
theorem uncrossed_modify (hu : b.Uncrossed) (hd : b.Distinct) (hi : b.Indexed)
    (origId newId : OrderId) (newPrice : Price) (newQty : Quantity) :
    (b.modify origId newId newPrice newQty).Uncrossed ↔
      ∀ s, ∀ r ∈ b.side s, b.index origId = some r.ref → b.Clear s.opposite newPrice := by
  rcases modify_cases hd hi origId newId newPrice newQty with
    ⟨hn, h⟩ | ⟨s, r, hr, rfl, hk, hcase⟩
  · rw [h, hn]
    simpa using hu
  have honly : (∀ t, ∀ x ∈ b.side t, b.index r.id = some x.ref → b.Clear t.opposite newPrice) ↔
      b.Clear s.opposite newPrice := by
    refine ⟨fun hall => hall s r hr hk, fun hc t x hx hxk => ?_⟩
    obtain ⟨rfl, -⟩ := hd.unique hr hx (Option.some.inj (hk.symm.trans hxk))
    exact hc
  rw [honly]
  cases hcase with
  | inl h =>
    obtain ⟨hp, -, h⟩ := h
    rw [h]
    refine ⟨fun _ => hp ▸ hu s r hr, fun _ => hu.of_subset fun t x hx => ?_⟩
    cases mem_of_rewrite hd hr hx with
    | inl h =>
      obtain ⟨rfl, rfl⟩ := h
      exact ⟨r, hr, rfl⟩
    | inr hx =>
      exact ⟨x, hx.1, rfl⟩
  | inr h =>
    rw [h.2, requeue, uncrossed_rest (hu.removed s r)]
    have hside : ((b.eraseId r.id).drop s r.ref).side s.opposite = b.side s.opposite :=
      setSide_of_ne _ _ (side_opposite_ne s).symm
    simp only [Clear, hside]

end Book

/-- If both sides are non-empty, the best bid is below the best ask. -/
def Engine.Uncrossed (e : Engine) : Prop :=
  ∀ bid ∈ e.best? .buy, ∀ ask ∈ e.best? .sell, bid < ask

theorem Engine.WellFormed.uncrossed_iff {e : Engine} {hands : List Addr} (h : e.WellFormed hands) :
    e.Uncrossed ↔ e.book.Uncrossed := by
  have hs := h.represents.sorted
  unfold Engine.Uncrossed
  rw [h.best?_eq, h.best?_eq]
  constructor
  · intro hu
    -- from the two best orders to all pairs, one side at a time
    have hall : ∀ r ∈ e.book.side .buy, ∀ x ∈ e.book.side .sell, r.price < x.price := by
      intro r hr x hx
      refine (Book.clear_iff_head (hs .buy)).mpr (fun bid hbid => ?_) r hr
      refine (Book.clear_iff_head (hs .sell)).mpr (fun ask hask => ?_) x hx
      exact hu bid.price (by simp [Option.mem_def.mp hbid]) ask.price
        (by simp [Option.mem_def.mp hask])
    intro s r hr x hx
    cases s
    · exact hall r hr x hx
    · exact hall x hx r hr
  · intro hu bid hbid ask hask
    obtain ⟨r, hr, rfl⟩ := Option.mem_map.mp hbid
    obtain ⟨x, hx, rfl⟩ := Option.mem_map.mp hask
    exact hu .buy r (List.mem_of_mem_head? hr) x (List.mem_of_mem_head? hx)

namespace Session
variable {S : Session}

/-- The call re-prices a resting order to where the other side's best order stands, or
past it. -/
def CrossingModify (S : Session) : Op → Prop
  | .modify origId _ newPrice _ _ =>
    ∃ order ∈ S.engine.orderMap origId,
      ∃ best ∈ S.engine.best? (S.engine.heap order).side.opposite,
        ¬ (S.engine.heap order).side.opposite.better newPrice best
  | _ => False

/-- One call on an uncrossed book leaves it uncrossed, unless it is a crossing modify. -/
theorem Regular.uncrossed_step (h : S.Regular) (hu : S.engine.Uncrossed) {op : Op} {S' : Session}
    (hS' : S'.Regular) (hb : S'.engine.book = S.bookAfter op) :
    S'.engine.Uncrossed ↔ ¬ S.CrossingModify op := by
  have hs := h.wellFormed.represents.sorted
  have hd := h.toSound.distinct
  rw [h.wellFormed.uncrossed_iff] at hu
  rw [hS'.wellFormed.uncrossed_iff, hb]
  cases op with
  | acquire id p q s m =>
    simp only [bookAfter, Book.Uncrossed, Book.side_acquire, CrossingModify, not_false_eq_true,
      iff_true]
    exact hu
  | process order time now =>
    simp only [bookAfter, CrossingModify, not_false_eq_true, iff_true]
    exact hu.process hs _ time
  | cancel id now =>
    simp only [bookAfter, CrossingModify, not_false_eq_true, iff_true]
    exact hu.cancel hd h.indexed id
  | modify origId newId newPrice newQty now =>
    simp only [bookAfter, CrossingModify]
    rw [Book.uncrossed_modify hu hd h.indexed]
    constructor
    · rintro hclear ⟨order, ho, best, hbest, hcross⟩
      obtain ⟨s, r, hr, rfl, -⟩ := h.indexed origId order ho
      rw [h.wellFormed.represents.heap_side hr] at hbest hcross
      rw [h.wellFormed.best?_eq] at hbest
      obtain ⟨x, hx, rfl⟩ := Option.mem_map.mp hbest
      exact hcross (hclear s r hr ho x (List.mem_of_mem_head? hx))
    · intro hn s r hr hk
      rw [Book.clear_iff_head (hs _)]
      intro x hx
      by_contra hcross
      refine hn ⟨r.ref, hk, x.price, ?_, ?_⟩
      · rw [h.wellFormed.represents.heap_side hr, h.wellFormed.best?_eq]
        exact Option.mem_map.mpr ⟨x, hx, rfl⟩
      · rwa [h.wellFormed.represents.heap_side hr]

/-- Over a well-behaved history the book is uncrossed after every call exactly when no
modify re-prices an order to or through the other side's best price. -/
theorem run_uncrossed_iff {poolSize : Nat} {udpPub : Bool} {ops : List Op}
    (hok : Along step Admissible (new poolSize udpPub) ops) :
    (∀ n S, run step (new poolSize udpPub) (ops.take n) = some S → S.engine.Uncrossed) ↔
      Along step (fun S op => ¬ S.CrossingModify op) (new poolSize udpPub) ops := by
  have hstep : ∀ (S : Session) op, S.Regular → S.Admissible op → S.engine.Uncrossed →
      ∃ S', S.step op = some S' ∧ S'.Regular ∧ (S'.engine.Uncrossed ↔ ¬ S.CrossingModify op) := by
    intro S op h hop hu
    obtain ⟨S', hs, h', hb, -⟩ := h.step hop
    exact ⟨S', hs, h', h.uncrossed_step hu h' hb⟩
  have hnew : (new poolSize udpPub).engine.Uncrossed := by
    intro bid hbid
    simp [new, Engine.best?, Engine.levels, Engine.new, SortedMap.first?, SortedMap.empty] at hbid
  exact forall_prefix_iff hstep (new_regular poolSize udpPub) hnew hok

theorem run_uncrossed_iff_quiet :
    (∀ n S, run step (new 2 false) (List.take n [.acquire 1 100 5 .buy false, .process 1 10 11,
      .acquire 2 105 5 .sell false, .process 0 12 13, .modify 1 1 104 9 14,
      .modify 2 3 106 2 15]) = some S → S.engine.Uncrossed) ↔
      Along step (fun S op => ¬ S.CrossingModify op) (new 2 false) [.acquire 1 100 5 .buy false,
        .process 1 10 11, .acquire 2 105 5 .sell false, .process 0 12 13, .modify 1 1 104 9 14,
        .modify 2 3 106 2 15] :=
  run_uncrossed_iff (by decide)

/-- A buy rests at 100, a sell at 105, and the buy is re-priced to 110. -/
def crossingOps : List Op :=
  [.acquire 1 100 5 .buy false, .process 1 10 11, .acquire 2 105 5 .sell false, .process 0 12 13,
    .modify 1 1 110 5 14]

/-- It rests there, with the best bid at 110 and the best ask at 105. -/
theorem crossingOps_crossed :
    Along step Admissible (new 2 false) crossingOps ∧
      ∃ S, run step (new 2 false) crossingOps = some S ∧ S.engine.best? .buy = some 110 ∧
        S.engine.best? .sell = some 105 ∧ ¬ S.engine.Uncrossed := by
  have hok : Along step Admissible (new 2 false) crossingOps := by decide
  have hbest : (run step (new 2 false) crossingOps).map
      (fun S => (S.engine.best? .buy, S.engine.best? .sell)) = some (some 110, some 105) := by decide
  obtain ⟨S, hS, -⟩ := run_regular hok
  rw [hS] at hbest
  obtain ⟨hbid, hask⟩ := Prod.mk.inj (Option.some.inj hbest)
  refine ⟨hok, S, hS, hbid, hask, fun hu => ?_⟩
  exact absurd (hu 110 hbid 105 hask) (by decide)

end Session
end LobCity
