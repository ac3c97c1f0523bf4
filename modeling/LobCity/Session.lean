import LobCity.Index
import LobCity.Library.Runs

/-! Whole histories: a session is the engine with the orders its callers hold, and a run
is a list of calls. Every call keeps the data structures well formed and the index sound,
whatever ids and quantities it is given. -/
namespace LobCity
open Library

/-- A call on the pool or the book. `time` and `now` are the clock readings it makes. -/
inductive Op where
  | acquire (id : OrderId) (p : Price) (q : Quantity) (s : Side) (m : Bool)
  | process (order : Addr) (time now : Timestamp)
  | cancel (id : OrderId) (now : Timestamp)
  | modify (origId newId : OrderId) (newPrice : Price) (newQty : Quantity) (now : Timestamp)
deriving DecidableEq, Repr

structure Session where
  engine : Engine
  /-- acquired, and not yet submitted -/
  hands : List Addr

namespace Session

def new (poolSize : Nat) (udpPub : Bool) : Session := ⟨Engine.new poolSize udpPub, []⟩

def step (S : Session) : Op → Option Session
  | .acquire id p q s m =>
    let (order, e) := S.engine.acquire id p q s m
    some ⟨e, order :: S.hands⟩
  | .process order time now =>
    (S.engine.processOrder order time now).map fun e => ⟨e, S.hands.erase order⟩
  | .cancel id now => some { S with engine := S.engine.cancelOrder id now }
  | .modify origId newId newPrice newQty now =>
    some { S with engine := S.engine.modifyOrder origId newId newPrice newQty now }

/-- Only an order that the caller acquired and still holds is submitted. -/
def Owned (S : Session) : Op → Prop
  | .process order _ _ => order ∈ S.hands
  | _ => True

instance (S : Session) : DecidablePred S.Owned
  | .process order _ _ => inferInstanceAs (Decidable (order ∈ S.hands))
  | .acquire .. | .cancel .. | .modify .. => inferInstanceAs (Decidable True)

def bookAfter (S : Session) : Op → Book
  | .acquire id p q s m => (S.engine.book.acquire id p q s m).2
  | .process order time _ => S.engine.book.process (S.engine.incoming order) time
  | .cancel id _ => S.engine.book.cancel id
  | .modify origId newId newPrice newQty _ => S.engine.book.modify origId newId newPrice newQty

structure Sound (S : Session) : Prop where
  wellFormed : S.engine.WellFormed S.hands
  indexed : S.engine.book.Indexed

theorem new_sound (poolSize : Nat) (udpPub : Bool) : (new poolSize udpPub).Sound := by
  obtain ⟨hw, hb⟩ := Engine.new_wellFormed poolSize udpPub
  refine ⟨hw, ?_⟩
  show (Engine.new poolSize udpPub).book.Indexed
  rw [hb]
  intro k a hk
  simp [Book.new] at hk

theorem Sound.distinct {S : Session} (h : S.Sound) : S.engine.book.Distinct :=
  h.wellFormed.represents.distinct

/-- The step lemma of every invariant: a call returns, keeps the session sound, and does
to the book what the sequence book does. -/
theorem Sound.step {S : Session} (h : S.Sound) {op : Op} (hok : S.Owned op) :
    ∃ S', S.step op = some S' ∧ S'.Sound ∧ S'.engine.book = S.bookAfter op ∧
      ∀ c ∈ S.hands, c ∈ S'.hands → S'.engine.incoming c = S.engine.incoming c := by
  obtain ⟨hw, hi⟩ := h
  have hd : S.engine.book.Distinct := hw.represents.distinct
  cases op with
  | acquire id p q s m =>
    cases ha : S.engine.acquire id p q s m with
    | mk a e =>
      obtain ⟨hw', hb, -, hk⟩ := hw.acquire id p q s m ha
      refine ⟨⟨e, a :: S.hands⟩, by simp [Session.step, ha], ⟨hw', ?_⟩, hb, fun c hc _ => hk c hc⟩
      show e.book.Indexed
      rw [hb]
      exact hi.acquire id p q s m
  | process order time now =>
    obtain ⟨e, he, hw', hb, hk⟩ := hw.processOrder hok time now
    refine ⟨⟨e, S.hands.erase order⟩, by simp [Session.step, he], ⟨hw', ?_⟩, hb,
      fun c _ hc => hk c hc⟩
    show e.book.Indexed
    rw [hb]
    exact hi.process _ time
  | cancel id now =>
    obtain ⟨hw', hb, hk⟩ := hw.cancelOrder hi id now
    refine ⟨_, rfl, ⟨hw', ?_⟩, hb, fun c hc _ => hk c hc⟩
    show (S.engine.cancelOrder id now).book.Indexed
    rw [hb]
    exact hi.cancel hd id
  | modify origId newId newPrice newQty now =>
    obtain ⟨hw', hb, hk⟩ := hw.modifyOrder hi origId newId newPrice newQty now
    refine ⟨_, rfl, ⟨hw', ?_⟩, hb, fun c hc _ => hk c hc⟩
    show (S.engine.modifyOrder origId newId newPrice newQty now).book.Indexed
    rw [hb]
    exact hi.modify hd origId newId newPrice newQty

theorem Sound.submit {S : Session} (h : S.Sound) (id : OrderId) (p : Price) (q : Quantity) (s : Side)
    (m : Bool) (time now : Timestamp) :
    ∃ a e1 e2, S.engine.acquire id p q s m = (a, e1) ∧ e1.processOrder a time now = some e2 ∧
      Sound ⟨e2, S.hands⟩ ∧ (S.engine.book.acquire id p q s m).1 = ⟨a, id, p, q, s, m⟩ ∧
      e2.book = (S.engine.book.acquire id p q s m).2.process ⟨a, id, p, q, s, m⟩ time ∧
      (∀ t, a ∉ refs (S.engine.book.side t)) ∧
      ∀ c ∈ S.hands, e2.incoming c = S.engine.incoming c := by
  obtain ⟨⟨a, e1⟩, ha⟩ : ∃ x, S.engine.acquire id p q s m = x := ⟨_, rfl⟩
  obtain ⟨hw1, hb1, hin, hk1⟩ := h.wellFormed.acquire id p q s m ha
  have h1 : Sound ⟨e1, a :: S.hands⟩ := by
    refine ⟨hw1, ?_⟩
    show e1.book.Indexed
    rw [hb1]
    exact h.indexed.acquire id p q s m
  have hown : Owned ⟨e1, a :: S.hands⟩ (.process a time now) := by simp [Owned]
  obtain ⟨S2, hs, h2, hb2, hk2⟩ := h1.step hown
  obtain ⟨e2, he, rfl⟩ := Option.map_eq_some_iff.mp hs
  have hhands : (a :: S.hands).erase a = S.hands := List.erase_cons_head ..
  have hfresh : ∀ t, a ∉ refs (S.engine.book.side t) := by
    intro t hm
    have hout := hw1.represents.not_mem_refs (o := e1.incoming a) (by simp) t
    rw [hb1, Book.side_acquire] at hout
    exact hout hm
  refine ⟨a, e1, e2, ha, he, by simpa only [hhands] using h2,
    h.wellFormed.acquire_order id p q s m ha, ?_, hfresh, fun c hc => ?_⟩
  · rw [hb2]
    show e1.book.process (e1.incoming a) time = _
    rw [hin, hb1]
  · have hkept := hk2 c (List.mem_cons_of_mem _ hc) (by simpa only [hhands] using hc)
    exact hkept.trans (hk1 c hc)

theorem run_sound {poolSize : Nat} {udpPub : Bool} {ops : List Op}
    (hok : Along step Owned (new poolSize udpPub) ops) :
    ∃ S, run step (new poolSize udpPub) ops = some S ∧ S.Sound :=
  run_invariant (fun S op h hop => by
    obtain ⟨S', hs, h', -⟩ := h.step hop
    exact ⟨S', hs, h'⟩) (new_sound poolSize udpPub) hok

end Session
end LobCity
