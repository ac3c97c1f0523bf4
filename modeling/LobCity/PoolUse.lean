import LobCity.Session

/-! How much the pool allocates. A cell is allocated only when every cell is in use, so what
has been allocated is the size of the pool or, if more, the most orders that were ever
held or resting at once. -/
namespace LobCity
open Library

namespace Book

theorem allocated_process (b : Book) (o : Incoming) (time : Timestamp) :
    (b.process o time).allocated = b.allocated := by
  cases process_cases b o time with
  | inl h =>
    rw [h.2.2]
    rfl
  | inr h =>
    rw [h.2]
    rfl

theorem allocated_cancel (b : Book) (id : OrderId) : (b.cancel id).allocated = b.allocated := by
  unfold cancel
  split <;> rfl

theorem allocated_modify (b : Book) (origId newId : OrderId) (newPrice : Price) (newQty : Quantity) :
    (b.modify origId newId newPrice newQty).allocated = b.allocated := by
  unfold modify
  split
  · rfl
  · dsimp only
    split_ifs <;> rfl

theorem free_process (b : Book) (o : Incoming) (time : Timestamp) :
    b.free.length ≤ (b.process o time).free.length := by
  have hmatched : b.free <:+ (b.matched o time).free := List.suffix_append _ _
  cases process_cases b o time with
  | inl h =>
    rw [h.2.2]
    exact hmatched.length_le
  | inr h =>
    rw [h.2]
    exact hmatched.length_le.trans (Nat.le_succ _)

theorem free_cancel (b : Book) (id : OrderId) : b.free.length ≤ (b.cancel id).free.length := by
  unfold cancel
  split
  · exact Nat.le_refl _
  · exact Nat.le_succ _

theorem free_modify (b : Book) (origId newId : OrderId) (newPrice : Price) (newQty : Quantity) :
    b.free.length ≤ (b.modify origId newId newPrice newQty).free.length := by
  unfold modify
  split
  · exact Nat.le_refl _
  · dsimp only
    split_ifs
    · exact Nat.le_refl _
    · exact Nat.le_refl _

end Book

def Op.acquires : Op → Bool
  | .acquire .. => true
  | .process .. | .cancel .. | .modify .. => false

namespace Session
variable {S S' : Session} {op : Op}

def inUse (S : Session) : Nat :=
  (S.engine.orders .buy).length + (S.engine.orders .sell).length + S.hands.length

def peak (S : Session) : List Op → Nat
  | [] => S.inUse
  | op :: ops =>
    max S.inUse (match S.step op with
      | none => 0
      | some S' => S'.peak ops)

/-- Every allocated cell is free or in use. -/
theorem Sound.inUse_add (h : S.Sound) :
    S.inUse + S.engine.freeList.length = S.engine.allAllocated.length := by
  have hlength := h.wellFormed.owned.length_eq
  simp only [List.length_append] at hlength
  unfold inUse
  omega

/-- The step lemma: a call allocates only an `acquire`'s cell, and only if none is free. -/
theorem Sound.allocated_step (h : S.Sound) (hok : S.Owned op) (hs : S.step op = some S') :
    S'.engine.allAllocated.length = max S.engine.allAllocated.length S'.inUse ∧
      S'.engine.allAllocated.length ≤
        S.engine.allAllocated.length + if op.acquires then 1 else 0 := by
  obtain ⟨S1, hs1, h', hb, -⟩ := h.step hok
  obtain rfl := Option.some.inj (hs.symm.trans hs1)
  have huse := h'.inUse_add
  have hallocated := congrArg Book.allocated hb
  cases op with
  | acquire id p q s m =>
    have hlength : S'.engine.allAllocated.length =
        (S.engine.book.acquire id p q s m).2.allocated := hallocated
    have hfree : S'.engine.freeList = (S.engine.book.acquire id p q s m).2.free :=
      congrArg Book.free hb
    unfold Book.acquire at hlength hfree
    cases hf : S.engine.book.free with
    | nil =>
      rw [hf] at hlength hfree
      have hnew : S'.engine.allAllocated.length = S.engine.allAllocated.length + 1 := hlength
      have hnone : S'.engine.freeList.length = 0 := congrArg List.length hfree
      refine ⟨by omega, ?_⟩
      exact hnew.le
    | cons a rest =>
      rw [hf] at hlength
      have hsame : S'.engine.allAllocated.length = S.engine.allAllocated.length := hlength
      exact ⟨by omega, by omega⟩
  | process order time now =>
    have hsame : S'.engine.allAllocated.length = S.engine.allAllocated.length :=
      hallocated.trans (Book.allocated_process _ _ _)
    exact ⟨by omega, by omega⟩
  | cancel id now =>
    have hsame : S'.engine.allAllocated.length = S.engine.allAllocated.length :=
      hallocated.trans (Book.allocated_cancel _ _)
    exact ⟨by omega, by omega⟩
  | modify origId newId newPrice newQty now =>
    have hsame : S'.engine.allAllocated.length = S.engine.allAllocated.length :=
      hallocated.trans (Book.allocated_modify _ _ _ _ _)
    exact ⟨by omega, by omega⟩

theorem Sound.run_peak {ops : List Op} (h : S.Sound) (hok : Along Session.step Owned S ops) :
    ∃ T, run Session.step S ops = some T ∧ T.Sound ∧
      T.engine.allAllocated.length = max S.engine.allAllocated.length (S.peak ops) ∧
      T.engine.allAllocated.length ≤ S.engine.allAllocated.length + ops.countP Op.acquires := by
  induction ops generalizing S with
  | nil =>
    have huse := h.inUse_add
    refine ⟨S, rfl, h, ?_, Nat.le_add_right _ _⟩
    show _ = max _ S.inUse
    omega
  | cons op ops ih =>
    obtain ⟨S1, hs, h1, -⟩ := h.step hok.1
    obtain ⟨hmax, hle⟩ := h.allocated_step hok.1 hs
    obtain ⟨T, hrun, hT, hpeak, hcount⟩ := ih h1 (hok.2 S1 hs)
    have huse := h.inUse_add
    have hfirst : S1.inUse ≤ S1.peak ops := by
      cases ops with
      | nil => exact Nat.le_refl _
      | cons => exact Nat.le_max_left _ _
    refine ⟨T, by simp [run, hs, hrun], hT, ?_, ?_⟩
    · show _ = max _ (max S.inUse (match S.step op with
        | none => 0
        | some S' => S'.peak ops))
      rw [hs]
      dsimp only
      omega
    · rw [List.countP_cons]
      omega

theorem Sound.free_step (h : S.Sound) (hok : S.Owned op) (hs : S.step op = some S') :
    S.engine.freeList.length ≤ S'.engine.freeList.length + (if op.acquires then 1 else 0) ∧
      (op.acquires = true → 0 < S.engine.freeList.length →
        S'.engine.allAllocated.length = S.engine.allAllocated.length) := by
  obtain ⟨S1, hs1, -, hb, -⟩ := h.step hok
  obtain rfl := Option.some.inj (hs.symm.trans hs1)
  have hfree : S'.engine.freeList = (S.bookAfter op).free := congrArg Book.free hb
  have hallocated : S'.engine.allAllocated.length = (S.bookAfter op).allocated :=
    congrArg Book.allocated hb
  rw [hfree, hallocated]
  cases op with
  | acquire id p q s m =>
    unfold bookAfter Book.acquire
    cases hf : S.engine.book.free with
    | nil =>
      have hnone : S.engine.freeList = [] := hf
      rw [hnone]
      exact ⟨Nat.zero_le _, fun _ h0 => absurd h0 (Nat.lt_irrefl 0)⟩
    | cons a rest =>
      have hsome : S.engine.freeList = a :: rest := hf
      rw [hsome]
      exact ⟨Nat.le_refl _, fun _ _ => rfl⟩
  | process order time now =>
    have hle := S.engine.book.free_process (S.engine.incoming order) time
    exact ⟨hle, fun h => absurd h Bool.false_ne_true⟩
  | cancel id now =>
    have hle := S.engine.book.free_cancel id
    exact ⟨hle, fun h => absurd h Bool.false_ne_true⟩
  | modify origId newId newPrice newQty now =>
    have hle := S.engine.book.free_modify origId newId newPrice newQty
    exact ⟨hle, fun h => absurd h Bool.false_ne_true⟩

/-- A run that acquires no more than the free cells allocates nothing. -/
theorem Sound.run_fits {T : Session} {ops : List Op} (h : S.Sound)
    (hok : Along Session.step Owned S ops) (hrun : run Session.step S ops = some T)
    (hfit : ops.countP Op.acquires ≤ S.engine.freeList.length) :
    T.engine.allAllocated.length = S.engine.allAllocated.length := by
  induction ops generalizing S with
  | nil =>
    obtain rfl := Option.some.inj hrun
    rfl
  | cons op ops ih =>
    obtain ⟨S1, hs, h1, -⟩ := h.step hok.1
    obtain ⟨hfree, hsame⟩ := h.free_step hok.1 hs
    have hlater : run Session.step S1 ops = some T := by simpa [run, hs] using hrun
    rw [List.countP_cons] at hfit
    have hstep : S1.engine.allAllocated.length = S.engine.allAllocated.length := by
      cases hop : op.acquires with
      | true =>
        rw [hop, if_pos rfl] at hfit
        exact hsame hop (by omega)
      | false =>
        have hle := (h.allocated_step hok.1 hs).2
        have hgrow := (h.allocated_step hok.1 hs).1
        rw [hop] at hle
        have hmax := Nat.le_max_left S.engine.allAllocated.length S1.inUse
        simp only [Bool.false_eq_true, if_false] at hle
        omega
    rw [← hstep]
    exact ih h1 (hok.2 S1 hs) hlater (by omega)

/-- In every run the pool has allocated its initial cells or, if more, as many as were ever
in use at once; so it never grows while these are enough, whatever ids, prices and
quantities the calls carry. -/
theorem run_allocated {poolSize : Nat} {udpPub : Bool} {ops : List Op}
    (hok : Along step Owned (new poolSize udpPub) ops) :
    ∃ S, run step (new poolSize udpPub) ops = some S ∧
      S.engine.allAllocated.length = max poolSize ((new poolSize udpPub).peak ops) ∧
      ((new poolSize udpPub).peak ops ≤ poolSize →
        S.engine.allAllocated = List.range poolSize) := by
  obtain ⟨S, hrun, h, hpeak, -⟩ := (new_sound poolSize udpPub).run_peak hok
  have hnew : (new poolSize udpPub).engine.allAllocated.length = poolSize := List.length_range
  rw [hnew] at hpeak
  refine ⟨S, hrun, hpeak, fun hle => ?_⟩
  rw [h.wellFormed.allocated, hpeak, Nat.max_eq_left hle]

theorem run_allocated_recycled :
    let ops : List Op := [.acquire 1 100 5 .buy false, .process 1 10 11, .acquire 2 100 5 .sell false,
      .process 0 12 13, .acquire 3 101 5 .sell false, .process 0 14 15]
    ∃ S, run step (new 2 false) ops = some S ∧ S.engine.allAllocated = List.range 2 := by
  intro ops
  have hok : Along step Owned (new 2 false) ops := by decide
  have hpeak : (new 2 false).peak ops ≤ 2 := by decide +kernel
  obtain ⟨S, hrun, -, hsame⟩ := run_allocated hok
  exact ⟨S, hrun, hsame hpeak⟩

end Session
end LobCity
