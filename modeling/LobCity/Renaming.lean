import LobCity.Levels
import LobCity.Session

/-! The cells of the pool under other names. The operations of the sequence book only ask
whether two orders are in the same cell, so they commute with a renaming that keeps the
cells of different orders apart. -/
namespace LobCity
open Library

variable {ρ : Addr → Addr}

def Resting.rename (ρ : Addr → Addr) (r : Resting) : Resting := { r with ref := ρ r.ref }

def Incoming.rename (ρ : Addr → Addr) (o : Incoming) : Incoming := { o with ref := ρ o.ref }

def Fill.rename (ρ : Addr → Addr) (f : Fill) : Fill := { f with maker := f.maker.rename ρ }

def Execution.rename (ρ : Addr → Addr) (x : Execution) : Execution :=
  ⟨x.fills.map (Fill.rename ρ), x.rest.map (Resting.rename ρ), x.left⟩

theorem refs_rename (ρ : Addr → Addr) (L : List Resting) :
    refs (L.map (Resting.rename ρ)) = (refs L).map ρ := by
  rw [refs, refs, List.map_map, List.map_map]
  rfl

theorem volume_rename (ρ : Addr → Addr) (L : List Resting) :
    volume (L.map (Resting.rename ρ)) = volume L := by
  rw [volume, volume, List.map_map]
  rfl

theorem fillGreedily_rename (ρ : Addr → Addr) (reaches : Price → Bool) (L : List Resting)
    (q : Quantity) :
    fillGreedily reaches (L.map (Resting.rename ρ)) q = (fillGreedily reaches L q).rename ρ := by
  induction L generalizing q with
  | nil => rfl
  | cons r L ih =>
    rw [List.map_cons]
    by_cases hstop : q = 0 ∨ reaches r.price = false
    · rw [fillGreedily_stop hstop, fillGreedily_stop (r := r.rename ρ) hstop]
      rfl
    by_cases hfull : min q r.quantity = r.quantity
    · rw [fillGreedily_full hstop hfull, fillGreedily_full (r := r.rename ρ) hstop hfull]
      have hq : (r.rename ρ).quantity = r.quantity := rfl
      rw [hq, ih]
      rfl
    · rw [fillGreedily_outlasts hstop hfull, fillGreedily_outlasts (r := r.rename ρ) hstop hfull]
      rfl

theorem Execution.gone_rename (ρ : Addr → Addr) (x : Execution) :
    (x.rename ρ).gone = x.gone.map (Resting.rename ρ) := by
  unfold gone rename
  rw [List.filter_map, List.map_map, List.map_map]
  rfl

namespace Book
variable {b b' : Book} {s : Side} {r : Resting} {o : Incoming}

def resting (b : Book) : Set Addr := {a | ∃ s, a ∈ refs (b.side s)}

theorem mem_resting (hr : r ∈ b.side s) : r.ref ∈ b.resting := ⟨s, List.mem_map_of_mem hr⟩

/-- The book `b'` is the book `b` with its cells renamed; the pools may differ. -/
structure Renamed (ρ : Addr → Addr) (b b' : Book) : Prop where
  side : ∀ s, b'.side s = (b.side s).map (Resting.rename ρ)
  index : ∀ k, b'.index k = (b.index k).map ρ
  trades : b'.trades = b.trades

namespace Renamed

theorem release (h : Renamed ρ b b') (a a' : Addr) : Renamed ρ (b.release a) (b'.release a') :=
  ⟨h.side, h.index, h.trades⟩

theorem setSide (h : Renamed ρ b b') (s : Side) (L : List Resting) :
    Renamed ρ (b.setSide s L) (b'.setSide s (L.map (Resting.rename ρ))) := by
  refine ⟨fun t => ?_, h.index, h.trades⟩
  by_cases ht : t = s
  · subst ht
    rw [setSide_self, setSide_self]
  · rw [setSide_of_ne _ _ ht, setSide_of_ne _ _ ht]
    exact h.side t

theorem eraseId (h : Renamed ρ b b') (id : OrderId) : Renamed ρ (b.eraseId id) (b'.eraseId id) := by
  refine ⟨h.side, fun k => ?_, h.trades⟩
  by_cases hk : k = id
  · subst hk
    simp [Book.eraseId]
  · simp [Book.eraseId, hk, h.index]

theorem setIndex (h : Renamed ρ b b') (id : OrderId) (a : Addr) :
    Renamed ρ { b with index := Function.update b.index id (some a) }
      { b' with index := Function.update b'.index id (some (ρ a)) } := by
  refine ⟨h.side, fun k => ?_, h.trades⟩
  by_cases hk : k = id
  · subst hk
    simp
  · simp [hk, h.index]

theorem drop (h : Renamed ρ b b') (hinj : Set.InjOn ρ b.resting) (hr : r ∈ b.side s) :
    Renamed ρ (b.drop s r.ref) (b'.drop s (ρ r.ref)) := by
  have hfilter : (b'.side s).filter (fun x => x.ref ≠ ρ r.ref) =
      ((b.side s).filter fun x => x.ref ≠ r.ref).map (Resting.rename ρ) := by
    rw [h.side, List.filter_map]
    refine congrArg _ (List.filter_congr fun x hx => decide_eq_decide.mpr (not_congr ?_))
    exact ⟨fun he => hinj (mem_resting hx) (mem_resting hr) he, fun he => congrArg ρ he⟩
  unfold Book.drop
  rw [hfilter]
  exact h.setSide s _

theorem rewrite (h : Renamed ρ b b') (hinj : Set.InjOn ρ b.resting) (hr : r ∈ b.side s)
    (id : OrderId) (q : Quantity) :
    Renamed ρ (b.rewrite s r.ref id q) (b'.rewrite s (ρ r.ref) id q) := by
  have hmap : ((b'.side s).map fun x =>
        if x.ref = ρ r.ref then { x with id := id, quantity := q } else x) =
      ((b.side s).map fun x => if x.ref = r.ref then { x with id := id, quantity := q } else x).map
        (Resting.rename ρ) := by
    rw [h.side, List.map_map, List.map_map]
    refine List.map_congr_left fun x hx => ?_
    simp only [Function.comp]
    by_cases he : x.ref = r.ref
    · rw [if_pos he, if_pos (show (x.rename ρ).ref = ρ r.ref from congrArg ρ he)]
      rfl
    · have hne : (x.rename ρ).ref ≠ ρ r.ref := fun he' =>
        he (hinj (mem_resting hx) (mem_resting hr) he')
      rw [if_neg he, if_neg hne]
  unfold Book.rewrite
  rw [hmap]
  exact h.setSide s _

theorem enqueue_rename (ρ : Addr → Addr) (s : Side) (r : Resting) (L : List Resting) :
    enqueue s (r.rename ρ) (L.map (Resting.rename ρ)) = (enqueue s r L).map (Resting.rename ρ) := by
  induction L with
  | nil => rfl
  | cons x L ih =>
    have hprice : s.better (r.rename ρ).price (x.rename ρ).price ↔ s.better r.price x.price := Iff.rfl
    rw [List.map_cons, enqueue_cons, enqueue_cons, ih]
    simp only [hprice]
    split_ifs <;> rfl

theorem rest (h : Renamed ρ b b') (o : Incoming) : Renamed ρ (b.rest o) (b'.rest (o.rename ρ)) := by
  have hside : (b'.side o.side) = (b.side o.side).map (Resting.rename ρ) := h.side o.side
  have hset := h.setSide o.side (enqueue o.side o.resting (b.side o.side))
  rw [← enqueue_rename, ← hside] at hset
  exact hset.setIndex o.id o.ref

theorem execution (h : Renamed ρ b b') (o : Incoming) :
    b'.execution (o.rename ρ) = (b.execution o).rename ρ := by
  unfold Book.execution
  rw [show (o.rename ρ).side = o.side from rfl, h.side]
  exact fillGreedily_rename ρ o.reaches _ o.quantity

theorem settle (h : Renamed ρ b b') (s : Side) (taker : OrderId) (time : Timestamp) (x : Execution) :
    Renamed ρ (b.settle s taker time x) (b'.settle s taker time (x.rename ρ)) := by
  have hset := h.setSide s x.rest
  refine ⟨hset.side, fun k => ?_, ?_⟩
  · have hids : (x.rename ρ).gone.map Resting.id = x.gone.map Resting.id := by
      rw [x.gone_rename ρ, List.map_map]
      rfl
    simp only [Book.settle, hids]
    split_ifs
    · rfl
    · exact h.index k
  · show b'.trades ++ (x.fills.map (Fill.rename ρ)).map (Fill.trade s taker time) = _
    rw [h.trades, List.map_map]
    rfl

theorem process (h : Renamed ρ b b') (o : Incoming) (time : Timestamp) :
    Renamed ρ (b.process o time) (b'.process (o.rename ρ) time) := by
  have hmatched := h.settle o.side.opposite o.id time (b.execution o)
  rw [← h.execution] at hmatched
  have hleft : (b'.execution (o.rename ρ)).left = (b.execution o).left := by
    rw [h.execution]
    rfl
  rw [process_eq_reference, process_eq_reference, referenceProcess, referenceProcess]
  rw [hleft, show (o.rename ρ).isMarket = o.isMarket from rfl]
  split_ifs
  · exact hmatched.rest { o with quantity := (b.execution o).left }
  · exact hmatched.release _ _

theorem distinct (h : Renamed ρ b b') (hd : b.Distinct) (hinj : Set.InjOn ρ b.resting) :
    b'.Distinct := by
  refine ⟨fun s => ?_, fun {s s' x x'} hx hx' he => ?_⟩
  · rw [h.side, refs_rename]
    refine (hd.nodup s).map_on fun a ha c hc hac => ?_
    exact hinj ⟨s, ha⟩ ⟨s, hc⟩ hac
  · rw [h.side] at hx hx'
    obtain ⟨r, hr, rfl⟩ := List.mem_map.mp hx
    obtain ⟨r', hr', rfl⟩ := List.mem_map.mp hx'
    obtain ⟨hs, rfl⟩ := hd.unique hr hr' (hinj (mem_resting hr) (mem_resting hr') he)
    exact ⟨hs, rfl⟩

theorem mem (h : Renamed ρ b b') (hr : r ∈ b.side s) : r.rename ρ ∈ b'.side s := by
  rw [h.side]
  exact List.mem_map_of_mem hr

theorem cancel (h : Renamed ρ b b') (hd : b.Distinct) (hi : b.Indexed)
    (hinj : Set.InjOn ρ b.resting) (id : OrderId) : Renamed ρ (b.cancel id) (b'.cancel id) := by
  cases hk : b.index id with
  | none =>
    rw [cancel_unknown hk, cancel_unknown (by rw [h.index, hk]; rfl)]
    exact h
  | some a =>
    obtain ⟨s, r, hr, rfl, -⟩ := hi id a hk
    have hk' : b'.index id = some (r.rename ρ).ref := by
      rw [h.index, hk]
      rfl
    rw [cancel_entry hd hr hk, cancel_entry (h.distinct hd hinj) (h.mem hr) hk']
    exact ((h.eraseId id).drop (r := r) hinj hr).release _ _

theorem modify (h : Renamed ρ b b') (hd : b.Distinct) (hi : b.Indexed)
    (hinj : Set.InjOn ρ b.resting) (origId newId : OrderId) (newPrice : Price) (newQty : Quantity) :
    Renamed ρ (b.modify origId newId newPrice newQty) (b'.modify origId newId newPrice newQty) := by
  cases hk : b.index origId with
  | none =>
    rw [modify_unknown hk, modify_unknown (by rw [h.index, hk]; rfl)]
    exact h
  | some a =>
    obtain ⟨s, r, hr, rfl, rfl⟩ := hi origId a hk
    have hk' : b'.index (r.rename ρ).id = some (r.rename ρ).ref := by
      rw [h.index]
      exact congrArg (Option.map ρ) hk
    have hentry := modify_entry (h.distinct hd hinj) (h.mem hr) hk' newId newPrice newQty
    rw [modify_entry hd hr hk]
    refine cast (congrArg (Renamed ρ _) hentry.symm) ?_
    rw [show (r.rename ρ).price = r.price from rfl, show (r.rename ρ).quantity = r.quantity from rfl]
    split_ifs
    · exact ((h.rewrite hinj hr newId newQty).eraseId r.id).setIndex newId r.ref
    · exact ((h.eraseId r.id).drop (r := r) hinj hr).rest ⟨r.ref, newId, newPrice, newQty, s, false⟩

theorem congr {ρ' : Addr → Addr} (h : Renamed ρ b b') (hi : b.Indexed)
    (hρ : ∀ a ∈ b.resting, ρ' a = ρ a) : Renamed ρ' b b' := by
  refine ⟨fun s => ?_, fun k => ?_, h.trades⟩
  · rw [h.side]
    refine List.map_congr_left fun x hx => ?_
    rw [Resting.rename, Resting.rename, hρ x.ref (mem_resting hx)]
  · rw [h.index]
    cases hk : b.index k with
    | none => rfl
    | some a =>
      obtain ⟨s, r, hr, rfl, -⟩ := hi k a hk
      rw [Option.map_some, Option.map_some, hρ r.ref (mem_resting hr)]

end Renamed
end Book
end LobCity
