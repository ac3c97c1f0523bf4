import Mathlib.Data.List.Sort

/-! The value at a rank of a list, in a total order in which different values may stand at one
place: so many are below it, and more are not above it. -/
namespace LobCity.Library
variable {α : Type*}

structure Ranked (le : α → α → Prop) [DecidableRel le] (xs : List α) (k : ℕ) (v : α) : Prop where
  mem : v ∈ xs
  below : xs.countP (fun x => ¬ le v x) ≤ k
  upTo : k < xs.countP fun x => le x v

section Ranks
variable {le : α → α → Prop} [DecidableRel le] [Std.Total le] [IsTrans α le]
  {xs ys : List α} {k k' : ℕ} {v v' : α}

omit [Std.Total le] [IsTrans α le] in
theorem Ranked.perm (h : Ranked le xs k v) (hperm : xs.Perm ys) : Ranked le ys k v :=
  ⟨hperm.mem_iff.mp h.mem, hperm.countP_eq _ ▸ h.below, hperm.countP_eq _ ▸ h.upTo⟩

omit [Std.Total le] in
theorem Ranked.mono (h : Ranked le xs k v) (h' : Ranked le xs k' v') (hk : k ≤ k') : le v v' := by
  by_contra hnot
  have hcount : xs.countP (fun x => le x v') ≤ xs.countP fun x => ¬ le v x := by
    refine List.countP_mono_left fun x _ hx => ?_
    have hx : le x v' := of_decide_eq_true hx
    exact decide_eq_true fun hvx => hnot (IsTrans.trans _ _ _ hvx hx)
  have hbelow := h.below
  have hupTo := h'.upTo
  omega

omit [IsTrans α le] in
/-- In a sorted list the ranks are the places. -/
theorem ranked_getElem (hs : xs.Pairwise le) (hk : k < xs.length) : Ranked le xs k (xs.get ⟨k, hk⟩) := by
  have hrefl (x : α) : le x x := (Std.Total.total x x).elim id id
  have hsplit : xs = xs.take k ++ xs.get ⟨k, hk⟩ :: xs.drop (k + 1) := by
    rw [List.get_eq_getElem, ← List.drop_eq_getElem_cons hk, List.take_append_drop]
  set v := xs.get ⟨k, hk⟩ with hv
  have hlength : (xs.take k).length = k := List.length_take_of_le (Nat.le_of_lt hk)
  rw [hsplit, List.pairwise_append, List.pairwise_cons] at hs
  obtain ⟨-, ⟨hafter, -⟩, hbefore⟩ := hs
  refine ⟨List.get_mem xs ⟨k, hk⟩, ?_, ?_⟩
  · rw [hsplit, List.countP_append]
    have hrest : (v :: xs.drop (k + 1)).countP (fun x => ¬ le v x) = 0 := by
      refine List.countP_eq_zero.mpr fun x hx => ?_
      rcases List.mem_cons.mp hx with rfl | hx
      · simpa using hrefl v
      · simpa using hafter x hx
    rw [hrest, Nat.add_zero]
    exact List.countP_le_length.trans_eq hlength
  · rw [hsplit, List.countP_append, List.countP_cons]
    have hfront : (xs.take k).countP (fun x => le x v) = k := by
      refine (List.countP_eq_length.mpr fun x hx => ?_).trans hlength
      exact decide_eq_true (hbefore x hx v List.mem_cons_self)
    rw [hfront, if_pos (decide_eq_true (hrefl v))]
    omega

/-- Every rank is taken, by the value that sorting puts there. -/
theorem ranked_insertionSort (hk : k < xs.length) :
    ∃ v, (xs.insertionSort le)[k]? = some v ∧ Ranked le xs k v := by
  have hk' : k < (xs.insertionSort le).length := by rwa [List.length_insertionSort]
  exact ⟨_, List.getElem?_eq_getElem hk',
    (ranked_getElem (List.pairwise_insertionSort le xs) hk').perm (List.perm_insertionSort le xs)⟩

end Ranks
end LobCity.Library
