import LobCity.LevelList

/-! A level as a sequence, and the other levels on its heap: what appending and removing do
to the one, and that they leave the others alone. Two levels share no order unless they
are one list, so a level is another one if it has not the same sequence. -/
namespace LobCity
open Library

structure Appended (h : Heap) (lvl : PriceLevel) (L : List Addr) (a : Addr)
    (r : PriceLevel × Heap) : Prop where
  sequence : Chained r.2 r.1 (L ++ [a])
  volume : r.1.totalVolume = lvl.totalVolume + (h a).quantity
  data : ∀ x, (r.2 x).unlink = (h x).unlink
  others : ∀ x, x ∉ L ++ [a] → r.2 x = h x
  levels : ∀ lvl' L', Chained h lvl' L' → a ∉ L' → (L' = L → L = []) → Chained r.2 lvl' L'

structure Removed (h : Heap) (lvl : PriceLevel) (L : List Addr) (a : Addr)
    (r : PriceLevel × Heap) : Prop where
  sequence : Chained r.2 r.1 (L.erase a)
  volume : r.1.totalVolume = lvl.totalVolume - (h a).quantity
  unlinked : r.2 a = { h a with next := none, prev := none }
  data : ∀ x, (r.2 x).unlink = (h x).unlink
  others : ∀ x, x ∉ L → r.2 x = h x
  levels : ∀ lvl' L', Chained h lvl' L' → a ∉ L' → Chained r.2 lvl' L'

namespace Chained
variable {h h' : Heap} {lvl lvl' : PriceLevel} {L L' : List Addr} {a : Addr}

theorem of_cells (hc : Chained h lvl L) (hcells : ∀ x ∈ L, h' x = h x) : Chained h' lvl L :=
  hc.congr (fun x hx => congrArg Order.next (hcells x hx)) fun x hx => congrArg Order.prev (hcells x hx)

theorem eq_of_mem (hc : Chained h lvl L) (hc' : Chained h lvl' L') (ha : a ∈ L) (ha' : a ∈ L') :
    L = L' := hc.links.eq_of_mem hc'.links ha ha'

theorem appended (hc : Chained h lvl L) (ha : a ∉ L) (hn : (h a).next = none)
    (hp : (h a).prev = none) : Appended h lvl L a (lvl.appendOrder a h) where
  sequence := PriceLevel.appendOrder_chained hc ha hn hp
  volume := PriceLevel.totalVolume_appendOrder
  data := PriceLevel.unlink_appendOrder
  others x hx := by
    simp only [List.mem_append, List.mem_singleton, not_or] at hx
    exact PriceLevel.appendOrder_frame hc hp hx.1 hx.2
  levels lvl' L' hc' ha' hother := by
    refine hc'.of_cells fun x hx => ?_
    have hxL : x ∉ L := by
      intro hxL
      rw [hother (hc'.eq_of_mem hc hx hxL)] at hxL
      exact List.not_mem_nil hxL
    have hxa : x ≠ a := ne_of_mem_of_not_mem hx ha'
    exact PriceLevel.appendOrder_frame hc hp hxL hxa

theorem removed (hc : Chained h lvl L) (ha : a ∈ L) : Removed h lvl L a (lvl.removeOrder a h) := by
  obtain ⟨A, B, rfl⟩ := List.append_of_mem ha
  obtain ⟨-, -, hA, -⟩ := hc.around
  have herase : (A ++ a :: B).erase a = A ++ B := by
    rw [List.erase_append_right _ hA, List.erase_cons_head]
  constructor
  case sequence =>
    rw [herase]
    exact PriceLevel.removeOrder_chained hc
  case volume => exact PriceLevel.totalVolume_removeOrder
  case unlinked => exact PriceLevel.removeOrder_self hc
  case data => exact PriceLevel.unlink_removeOrder
  case others => exact fun x hx => PriceLevel.removeOrder_frame hc hx
  case levels =>
    intro lvl' L' hc' ha'
    refine hc'.of_cells fun x hx => PriceLevel.removeOrder_frame hc fun hxL => ha' ?_
    rw [hc'.eq_of_mem hc hx hxL]
    exact ha

end Chained

/-- On any heap: appending an unlinked order puts it behind the sequence, removing any
member deletes it, and all else stays. -/
theorem PriceLevel.list_is_sequence {h : Heap} {lvl : PriceLevel} {L : List Addr}
    (hc : Chained h lvl L) :
    (∀ a ∉ L, (h a).next = none → (h a).prev = none → Appended h lvl L a (lvl.appendOrder a h)) ∧
      ∀ a ∈ L, Removed h lvl L a (lvl.removeOrder a h) :=
  ⟨fun _ ha hn hp => hc.appended ha hn hp, fun _ ha => hc.removed ha⟩

theorem PriceLevel.list_is_sequence_two :
    let order : Order := Order.new 7 100 5 .buy false
    let h : Heap := fun a =>
      if a = 0 then { order with next := some 1 } else if a = 1 then { order with prev := some 0 } else order
    let lvl : PriceLevel := ⟨100, some 0, some 1, 10⟩
    Chained (lvl.appendOrder 2 h).2 (lvl.appendOrder 2 h).1 [0, 1, 2] ∧
      (lvl.appendOrder 2 h).1.totalVolume = 15 ∧
      Chained (lvl.removeOrder 0 h).2 (lvl.removeOrder 0 h).1 [1] ∧
      (lvl.removeOrder 0 h).2 0 = order := by
  intro order h lvl
  have hc : Chained h lvl [0, 1] :=
    ⟨rfl, rfl, ⟨rfl, rfl, rfl, rfl, trivial⟩, by decide⟩
  obtain ⟨happend, hremove⟩ := PriceLevel.list_is_sequence hc
  have happended := happend 2 (by decide) rfl rfl
  have hremoved := hremove 0 (by decide)
  exact ⟨happended.sequence, happended.volume, hremoved.sequence, hremoved.unlinked⟩

end LobCity
