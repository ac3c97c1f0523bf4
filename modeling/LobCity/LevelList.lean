import LobCity.Types

/-! The intrusive list of a price level as a sequence of addresses: `appendOrder` pushes
behind the sequence, `removeOrder` deletes one member, and both leave every other cell
and all order data alone. -/
namespace LobCity
open Library

def Order.unlink (o : Order) : Order := { o with next := none, prev := none }

def Heap.next (h : Heap) : Addr → Option Addr := fun a => (h a).next
def Heap.prev (h : Heap) : Addr → Option Addr := fun a => (h a).prev

namespace Heap
variable (h : Heap) (a x : Addr)

theorem next_setNext (n : Option Addr) : (h.setNext a n).next = Function.update h.next a n := by
  funext x; by_cases hx : x = a <;> simp [next, setNext, hx]

theorem prev_setNext (n : Option Addr) : (h.setNext a n).prev = h.prev := by
  funext x; by_cases hx : x = a <;> simp [prev, setNext, hx]

theorem next_setPrev (p : Option Addr) : (h.setPrev a p).next = h.next := by
  funext x; by_cases hx : x = a <;> simp [next, setPrev, hx]

theorem prev_setPrev (p : Option Addr) : (h.setPrev a p).prev = Function.update h.prev a p := by
  funext x; by_cases hx : x = a <;> simp [prev, setPrev, hx]

theorem unlink_setNext (n : Option Addr) : (h.setNext a n x).unlink = (h x).unlink := by
  by_cases hx : x = a <;> simp [setNext, hx, Order.unlink]

theorem unlink_setPrev (p : Option Addr) : (h.setPrev a p x).unlink = (h x).unlink := by
  by_cases hx : x = a <;> simp [setPrev, hx, Order.unlink]

theorem quantity_setNext (n : Option Addr) : (h.setNext a n x).quantity = (h x).quantity :=
  (Order.mk.inj (unlink_setNext h a x n)).2.2.1

theorem quantity_setPrev (p : Option Addr) : (h.setPrev a p x).quantity = (h x).quantity :=
  (Order.mk.inj (unlink_setPrev h a x p)).2.2.1

theorem cell_ext {h h' : Heap} {x : Addr} (hn : h'.next x = h.next x) (hp : h'.prev x = h.prev x)
    (hu : (h' x).unlink = (h x).unlink) : h' x = h x := by
  have hl : ∀ o : Order, o = { o.unlink with next := o.next, prev := o.prev } := fun _ => rfl
  rw [hl (h' x), hl (h x), hu]
  exact congrArg₂ (fun n p => { (h x).unlink with next := n, prev := p }) hn hp

end Heap

structure Chained (h : Heap) (lvl : PriceLevel) (L : List Addr) : Prop where
  head : lvl.head = L.head?
  tail : lvl.tail = L.getLast?
  links : Segment h.next h.prev none L none
  nodup : L.Nodup

namespace Chained
variable {h h' : Heap} {lvl : PriceLevel} {L : List Addr}

theorem congr (hc : Chained h lvl L) (hn : ∀ a ∈ L, h'.next a = h.next a)
    (hp : ∀ a ∈ L, h'.prev a = h.prev a) : Chained h' lvl L :=
  ⟨hc.head, hc.tail, hc.links.congr hn hp, hc.nodup⟩

theorem around {A B : List Addr} {a : Addr} (hc : Chained h lvl (A ++ a :: B)) :
    (h a).prev = A.getLast? ∧ (h a).next = B.head? ∧ a ∉ A ∧ a ∉ B := by
  obtain ⟨hp, hn⟩ := hc.links.links
  obtain ⟨-, hB, hd⟩ := List.nodup_append.mp hc.nodup
  refine ⟨by simpa [Heap.prev] using hp, by simpa [Heap.next] using hn, fun ha => hd a ha a (by simp) rfl, ?_⟩
  exact (List.nodup_cons.mp hB).1

end Chained

namespace PriceLevel
variable {h : Heap} {lvl : PriceLevel}

section Append
variable {L : List Addr} {a : Addr}

theorem next_appendOrder (hc : Chained h lvl L) :
    (lvl.appendOrder a h).2.next = Segment.setLast h.next L (some a) := by
  unfold appendOrder Segment.setLast
  rw [hc.head, hc.tail]
  cases L with
  | nil => rfl
  | cons b L =>
    cases hl : (b :: L).getLast? with
    | none => simp at hl
    | some t => simp [Heap.next_setPrev, Heap.next_setNext]

theorem prev_appendOrder (hc : Chained h lvl L) (ha : (h a).prev = none) :
    (lvl.appendOrder a h).2.prev = Function.update h.prev a L.getLast? := by
  unfold appendOrder
  rw [hc.head, hc.tail]
  cases L with
  | nil =>
    funext x
    by_cases hx : x = a <;> simp [hx, Heap.prev, ha]
  | cons b L =>
    cases hl : (b :: L).getLast? with
    | none => simp at hl
    | some t => simp [Heap.prev_setPrev, Heap.prev_setNext]

theorem unlink_appendOrder (x : Addr) :
    ((lvl.appendOrder a h).2 x).unlink = (h x).unlink := by
  unfold appendOrder
  cases lvl.head with
  | none => rfl
  | some b => cases lvl.tail <;> simp [Heap.unlink_setPrev, Heap.unlink_setNext]

theorem price_appendOrder : (lvl.appendOrder a h).1.price = lvl.price := by
  unfold appendOrder
  cases lvl.head <;> rfl

theorem totalVolume_appendOrder :
    (lvl.appendOrder a h).1.totalVolume = lvl.totalVolume + (h a).quantity := by
  have hq : ((lvl.appendOrder a h).2 a).unlink.quantity = (h a).unlink.quantity :=
    congrArg Order.quantity (unlink_appendOrder a)
  unfold appendOrder at hq ⊢
  cases hh : lvl.head with
  | none => rfl
  | some b => simpa [hh, Order.unlink] using hq

/-- `appendOrder` of an order with null links puts it at the tail of the sequence. -/
theorem appendOrder_chained (hc : Chained h lvl L) (ha : a ∉ L) (hn : (h a).next = none)
    (hp : (h a).prev = none) :
    Chained (lvl.appendOrder a h).2 (lvl.appendOrder a h).1 (L ++ [a]) := by
  refine ⟨?_, ?_, ?_, ?_⟩
  · unfold appendOrder
    cases L with
    | nil => simp [hc.head]
    | cons b L => simp [hc.head]
  · unfold appendOrder
    cases L with
    | nil => simp [hc.head]
    | cons b L => simpa [hc.head] using (List.getLast?_concat (a := a) (l := b :: L)).symm
  · rw [next_appendOrder hc, prev_appendOrder hc hp]
    exact hc.links.push_back hc.nodup ha hn
  · refine List.nodup_append.mpr ⟨hc.nodup, by simp, fun b hb c hc' he => ?_⟩
    have hca : c = a := by simpa using hc'
    exact ha (hca ▸ he ▸ hb)

theorem appendOrder_frame (hc : Chained h lvl L) {x : Addr} (hp : (h a).prev = none) (hx : x ∉ L)
    (hxa : x ≠ a) : (lvl.appendOrder a h).2 x = h x := by
  refine Heap.cell_ext ?_ ?_ (unlink_appendOrder x)
  · rw [next_appendOrder hc]
    exact Segment.setLast_of_not_mem hx
  · rw [prev_appendOrder hc hp]
    exact Function.update_of_ne hxa _ _

end Append

section Remove
variable {A B : List Addr} {a : Addr}

theorem next_removeOrder (hc : Chained h lvl (A ++ a :: B)) :
    (lvl.removeOrder a h).2.next =
      Function.update (Segment.setLast h.next A B.head?) a none := by
  obtain ⟨hp, hn, hA, hB⟩ := hc.around
  unfold removeOrder Segment.setLast
  rw [hp, hn]
  cases hl : A.getLast? with
  | none => cases hb : B.head? <;> simp [hn, hb, Heap.next_setPrev, Heap.next_setNext]
  | some t =>
    have hta : a ≠ t := fun he => hA (he ▸ List.mem_of_getLast? hl)
    have h1 : ((h.setNext t B.head?) a).next = B.head? := by simp [Heap.setNext, hta, hn]
    cases hb : B.head? <;> rw [hb] at h1 <;> simp [h1, Heap.next_setPrev, Heap.next_setNext]

theorem prev_removeOrder (hc : Chained h lvl (A ++ a :: B)) :
    (lvl.removeOrder a h).2.prev =
      Function.update (Segment.setFirst h.prev B A.getLast?) a none := by
  obtain ⟨hp, hn, hA, hB⟩ := hc.around
  unfold removeOrder Segment.setFirst
  rw [hp, hn]
  cases hl : A.getLast? with
  | none => cases hb : B.head? <;> simp [hn, hp, hl, hb, Heap.prev_setPrev, Heap.prev_setNext]
  | some t =>
    have hta : a ≠ t := fun he => hA (he ▸ List.mem_of_getLast? hl)
    have h1 : (h.setNext t B.head?) a = h a := by simp [Heap.setNext, hta]
    cases hb : B.head? <;> rw [hb] at h1 <;>
      simp [h1, hn, hp, hl, hb, Heap.prev_setPrev, Heap.prev_setNext]

theorem unlink_removeOrder (x : Addr) :
    ((lvl.removeOrder a h).2 x).unlink = (h x).unlink := by
  unfold removeOrder
  cases (h a).prev with
  | none => dsimp only; split <;> simp [Heap.unlink_setPrev, Heap.unlink_setNext]
  | some p => dsimp only; split <;> simp [Heap.unlink_setPrev, Heap.unlink_setNext]

theorem head_removeOrder (hc : Chained h lvl (A ++ a :: B)) :
    (lvl.removeOrder a h).1.head = (A ++ B).head? := by
  obtain ⟨hp, hn, hA, hB⟩ := hc.around
  unfold removeOrder
  rw [hp, hn]
  cases A with
  | nil => cases hb : B.head? <;> simp [hn, hb]
  | cons b A =>
    cases hl : (b :: A).getLast? with
    | none => simp at hl
    | some t => dsimp only; split <;> simp [hc.head]

theorem tail_removeOrder (hc : Chained h lvl (A ++ a :: B)) :
    (lvl.removeOrder a h).1.tail = (A ++ B).getLast? := by
  obtain ⟨hp, hn, hA, hB⟩ := hc.around
  have ht : ∀ b C, B = b :: C → lvl.tail = (A ++ B).getLast? := by
    intro b C he
    rw [hc.tail, he]
    simp [List.getLast?_append, List.getLast?_cons_cons]
  unfold removeOrder
  rw [hp, hn]
  cases hl : A.getLast? with
  | none =>
    have hA0 : A = [] := by simpa using hl
    cases B with
    | nil => simp [hn, hp, hA0]
    | cons b C => simpa [hn] using ht b C rfl
  | some t =>
    have hta : a ≠ t := fun he => hA (he ▸ List.mem_of_getLast? hl)
    have h1 : (h.setNext t B.head?) a = h a := by simp [Heap.setNext, hta]
    cases B with
    | nil => rw [List.head?_nil] at h1; simp [h1, hn, hp, hl]
    | cons b C => rw [List.head?_cons] at h1; simpa [h1, hn] using ht b C rfl

theorem price_removeOrder : (lvl.removeOrder a h).1.price = lvl.price := by
  unfold removeOrder
  cases (h a).prev with
  | none => dsimp only; split <;> rfl
  | some p => dsimp only; split <;> rfl

theorem totalVolume_removeOrder :
    (lvl.removeOrder a h).1.totalVolume = lvl.totalVolume - (h a).quantity := by
  unfold removeOrder
  cases (h a).prev with
  | none => dsimp only; split <;> simp [Heap.quantity_setPrev]
  | some p => dsimp only; split <;> simp [Heap.quantity_setPrev, Heap.quantity_setNext]

/-- `removeOrder` of any member deletes it from the sequence and keeps the others in order. -/
theorem removeOrder_chained (hc : Chained h lvl (A ++ a :: B)) :
    Chained (lvl.removeOrder a h).2 (lvl.removeOrder a h).1 (A ++ B) := by
  obtain ⟨hp, hn, hA, hB⟩ := hc.around
  have hsub : (A ++ B).Sublist (A ++ a :: B) :=
    (List.Sublist.refl A).append (List.sublist_cons_self a B)
  refine ⟨head_removeOrder hc, tail_removeOrder hc, ?_, hc.nodup.sublist hsub⟩
  have ha : ∀ x ∈ A ++ B, x ≠ a := by
    rintro x hx rfl
    exact (List.mem_append.mp hx).elim hA hB
  have hu := hc.links.unlink hc.nodup
  rw [show h.next a = B.head? from hn, show h.prev a = A.getLast? from hp] at hu
  rw [next_removeOrder hc, prev_removeOrder hc]
  exact hu.congr (fun x hx => Function.update_of_ne (ha x hx) _ _)
    (fun x hx => Function.update_of_ne (ha x hx) _ _)

theorem removeOrder_self (hc : Chained h lvl (A ++ a :: B)) :
    (lvl.removeOrder a h).2 a = (h a).unlink := by
  have hn : ((lvl.removeOrder a h).2 a).next = none :=
    (congrFun (next_removeOrder hc) a).trans (by simp)
  have hp : ((lvl.removeOrder a h).2 a).prev = none :=
    (congrFun (prev_removeOrder hc) a).trans (by simp)
  have hu : ((lvl.removeOrder a h).2 a).unlink = (h a).unlink := unlink_removeOrder a
  generalize (lvl.removeOrder a h).2 a = o at hn hp hu
  cases o
  simp_all [Order.unlink]

theorem removeOrder_frame (hc : Chained h lvl (A ++ a :: B)) {x : Addr} (hx : x ∉ A ++ a :: B) :
    (lvl.removeOrder a h).2 x = h x := by
  simp only [List.mem_append, List.mem_cons, not_or] at hx
  obtain ⟨hxA, hxa, hxB⟩ := hx
  refine Heap.cell_ext ?_ ?_ (unlink_removeOrder x)
  · rw [next_removeOrder hc, Function.update_of_ne hxa, Segment.setLast_of_not_mem hxA]
  · rw [prev_removeOrder hc, Function.update_of_ne hxa, Segment.setFirst_of_not_mem hxB]

end Remove
end PriceLevel
end LobCity
