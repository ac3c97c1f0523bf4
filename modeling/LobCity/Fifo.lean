import LobCity.Spsc

/-! The ring between two threads is a bounded first-in first-out queue. The invariant
counts items instead of indices: an index is the slot of a count, and a stale copy of one
is the slot of a count that was current at its load. -/
namespace LobCity.Spsc
variable {T : Type} {Size : Nat} [NeZero Size]
open RingBuffer (slot advance advance_slot slot_inj)

/-- `a` items accepted, `p` popped, `saw` outstanding when this `push` loaded the tail. -/
def PushOk (buffer : Fin Size → T) (a p saw : Nat) : Push T Size → Prop
  | .idle => True
  | .loadedTail _ t => ∃ m ≤ p, t = slot m ∧ a < m + Size ∧ saw = a - m
  | .writing _ h => h = slot a ∧ a + 1 < p + Size
  | .written item h => h = slot a ∧ a + 1 < p + Size ∧ buffer h = item

def PopOk (accepted : List (Fin Size × T)) (p saw : Nat) : Pop T Size → Prop
  | .idle => True
  | .loadedHead h => ∃ m ≤ accepted.length, p ≤ m ∧ h = slot m ∧ saw = m - p
  | .loadedTail t => t = slot p
  | .reading t => t = slot p ∧ p < accepted.length
  | .read item t => t = slot p ∧ (accepted.map Prod.snd)[p]? = some item

structure Inv (s : State T Size) (o : History T Size) : Prop where
  fifo : o.popped <+: o.accepted.map Prod.snd
  bounded : o.accepted.length < o.popped.length + Size
  slots : ∀ i k x, o.accepted[i]? = some (k, x) → k = slot i
  stored : ∀ i k x, o.accepted[i]? = some (k, x) → o.popped.length ≤ i → s.ring.buffer k = x
  head : s.ring.head = slot o.accepted.length
  tail : s.ring.tail = slot o.popped.length
  push : PushOk s.ring.buffer o.accepted.length o.popped.length o.pushSaw s.producer
  pop : PopOk o.accepted o.popped.length o.popSaw s.consumer
  full : ∀ n ∈ o.failedPushes, n = Size - 1
  empty : ∀ n ∈ o.failedPops, n = 0

theorem PushOk.pop {buffer : Fin Size → T} {a p saw : Nat} {c : Push T Size}
    (h : PushOk buffer a p saw c) : PushOk buffer a (p + 1) saw c := by
  cases c with
  | idle => trivial
  | loadedTail item t =>
    obtain ⟨m, hm, ht, ha, hsaw⟩ := h
    exact ⟨m, by omega, ht, ha, hsaw⟩
  | writing item h' =>
    obtain ⟨hh, hfree⟩ := h
    exact ⟨hh, by omega⟩
  | written item h' =>
    obtain ⟨hh, hfree, hbuf⟩ := h
    exact ⟨hh, by omega, hbuf⟩

theorem PopOk.push {accepted : List (Fin Size × T)} {p saw : Nat} {c : Pop T Size}
    (h : PopOk accepted p saw c) (e : Fin Size × T) : PopOk (accepted ++ [e]) p saw c := by
  have hlen : (accepted ++ [e]).length = accepted.length + 1 := List.length_append
  cases c with
  | idle => trivial
  | loadedHead h' =>
    obtain ⟨m, hm, hp, hh, hsaw⟩ := h
    exact ⟨m, by omega, hp, hh, hsaw⟩
  | loadedTail t => exact h
  | reading t =>
    obtain ⟨ht, hp⟩ := h
    exact ⟨ht, by omega⟩
  | read item t =>
    obtain ⟨ht, hx⟩ := h
    obtain ⟨hp, -⟩ := List.getElem?_eq_some_iff.mp hx
    exact ⟨ht, by rw [List.map_append, List.getElem?_append_left hp]; exact hx⟩

theorem getElem?_snoc {α : Type} {l : List α} {e x : α} {i : Nat}
    (h : (l ++ [e])[i]? = some x) : l[i]? = some x ∨ i = l.length ∧ x = e := by
  obtain hlt | heq | hgt := Nat.lt_trichotomy i l.length
  · left
    rwa [List.getElem?_append_left hlt] at h
  · right
    rw [heq, List.getElem?_concat_length] at h
    exact ⟨heq, (Option.some.inj h).symm⟩
  · rw [List.getElem?_eq_none (by rw [List.length_append, List.length_singleton]; omega)] at h
    cases h

theorem prefix_snoc {l m : List T} {x : T} (h : l <+: m) (hx : m[l.length]? = some x) :
    l ++ [x] <+: m := by
  obtain ⟨t, rfl⟩ := h
  cases t with
  | nil => simp at hx
  | cons y t =>
    have hy : y = x := by simpa using hx
    exact ⟨t, by simp [hy]⟩

/-- The index test of `push`: the next head meets the loaded tail exactly when `Size - 1`
items lay between the two counts. -/
theorem full_iff {a m : Nat} (hm : m ≤ a) (ha : a < m + Size) :
    advance (slot a : Fin Size) = slot m ↔ a + 1 = m + Size := by
  rw [advance_slot]
  constructor
  · intro h
    by_contra hne
    have heq := slot_inj (show m ≤ a + 1 by omega) (by omega) h.symm
    omega
  · intro h
    rw [h]
    apply Fin.ext
    simp [slot]

theorem empty_iff {m p : Nat} (hp : p ≤ m) (hm : m < p + Size) :
    (slot m : Fin Size) = slot p ↔ m = p := by
  constructor
  · intro h
    exact (slot_inj hp hm h.symm).symm
  · intro h
    rw [h]

theorem inv_new (init : Fin Size → T) : Inv (State.new init) {} where
  fifo := List.prefix_refl _
  bounded := by simp [Nat.pos_of_neZero]
  slots := by simp
  stored := by simp
  head := RingBuffer.slot_zero.symm
  tail := RingBuffer.slot_zero.symm
  push := trivial
  pop := trivial
  full := by simp
  empty := by simp

namespace Inv
variable {s s' : State T Size} {o : History T Size}

theorem le (h : Inv s o) : o.popped.length ≤ o.accepted.length := by
  have hlen := h.fifo.length_le
  rwa [List.length_map] at hlen

/-- A slot that holds an unread item is the slot of its count, and no other count less
than `Size` past the first unread one has it. -/
theorem ne_slot (h : Inv s o) {i n : Nat} {k : Fin Size} {x : T}
    (hi : o.accepted[i]? = some (k, x)) (hpi : o.popped.length ≤ i)
    (hn : o.accepted.length ≤ n) (hfree : n < o.popped.length + Size) : k ≠ slot n := by
  intro hk
  obtain ⟨hlt, -⟩ := List.getElem?_eq_some_iff.mp hi
  rw [h.slots i k x hi] at hk
  have heq := slot_inj (by omega) (by omega) hk
  omega

theorem not_mem_unread (h : Inv s o) {n : Nat} (hn : o.accepted.length ≤ n)
    (hfree : n < o.popped.length + Size) : slot n ∉ o.unread := by
  intro hmem
  obtain ⟨⟨k, x⟩, hkx, hk⟩ := List.mem_map.mp hmem
  obtain ⟨i, hi⟩ := List.mem_iff_getElem?.mp hkx
  rw [List.getElem?_drop] at hi
  exact h.ne_slot hi (Nat.le_add_right ..) hn hfree hk

theorem pushCall (h : Inv s o) (item : T) :
    Inv { s with producer := .loadedTail item s.ring.tail } { o with pushSaw := o.outstanding } :=
  { h with push := ⟨o.popped.length, Nat.le_refl _, h.tail, h.bounded, rfl⟩ }

theorem pushFails (h : Inv s o) (hsaw : o.pushSaw = Size - 1) :
    Inv { s with producer := .idle } { o with failedPushes := o.failedPushes ++ [o.pushSaw] } := by
  refine { h with push := trivial, full := ?_ }
  intro n hn
  cases List.mem_append.mp hn with
  | inl hn =>
    exact h.full n hn
  | inr hn =>
    rw [List.mem_singleton.mp hn, hsaw]

theorem write (h : Inv s o) {item : T} (hfree : o.accepted.length + 1 < o.popped.length + Size) :
    Inv { s with ring := { s.ring with
                   buffer := Function.update s.ring.buffer (slot o.accepted.length) item },
                 producer := .written item (slot o.accepted.length) } o := by
  refine { h with push := ⟨rfl, hfree, Function.update_self ..⟩, stored := ?_ }
  intro i k x hi hpi
  have hne := h.ne_slot hi hpi (Nat.le_refl _) (by omega)
  exact (Function.update_of_ne hne ..).trans (h.stored i k x hi hpi)

theorem accept (h : Inv s o) {item : T} (hfree : o.accepted.length + 1 < o.popped.length + Size)
    (hbuf : s.ring.buffer (slot o.accepted.length) = item) :
    Inv { s with ring := { s.ring with head := advance (slot o.accepted.length) },
                 producer := .idle }
      { o with accepted := o.accepted ++ [(slot o.accepted.length, item)] } where
  fifo := by
    rw [List.map_append]
    exact h.fifo.trans (List.prefix_append ..)
  bounded := by
    rw [List.length_append]
    exact hfree
  slots := by
    intro i k x hi
    cases getElem?_snoc hi with
    | inl hold =>
      exact h.slots i k x hold
    | inr hnew =>
      obtain ⟨rfl, hnew⟩ := hnew
      exact congrArg Prod.fst hnew
  stored := by
    intro i k x hi hpi
    cases getElem?_snoc hi with
    | inl hold =>
      exact h.stored i k x hold hpi
    | inr hnew =>
      obtain ⟨rfl, hnew⟩ := hnew
      obtain ⟨rfl, rfl⟩ := Prod.mk.inj hnew
      exact hbuf
  head := by
    rw [List.length_append]
    exact advance_slot _
  tail := h.tail
  push := trivial
  pop := h.pop.push _
  full := h.full
  empty := h.empty

theorem producerStep (h : Inv s o) (hs : Spsc.producerStep s = some s') :
    Inv s' (o.afterProducer s) := by
  have hok := h.push
  unfold Spsc.producerStep at hs
  unfold History.afterProducer
  cases hp : s.producer with
  | idle => simp [hp] at hs
  | loadedTail item t =>
    rw [hp] at hok
    obtain ⟨m, hm, rfl, ha, hsaw⟩ := hok
    have hfull := full_iff (Nat.le_trans hm h.le) ha
    simp only [hp, h.head] at hs ⊢
    by_cases hcmp : advance (slot o.accepted.length : Fin Size) = slot m
    · rw [if_pos hcmp] at hs ⊢
      have hlen := hfull.mp hcmp
      cases hs
      exact h.pushFails (by omega)
    · rw [if_neg hcmp] at hs ⊢
      have hlen : o.accepted.length + 1 ≠ m + Size := mt hfull.mpr hcmp
      have hfree : o.accepted.length + 1 < o.popped.length + Size := by omega
      cases hs
      exact { h with push := ⟨rfl, hfree⟩ }
  | writing item hd =>
    rw [hp] at hok
    obtain ⟨rfl, hfree⟩ := hok
    simp only [hp] at hs ⊢
    cases hs
    exact h.write hfree
  | written item hd =>
    rw [hp] at hok
    obtain ⟨rfl, hfree, hbuf⟩ := hok
    simp only [hp] at hs ⊢
    cases hs
    exact h.accept hfree hbuf

theorem popFails (h : Inv s o) {saw : Nat} (hsaw : saw = 0) :
    Inv { s with consumer := .idle }
      { o with popSaw := saw, failedPops := o.failedPops ++ [saw] } := by
  refine { h with pop := trivial, empty := ?_ }
  intro n hn
  cases List.mem_append.mp hn with
  | inl hn =>
    exact h.empty n hn
  | inr hn =>
    rw [List.mem_singleton.mp hn, hsaw]

theorem read (h : Inv s o) (hlt : o.popped.length < o.accepted.length) :
    Inv { s with consumer := .read (s.ring.buffer (slot o.popped.length)) (slot o.popped.length) }
      o := by
  refine { h with pop := ⟨rfl, ?_⟩ }
  obtain ⟨⟨k, x⟩, hi⟩ : ∃ e, o.accepted[o.popped.length]? = some e :=
    ⟨_, List.getElem?_eq_getElem hlt⟩
  have hk := h.slots _ k x hi
  have hx := h.stored _ k x hi (Nat.le_refl _)
  rw [List.getElem?_map, hi, ← hk, hx]
  rfl

theorem take (h : Inv s o) {item : T}
    (hitem : (o.accepted.map Prod.snd)[o.popped.length]? = some item) :
    Inv { s with ring := { s.ring with tail := advance (slot o.popped.length) },
                 consumer := .idle }
      { o with popped := o.popped ++ [item] } := by
  have hlen : (o.popped ++ [item]).length = o.popped.length + 1 := List.length_append
  have hb : o.accepted.length < (o.popped ++ [item]).length + Size :=
    Nat.lt_of_lt_of_le h.bounded (by omega)
  refine { h with fifo := prefix_snoc h.fifo hitem, bounded := hb, stored := ?_, tail := ?_,
                  push := ?_, pop := trivial }
  · intro i k x hi hpi
    rw [hlen] at hpi
    exact h.stored i k x hi (by omega)
  · rw [hlen]
    exact advance_slot _
  · rw [hlen]
    exact h.push.pop

theorem consumerStep {order : LoadOrder} (h : Inv s o)
    (hs : Spsc.consumerStep order s = some s') : Inv s' (o.afterConsumer order s) := by
  have hok := h.pop
  have hle := h.le
  have hb := h.bounded
  unfold Spsc.consumerStep at hs
  unfold History.afterConsumer
  cases hp : s.consumer with
  | idle =>
    cases order with
    | headFirst =>
      simp only [hp] at hs ⊢
      cases hs
      exact { h with pop := ⟨o.accepted.length, Nat.le_refl _, hle, h.head, rfl⟩ }
    | tailFirst =>
      simp only [hp] at hs ⊢
      cases hs
      exact { h with pop := h.tail }
  | loadedHead hd =>
    rw [hp] at hok
    obtain ⟨m, hm, hpm, rfl, hsaw⟩ := hok
    have hempty : (slot m : Fin Size) = slot o.popped.length ↔ m = o.popped.length :=
      empty_iff hpm (by omega)
    simp only [hp, h.tail] at hs ⊢
    by_cases hcmp : (slot m : Fin Size) = slot o.popped.length
    · rw [if_pos hcmp] at hs ⊢
      have heq := hempty.mp hcmp
      cases hs
      exact h.popFails (by omega)
    · rw [if_neg hcmp] at hs ⊢
      have hne : m ≠ o.popped.length := mt hempty.mpr hcmp
      cases hs
      exact { h with pop := ⟨rfl, by omega⟩ }
  | loadedTail t =>
    rw [hp] at hok
    obtain rfl : t = slot o.popped.length := hok
    have hempty : (slot o.accepted.length : Fin Size) = slot o.popped.length ↔
        o.accepted.length = o.popped.length := empty_iff hle hb
    simp only [hp, h.head] at hs ⊢
    by_cases hcmp : (slot o.accepted.length : Fin Size) = slot o.popped.length
    · rw [if_pos hcmp] at hs ⊢
      have heq := hempty.mp hcmp
      cases hs
      exact h.popFails (by unfold History.outstanding; omega)
    · rw [if_neg hcmp] at hs ⊢
      have hne : o.accepted.length ≠ o.popped.length := mt hempty.mpr hcmp
      have hlt : o.popped.length < o.accepted.length := by omega
      cases hs
      exact { h with pop := ⟨rfl, hlt⟩ }
  | reading t =>
    rw [hp] at hok
    obtain ⟨rfl, hlt⟩ := hok
    simp only [hp] at hs ⊢
    cases hs
    exact h.read hlt
  | read item t =>
    rw [hp] at hok
    obtain ⟨rfl, hitem⟩ := hok
    simp only [hp] at hs ⊢
    cases hs
    exact h.take hitem

theorem step {order : LoadOrder} (h : Inv s o) {ev : Event T}
    (hs : Spsc.step order s ev = some s') : Inv s' (o.after order s ev) := by
  cases ev with
  | push item =>
    cases hp : s.producer with
    | idle =>
      simp only [Spsc.step, hp] at hs
      cases hs
      exact h.pushCall item
    | loadedTail => simp [Spsc.step, hp] at hs
    | writing => simp [Spsc.step, hp] at hs
    | written => simp [Spsc.step, hp] at hs
  | producer => exact h.producerStep hs
  | consumer => exact h.consumerStep hs

/-- The slot a `push` is about to write, or has written and not yet published, is free. -/
theorem slot_free (h : Inv s o) {k : Fin Size} (hk : s.producer.slot? = some k) :
    k ∉ o.unread := by
  have hok := h.push
  cases hp : s.producer with
  | idle => simp [Push.slot?, hp] at hk
  | loadedTail => simp [Push.slot?, hp] at hk
  | writing item hd =>
    rw [hp] at hk hok
    cases hk
    rw [hok.1]
    exact h.not_mem_unread (Nat.le_refl _) (by have := hok.2; omega)
  | written item hd =>
    rw [hp] at hk hok
    cases hk
    rw [hok.1]
    exact h.not_mem_unread (Nat.le_refl _) (by have := hok.2.1; omega)

end Inv

theorem run_inv (order : LoadOrder) (init : Fin Size → T) (evs : List (Event T))
    {w : Observed T Size}
    (h : Library.run (Observed.step order) (Observed.new init) evs = some w) :
    Inv w.state w.history := by
  have hstep : ∀ (u : Observed T Size) ev u', Inv u.state u.history →
      Observed.step order u ev = some u' → Inv u'.state u'.history := by
    intro u ev u' hu hs
    obtain ⟨s', hs', rfl⟩ := Option.map_eq_some_iff.mp hs
    exact hu.step hs'
  have hnew : Inv (Observed.new init).state (Observed.new init).history := inv_new init
  exact Library.run_kept hstep hnew h

/-- Every interleaving of the two threads, for a ring of any size and either order of
the loads in `pop`. -/
theorem run_fifo (order : LoadOrder) (init : Fin Size → T) (evs : List (Event T))
    {w : Observed T Size}
    (h : Library.run (Observed.step order) (Observed.new init) evs = some w) :
    w.history.popped <+: w.history.accepted.map Prod.snd ∧
    w.history.accepted.length ≤ w.history.popped.length + (Size - 1) ∧
    (∀ n ∈ w.history.failedPushes, n = Size - 1) ∧
    (∀ n ∈ w.history.failedPops, n = 0) ∧
    ∀ k, w.state.producer.slot? = some k → k ∉ w.history.unread := by
  have hinv := run_inv order init evs h
  have hb := hinv.bounded
  exact ⟨hinv.fifo, by omega, hinv.full, hinv.empty, fun k hk => hinv.slot_free hk⟩

/-- Two slots, so one item at most: the second `push` loads a tail that is stale when it
compares, the third goes through, and both indices pass the end of the ring. -/
def wrapEvents : List (Event Nat) :=
  [.push 7, .producer, .producer, .producer,
   .push 8, .consumer, .consumer, .consumer, .consumer, .producer,
   .push 9, .producer, .producer, .consumer, .producer, .consumer,
   .consumer, .consumer, .consumer, .consumer]

theorem run_fifo_wrap :
    ∃ w : Observed Nat 2,
      Library.run (Observed.step .headFirst) (Observed.new fun _ => 0) wrapEvents = some w ∧
      w.history.popped = [7, 9] ∧ w.history.failedPushes = [1] ∧
      w.history.failedPops = [0] ∧
      w.history.popped <+: w.history.accepted.map Prod.snd := by
  have hsome : (Library.run (Observed.step .headFirst)
      (Observed.new fun _ : Fin 2 => 0) wrapEvents).isSome := by decide
  obtain ⟨w, hw⟩ := Option.isSome_iff_exists.mp hsome
  have hpopped : (Library.run (Observed.step .headFirst)
      (Observed.new fun _ : Fin 2 => 0) wrapEvents).map (fun w => (w.history.popped,
        w.history.failedPushes, w.history.failedPops)) = some ([7, 9], [1], [0]) := by decide
  rw [hw] at hpopped
  have hlog := Prod.mk.inj (Option.some.inj hpopped)
  have hfails := Prod.mk.inj hlog.2
  exact ⟨w, hw, hlog.1, hfails.1, hfails.2, (run_fifo .headFirst _ wrapEvents hw).1⟩

end LobCity.Spsc
