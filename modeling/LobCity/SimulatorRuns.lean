import LobCity.Simulator
import LobCity.Reaches
import LobCity.Tallies
import LobCity.PositionCap
import LobCity.Placements
import LobCity.Cancellable

/-! Runs of the simulator. Its own ids and the market maker's are apart, so the orders that it
lists for cancelling are all that can rest of its own, the market maker is a participant
among others, and both are well-behaved callers of the book. -/
namespace LobCity
open Library

theorem concat_perm_set {α : Type} {v : List α} {i : Nat} (h : i < v.length) (back : α) :
    (v ++ [back]).Perm (v.get ⟨i, h⟩ :: v.set i back) := by
  induction v generalizing i with
  | nil => exact absurd h (Nat.not_lt_zero i)
  | cons a v ih =>
    cases i with
    | zero => exact (show (v ++ [back]).Perm ([back] ++ v) from List.perm_append_comm).cons a
    | succ i =>
      have hi : i < v.length := Nat.lt_of_succ_lt_succ h
      exact ((ih hi).cons a).trans (List.Perm.swap _ _ _)

/-- One entry is gone, the others have only changed places. -/
theorem swapAndPop_perm {α : Type} {v : List α} {i : Nat} (h : i < v.length) :
    v.Perm (v.get ⟨i, h⟩ :: swapAndPop v i) := by
  obtain ⟨init, back, rfl⟩ : ∃ init back, v = init ++ [back] :=
    ⟨v.dropLast, v.getLast (List.ne_nil_of_length_pos (by omega)), (List.dropLast_concat_getLast _).symm⟩
  have hback : (init ++ [back]).getLast? = some back := List.getLast?_concat ..
  rw [List.length_append, List.length_singleton] at h
  by_cases hi : i < init.length
  · have hpop : swapAndPop (init ++ [back]) i = init.set i back := by
      simp [swapAndPop, hback, List.set_append_left i back hi]
    rw [hpop]
    simpa [List.getElem_append_left hi] using concat_perm_set hi back
  · obtain rfl : i = init.length := by omega
    have hpop : swapAndPop (init ++ [back]) init.length = init := by simp [swapAndPop, hback]
    rw [hpop]
    simp

namespace Simulator
variable {D : Type} [DoubleCasts D] {sim sim' : Simulator D} {start : OrderId} {e e' : Engine}

/-- The ids from `start` on are the market maker's; those that the simulator has handed out
are below, and its resting orders are among those that it lists for cancelling. -/
structure Lists (start : OrderId) (sim : Simulator D) (b : Book) : Prop where
  nodup : sim.outstandingOrders.Nodup
  handed : ∀ id ∈ sim.outstandingOrders, 0 < id ∧ id < sim.nextOrderId
  resting : b.RestingIds fun id => start ≤ id ∨ id ∈ sim.outstandingOrders

structure Numbered (start : OrderId) (n : Nat) (sim : Simulator D) : Prop where
  pos : 0 < sim.nextOrderId
  below : sim.nextOrderId.toNat + n ≤ start.toNat

theorem Numbered.foreign {n : Nat} (h : sim.Numbered start (n + 1)) :
    Foreign (start ≤ ·) sim.nextOrderId := by
  have hbelow := h.below
  refine ⟨(UInt64.ne_of_lt h.pos).symm, fun hle => ?_⟩
  have hle := UInt64.le_iff_toNat_le.mp hle
  omega

theorem Lists.fresh {n : Nat} (h : sim.Lists start e.book) (hn : sim.Numbered start (n + 1)) :
    sim.nextOrderId ∉ e.restingIds := by
  intro hmem
  obtain ⟨s, r, hr, hid⟩ := Engine.mem_restingIds.mp hmem
  cases h.resting s r hr with
  | inl hle => exact hn.foreign.2 (hid ▸ hle)
  | inr hlisted => exact absurd (h.handed _ hlisted).2 (hid ▸ UInt64.lt_irrefl _)

def listed (sim : Simulator D) : Simulator D :=
  { sim with
    nextOrderId := sim.nextOrderId + 1
    outstandingOrders := sim.outstandingOrders ++ [sim.nextOrderId] }

theorem Numbered.succ {n : Nat} (h : sim.Numbered start (n + 1)) :
    (sim.nextOrderId + 1).toNat = sim.nextOrderId.toNat + 1 := by
  have hbelow := h.below
  have hstart := start.toNat_lt
  rw [UInt64.toNat_add]
  show (sim.nextOrderId.toNat + 1) % 2 ^ 64 = _
  omega

theorem Numbered.next {n : Nat} (h : sim.Numbered start (n + 1))
    (hnext : sim'.nextOrderId = sim.nextOrderId + 1) : sim'.Numbered start n := by
  have hbelow := h.below
  have hsucc := h.succ
  refine ⟨UInt64.lt_iff_toNat_lt.mpr ?_, ?_⟩
  · rw [hnext, hsucc]
    exact Nat.succ_pos _
  · rw [hnext, hsucc]
    omega

theorem Lists.listed {n : Nat} {b : Book} (h : sim.Lists start b)
    (hn : sim.Numbered start (n + 1)) {o : Incoming} (ho : o.id = sim.nextOrderId) (time : Timestamp)
    {b0 : Book} (hside : b0.side = b.side) : sim.listed.Lists start (b0.process o time) := by
  have hsucc := hn.succ
  have hfresh : sim.nextOrderId ∉ sim.outstandingOrders :=
    fun hmem => UInt64.lt_irrefl _ (h.handed _ hmem).2
  have hless (id : OrderId) (hid : id < sim.nextOrderId ∨ id = sim.nextOrderId) :
      id < sim.nextOrderId + 1 := by
    rw [UInt64.lt_iff_toNat_lt, hsucc]
    rcases hid with hid | rfl
    · exact Nat.lt_succ_of_lt (UInt64.lt_iff_toNat_lt.mp hid)
    · exact Nat.lt_succ_self _
  refine ⟨?_, fun id hid => ?_, ?_⟩
  · exact List.nodup_append.mpr ⟨h.nodup, List.nodup_singleton _, fun a ha c hc => by
      obtain rfl := List.mem_singleton.mp hc
      exact fun hac => hfresh (hac ▸ ha)⟩
  · cases List.mem_append.mp hid with
    | inl hid => exact ⟨(h.handed id hid).1, hless id (Or.inl (h.handed id hid).2)⟩
    | inr hid =>
      obtain rfl := List.mem_singleton.mp hid
      exact ⟨hn.pos, hless _ (Or.inr rfl)⟩
  · refine Book.RestingIds.process (fun s r hr => ?_) (Or.inr ?_) time
    · rw [hside] at hr
      exact (h.resting s r hr).imp (fun h => h) (List.mem_append_left _)
    · rw [ho]
      exact List.mem_append_right _ (List.mem_singleton.mpr rfl)

theorem Lists.submit {n : Nat} (h : sim.Lists start e.book) (hS : Session.Regular ⟨e, []⟩)
    (hn : sim.Numbered start (n + 1)) {q : Quantity} (hq : 0 < q) (p : Price) (s : Side) (m : Bool)
    (time now : Timestamp) :
    ∃ a e', e.submit sim.nextOrderId p q s m time now = some e' ∧
      Session.Reaches (Foreign (start ≤ ·)) 1 ⟨e, []⟩ ⟨e', []⟩ ∧
      e'.book = (e.book.acquire sim.nextOrderId p q s m).2.process
        ⟨a, sim.nextOrderId, p, q, s, m⟩ time := by
  obtain ⟨a, e1, e2, ha, he, hreach, hbook⟩ :=
    Session.Reaches.submit hS hn.foreign (h.fresh hn) hq p s m time now
  refine ⟨a, e2, ?_, hreach, hbook⟩
  unfold Engine.submit
  rw [ha]
  exact he

structure Acts (start : OrderId) (n : Nat) (sim sim' : Simulator D) (e e' : Engine) : Prop where
  reaches : Session.Reaches (Foreign (start ≤ ·)) n ⟨e, []⟩ ⟨e', []⟩
  lists : sim'.Lists start e'.book
  simCfg : sim'.simCfg = sim.simCfg
  numbered : ∀ k, sim.Numbered start (k + n) → sim'.Numbered start k

theorem Lists.limit {n : Nat} (h : sim.Lists start e.book) (hS : Session.Regular ⟨e, []⟩)
    (hn : sim.Numbered start (n + 1)) {q : Quantity} (hq : 0 < q) (p : Price) (s : Side)
    (time now : Timestamp) :
    ∃ e', e.submit sim.nextOrderId p q s false time now = some e' ∧
      Acts start 1 sim sim.listed e e' := by
  obtain ⟨a, e', hsubmit, hreach, hbook⟩ := h.submit hS hn hq p s false time now
  refine ⟨e', hsubmit, hreach, ?_, rfl, fun k hk => hk.next rfl⟩
  rw [hbook]
  exact h.listed hn rfl time (Book.side_acquire ..)

/-- A market order never comes to rest. -/
theorem Lists.market {n : Nat} (h : sim.Lists start e.book) (hS : Session.Regular ⟨e, []⟩)
    (hn : sim.Numbered start (n + 1)) {q : Quantity} (hq : 0 < q) (s : Side)
    (time now : Timestamp) :
    ∃ e', e.submit sim.nextOrderId 0 q s true time now = some e' ∧
      Acts start 1 sim { sim with nextOrderId := sim.nextOrderId + 1 } e e' := by
  obtain ⟨a, e', hsubmit, hreach, hbook⟩ := h.submit hS hn hq 0 s true time now
  refine ⟨e', hsubmit, hreach, ⟨h.nodup, fun id hid => ?_, fun t x hx => ?_⟩, rfl,
    fun k hk => hk.next rfl⟩
  · obtain ⟨hpos, hlt⟩ := h.handed id hid
    refine ⟨hpos, UInt64.lt_iff_toNat_lt.mpr ?_⟩
    show id.toNat < (sim.nextOrderId + 1).toNat
    rw [hn.succ]
    exact Nat.lt_succ_of_lt (UInt64.lt_iff_toNat_lt.mp hlt)
  · rw [hbook] at hx
    cases Book.mem_of_process hx with
    | inl hx => exact absurd hx.2.1 (by simp)
    | inr hx =>
      obtain ⟨r, hr, hsame, -⟩ := hx
      rw [Book.side_acquire] at hr
      rw [hsame.2.1]
      exact h.resting t r hr

theorem Lists.length_le {b : Book} (h : sim.Lists start b) :
    sim.outstandingOrders.length ≤ sim.nextOrderId.toNat := by
  have hnodup : (sim.outstandingOrders.map UInt64.toNat).Nodup :=
    h.nodup.map fun _ _ => UInt64.toNat.inj
  have hsub : sim.outstandingOrders.map UInt64.toNat ⊆ List.range sim.nextOrderId.toNat := by
    intro k hk
    obtain ⟨id, hid, rfl⟩ := List.mem_map.mp hk
    exact List.mem_range.mpr (UInt64.lt_iff_toNat_lt.mp (h.handed id hid).2)
  have hle := (List.subperm_of_subset hnodup hsub).length_le
  rwa [List.length_map, List.length_range] at hle

theorem Lists.pickIndex_lt {b : Book} (h : sim.Lists start b) (draws : Draws D)
    (hne : sim.outstandingOrders ≠ []) :
    sim.pickIndex draws < sim.outstandingOrders.length := by
  have hpos := List.length_pos_of_ne_nil hne
  have hsize : (UInt64.ofNat sim.outstandingOrders.length).toNat = sim.outstandingOrders.length :=
    UInt64.toNat_ofNat_of_lt' (h.length_le.trans_lt sim.nextOrderId.toNat_lt)
  unfold pickIndex
  dsimp only
  split_ifs with hidx
  · have hone : 1 ≤ UInt64.ofNat sim.outstandingOrders.length := by
      rw [UInt64.le_iff_toNat_le, hsize]
      exact hpos
    rw [UInt64.toNat_sub_of_le _ _ hone, hsize]
    exact Nat.sub_lt hpos Nat.one_pos
  · have hlt := UInt64.lt_iff_toNat_lt.mp (UInt64.not_le.mp hidx)
    rwa [hsize] at hlt

theorem Lists.cancel (h : sim.Lists start e.book) (hS : Session.Regular ⟨e, []⟩)
    (hle : sim.nextOrderId ≤ start) (tick : SimTick D) :
    Acts start 0 sim (sim.generateCancel e tick).1 e (sim.generateCancel e tick).2 := by
  unfold generateCancel
  by_cases hempty : sim.outstandingOrders = []
  · rw [if_pos hempty]
    exact ⟨.refl _ _, h, rfl, fun _ hk => hk⟩
  rw [if_neg hempty]
  have hidx := h.pickIndex_lt tick.draws hempty
  set idx := sim.pickIndex tick.draws with hidxdef
  set id := sim.outstandingOrders.get ⟨idx, hidx⟩ with hid
  have hget : sim.outstandingOrders.getD idx 0 = id := by
    simp [List.getD_eq_getElem?_getD, hidx, hid]
  have hperm := swapAndPop_perm hidx
  have hnodup := hperm.nodup_iff.mp h.nodup
  have hmem : id ∈ sim.outstandingOrders := List.get_mem ..
  have hforeign : Foreign (start ≤ ·) id := by
    obtain ⟨hpos, hlt⟩ := h.handed id hmem
    exact ⟨(UInt64.ne_of_lt hpos).symm, UInt64.not_le.mpr (UInt64.lt_of_lt_of_le hlt hle)⟩
  dsimp only
  rw [hget]
  refine ⟨.cancel _ hforeign tick.now, ⟨(List.nodup_cons.mp hnodup).2, fun k hk => ?_, ?_⟩, rfl,
    fun _ hk => ⟨hk.pos, hk.below⟩⟩
  · exact h.handed k (hperm.mem_iff.mpr (List.mem_cons_of_mem _ hk))
  · have hbook : (e.cancelOrder id tick.now).book = e.book.cancel id := by
      have howned : Session.Owned ⟨e, []⟩ (.cancel id tick.now) := trivial
      obtain ⟨S', hs, -, hb, -⟩ := hS.toSound.step howned
      obtain rfl := Option.some.inj hs
      exact hb
    intro s x hx
    rw [hbook] at hx
    have hd := hS.toSound.distinct
    have hgone : ¬ (e.book.cancel id).Rests id := by
      by_cases hrests : e.book.Rests id
      · obtain ⟨t, r, hr, hr'⟩ := hrests
        rw [← hr']
        exact (Book.not_rests_cancel hS.exact hd hr).1
      · rintro ⟨t, r, hr, hr'⟩
        exact hrests ⟨t, r, Book.mem_of_cancel hd hS.indexed hr, hr'⟩
    cases h.resting s x (Book.mem_of_cancel hd hS.indexed hx) with
    | inl hown => exact Or.inl hown
    | inr hlisted =>
      cases List.mem_cons.mp (hperm.mem_iff.mp hlisted) with
      | inl hsame => exact absurd ⟨s, x, hx, hsame⟩ hgone
      | inr hother => exact Or.inr hother

/-- The size drawn is not the largest that there is, to which one could not be added. -/
def Sized (cfg : SimConfig D) (tick : SimTick D) : Prop :=
  DoubleCasts.castQuantity (tick.draws.size * cfg.avgOrderSize) + 1 ≠ 0

theorem drawSize_pos {tick : SimTick D} (h : Sized sim.simCfg tick) {cap : Quantity}
    (hcap : 0 < cap) : 0 < sim.drawSize tick.draws cap := by
  unfold drawSize
  dsimp only
  split_ifs
  · exact hcap
  · exact UInt32.pos_iff_ne_zero.mpr h

theorem Acts.mono {n k : Nat} (h : Acts start n sim sim' e e') (hle : n ≤ k) :
    Acts start k sim sim' e e' :=
  ⟨h.reaches.mono (fun _ h => h) hle, h.lists, h.simCfg,
    fun j hj => h.numbered j ⟨hj.pos, by have := hj.below; omega⟩⟩

theorem Acts.trans {n k : Nat} {sim'' : Simulator D} {e'' : Engine} (h : Acts start n sim sim' e e')
    (h' : Acts start k sim' sim'' e' e'') : Acts start (n + k) sim sim'' e e'' := by
  refine ⟨h.reaches.trans h'.reaches, h'.lists, h'.simCfg.trans h.simCfg, fun j hj => ?_⟩
  refine h'.numbered j (h.numbered (j + k) ?_)
  rwa [Nat.add_assoc, Nat.add_comm k n]

theorem Lists.generateOrder {n : Nat} (h : sim.Lists start e.book) (hS : Session.Regular ⟨e, []⟩)
    (hn : sim.Numbered start (n + 1)) {tick : SimTick D} (hsize : Sized sim.simCfg tick) :
    ∃ sim' e', sim.generateOrder e tick = some (sim', e') ∧ Acts start 1 sim sim' e e' := by
  have hquiet : Acts start 1 sim sim e e :=
    Acts.mono ⟨.refl _ _, h, rfl, fun _ hk => hk⟩ (Nat.zero_le 1)
  unfold Simulator.generateOrder
  dsimp only
  split_ifs
  · unfold generateLimitOrder
    dsimp only
    split_ifs
    · exact ⟨sim, e, rfl, hquiet⟩
    · obtain ⟨e', hsubmit, hacts⟩ := h.limit hS hn (drawSize_pos hsize (show (0 : Quantity) < 500 by decide))
        (sim.drawPrice tick.draws sim.midPx) (drawSide tick.draws) tick.time tick.now
      exact ⟨sim.listed, e', by rw [hsubmit]; rfl, hacts⟩
  · unfold generateMarketOrder
    obtain ⟨e', hsubmit, hacts⟩ := h.market hS hn (drawSize_pos hsize (show (0 : Quantity) < 200 by decide))
      (drawSide tick.draws) tick.time tick.now
    refine ⟨_, e', ?_, hacts⟩
    dsimp only
    rw [hsubmit]
    rfl
  · have hle : sim.nextOrderId ≤ start := by
      have hbelow := hn.below
      rw [UInt64.le_iff_toNat_le]
      omega
    exact ⟨_, _, rfl, (h.cancel hS hle tick).mono (Nat.zero_le 1)⟩
  · exact ⟨sim, e, rfl, hquiet⟩

theorem Lists.seedLevel {n : Nat} (h : sim.Lists start e.book) (hS : Session.Regular ⟨e, []⟩)
    (hn : sim.Numbered start (n + 2)) (hqty : sim.simCfg.seedQtyPerLevel.toUInt32 ≠ 0)
    (midPx i : Price) (clock : SeedClock) :
    ∃ sim' e', sim.seedLevel e midPx i clock = some (sim', e') ∧ Acts start 2 sim sim' e e' := by
  have hq : 0 < sim.simCfg.seedQtyPerLevel.toUInt32 := UInt32.pos_iff_ne_zero.mpr hqty
  obtain ⟨e1, hbid, hacts1⟩ := h.limit hS hn hq (midPx - i * sim.simCfg.seedTickSize) .buy
    clock.bidTime clock.bidNow
  have hn1 := hacts1.numbered (n + 1) hn
  obtain ⟨e2, hask, hacts2⟩ := hacts1.lists.limit (hacts1.reaches.regular hS).1 hn1 hq
    (midPx + i * sim.simCfg.seedTickSize) .sell clock.askTime clock.askNow
  refine ⟨sim.listed.listed, e2, ?_, hacts1.trans hacts2⟩
  have hask : e1.submit (sim.nextOrderId + 1) (midPx + i * sim.simCfg.seedTickSize)
    sim.simCfg.seedQtyPerLevel.toUInt32 .sell false clock.askTime clock.askNow = some e2 := hask
  simp only [Simulator.seedLevel, Option.bind_eq_bind, hbid, Option.bind_some, hask]
  rfl

theorem Lists.seedLevels {levels n : Nat} (h : sim.Lists start e.book)
    (hS : Session.Regular ⟨e, []⟩) (hn : sim.Numbered start (n + 2 * levels))
    (hqty : sim.simCfg.seedQtyPerLevel.toUInt32 ≠ 0) (midPx : Price) (clocks : Nat → SeedClock)
    (i : Nat) :
    ∃ sim' e', sim.seedLevels e midPx clocks i levels = some (sim', e') ∧
      Acts start (2 * levels) sim sim' e e' := by
  induction levels generalizing sim e i with
  | zero => exact ⟨sim, e, rfl, .refl _ _, h, rfl, fun _ hk => hk⟩
  | succ levels ih =>
    obtain ⟨sim1, e1, hlevel, hacts1⟩ := h.seedLevel hS (n := n + 2 * levels) hn hqty midPx
      (Int64.ofNat i) (clocks i)
    have hn1 := hacts1.numbered (n + 2 * levels) hn
    obtain ⟨sim2, e2, hlevels, hacts2⟩ := ih hacts1.lists (hacts1.reaches.regular hS).1 hn1
      (by rw [hacts1.simCfg]; exact hqty) (i + 1)
    refine ⟨sim2, e2, ?_, ?_⟩
    · simp only [Simulator.seedLevels, Option.bind_eq_bind, hlevel, Option.bind_some]
      exact hlevels
    · rw [Nat.mul_succ, Nat.add_comm]
      exact hacts1.trans hacts2

end Simulator
namespace Floor
variable {D : Type} [DoubleCasts D] {f f' : Floor D} {cfg : MarketMakerConfig} {n : Nat}

/-- The floor with `n` ticks to come. The market maker's ids are those from its first one on. -/
structure Steady (cfg : MarketMakerConfig) (n : Nat) (f : Floor D) : Prop where
  regular : Session.Regular ⟨f.engine, []⟩
  uncrossed : f.engine.Uncrossed
  lists : f.sim.Lists cfg.startingId f.engine.book
  numbered : f.sim.Numbered cfg.startingId n
  quoting : Session.Quoting (cfg.startingId ≤ ·) f.mm ⟨f.engine, []⟩
  config : f.mm.config = cfg
  owned : ∀ s, f.mm.current s ≠ 0 → cfg.startingId ≤ f.mm.current s
  next : cfg.startingId.toNat ≤ f.mm.nextOrderId.toNat
  room : f.mm.nextOrderId.toNat + 2 * n < 2 ^ 64

theorem Steady.mono {k : Nat} (h : f.Steady cfg n) (hle : k ≤ n) : f.Steady cfg k := by
  have hbelow := h.numbered.below
  have hroom := h.room
  exact { h with numbered := ⟨h.numbered.pos, by omega⟩, room := by omega }

/-- Ids from `a` up to one that is not much larger are not below `a`. -/
theorem le_of_mem_idsBetween {a b id : OrderId} (hid : id ∈ Desk.idsBetween a b)
    (hle : a.toNat ≤ b.toNat) : a.toNat ≤ id.toNat := by
  obtain ⟨i, hi, rfl⟩ := List.mem_map.mp hid
  have hi := List.mem_range.mp hi
  have hlt := b.toNat_lt
  rw [UInt64.toNat_sub_of_le _ _ (UInt64.le_iff_toNat_le.mpr hle)] at hi
  have hi64 : i < 2 ^ 64 := by omega
  have hsmall : (UInt64.ofNat i).toNat = i := UInt64.toNat_ofNat_of_lt' hi64
  rw [UInt64.toNat_add, hsmall]
  omega

/-- Neither of the market maker's next two ids is 0 or one of the simulator's. -/
theorem Steady.next_ids (h : f.Steady cfg (n + 1)) :
    (f.mm.nextOrderId + 1).toNat = f.mm.nextOrderId.toNat + 1 ∧
      (f.mm.nextOrderId + 1 + 1).toNat = f.mm.nextOrderId.toNat + 2 ∧
      ∀ id : OrderId, f.mm.nextOrderId.toNat ≤ id.toNat → cfg.startingId ≤ id ∧ id ≠ 0 := by
  have hpos := UInt64.lt_iff_toNat_lt.mp h.numbered.pos
  have hbelow := h.numbered.below
  have hnext := h.next
  have hroom := h.room
  have hsucc : (f.mm.nextOrderId + 1).toNat = f.mm.nextOrderId.toNat + 1 := by
    rw [UInt64.toNat_add]
    show (f.mm.nextOrderId.toNat + 1) % 2 ^ 64 = _
    omega
  refine ⟨hsucc, ?_, fun id hid => ⟨UInt64.le_iff_toNat_le.mpr (hnext.trans hid), ?_⟩⟩
  · rw [UInt64.toNat_add, hsucc]
    show (f.mm.nextOrderId.toNat + 1 + 1) % 2 ^ 64 = _
    omega
  · rintro rfl
    have hzero : (0 : UInt64).toNat = 0 := rfl
    omega

theorem Steady.numbers (h : f.Steady cfg (n + 1)) (e : Engine) (start : Nat) (clock : TickClock) :
    f.mm.Numbers e start clock := by
  obtain ⟨hsucc, -, hne⟩ := h.next_ids
  refine ⟨fun _ => (hne _ (Nat.le_refl _)).2, fun _ => ?_⟩
  split_ifs
  · exact (hne _ (Nat.le_refl _)).2
  · exact (hne _ (by omega)).2

theorem Steady.onTick (h : f.Steady cfg (n + 1)) {sim : Simulator D} {e : Engine}
    (hacts : Simulator.Acts cfg.startingId 1 f.sim sim f.engine e) (clock : TickClock) :
    ∃ mm e', f.mm.onTick e f.engine.tradeLog.length clock = some (mm, e') ∧
      Steady cfg n ⟨sim, e', mm⟩ ∧ Session.Reaches (fun _ => True) 2 ⟨e, []⟩ ⟨e', []⟩ := by
  obtain ⟨hS, hu⟩ := hacts.reaches.regular h.regular
  obtain ⟨new, hq, -⟩ := hacts.reaches.quoting h.quoting
  have hnumbers := h.numbers e f.engine.tradeLog.length clock
  obtain ⟨hsucc, hsucc2, hids⟩ := h.next_ids
  obtain ⟨mm, e', htick, hq', hcfg, -, hcase⟩ := MarketMaker.onTick_cases hq hnumbers
  have hreach := MarketMaker.onTick_reaches hS hq hnumbers
    (hids _ (Nat.le_refl _)).1 (hids _ (by omega)).1 htick
  obtain ⟨hS', hu'⟩ := hreach.regular hS
  have hlater : f.mm.nextOrderId.toNat ≤ mm.nextOrderId.toNat ∧
      mm.nextOrderId.toNat ≤ f.mm.nextOrderId.toNat + 2 := by
    rcases MarketMaker.onTick_next htick with hid | hid | hid <;> rw [hid] <;> omega
  have howned : ∀ s, mm.current s ≠ 0 → cfg.startingId ≤ mm.current s := by
    intro s hs
    rcases hcase with ⟨-, -, hcur, -⟩ | ⟨-, hzero, -⟩ | ⟨-, -, -, -, hnew, -⟩
    · rw [hcur] at hs ⊢
      exact h.owned s hs
    · exact absurd (hzero s) hs
    · exact (hids _ (le_of_mem_idsBetween (hnew s hs) hlater.1)).1
  refine ⟨mm, e', htick, ⟨hS', hu' (hu h.uncrossed), ?_, hacts.numbered n h.numbered, hq',
    hcfg.trans h.config, howned, h.next.trans hlater.1, ?_⟩, hreach⟩
  · obtain ⟨m2, e2, m1, quotes, new2, b1, htick2, -, -, -, hticked, -⟩ :=
      MarketMaker.onTick_ticked hS.toSound f.mm f.engine.tradeLog.length clock
    obtain ⟨rfl, rfl⟩ := Prod.mk.inj (Option.some.inj (htick2.symm.trans htick))
    refine ⟨hacts.lists.nodup, hacts.lists.handed, fun t x hx => ?_⟩
    cases hticked.placements.mem t x hx with
    | inl hplaced =>
      obtain ⟨q, -, hid, -⟩ := hplaced
      have hzero : x.id ≠ 0 := hq'.shared.quoted.nonzero t x hx
      rw [hid] at hzero ⊢
      exact Or.inl (howned t hzero)
    | inr hold =>
      obtain ⟨r, hr, hsame, -⟩ := hold
      rw [hsame.2.1]
      exact hacts.lists.resting t r (hticked.kept t r hr)
  · have hroom := h.room
    show mm.nextOrderId.toNat + 2 * n < 2 ^ 64
    omega

/-- A turn: an order of the simulator's, then the market maker's. -/
theorem Steady.turn (h : f.Steady cfg (n + 1)) {tick : SimTick D}
    (hsize : Simulator.Sized f.sim.simCfg tick) :
    ∃ sim e mm e', f.turn tick = some ⟨sim, e', mm⟩ ∧
      Simulator.Acts cfg.startingId 1 f.sim sim f.engine e ∧
      f.mm.onTick e f.engine.tradeLog.length tick.clock = some (mm, e') ∧
      Steady cfg n ⟨sim, e', mm⟩ ∧
      Session.Reaches (fun _ => True) 3 ⟨f.engine, []⟩ ⟨e', []⟩ := by
  set evolved : Simulator D := { f.sim with
    currentMidPrice := f.sim.currentMidPrice * (Double.ofInt64 1 + tick.draws.returns) } with hevolved
  have hlists : evolved.Lists cfg.startingId f.engine.book :=
    ⟨h.lists.nodup, h.lists.handed, h.lists.resting⟩
  have hn : evolved.Numbered cfg.startingId (n + 1) := ⟨h.numbered.pos, h.numbered.below⟩
  obtain ⟨sim, e, hgenerate, hacts⟩ := hlists.generateOrder h.regular hn hsize
  have hacts' : Simulator.Acts cfg.startingId 1 f.sim sim f.engine e :=
    ⟨hacts.reaches, hacts.lists, hacts.simCfg, fun k hk => hacts.numbered k ⟨hk.pos, hk.below⟩⟩
  obtain ⟨mm, e', htick, hsteady, hreach⟩ := h.onTick hacts' tick.clock
  refine ⟨sim, e, mm, e', ?_, hacts', htick, hsteady,
    (hacts.reaches.mono (fun _ _ => trivial) (Nat.le_refl 1)).trans hreach⟩
  simp only [Floor.turn, Option.bind_eq_bind, ← hevolved, hgenerate, Option.bind_some, htick]
  rfl

/-- The loop, with a property that every turn keeps. None begins with a killed market maker. -/
theorem Steady.loop {Inv : Floor D → Prop} {ticks : List (SimTick D)}
    (hturn : ∀ (f f' : Floor D) (k : Nat) (tick : SimTick D), f.Steady cfg (k + 1) →
      Simulator.Sized f.sim.simCfg tick → f.turn tick = some f' → f.mm.killed = false → Inv f → Inv f')
    (h : f.Steady cfg (n + ticks.length)) (hlive : f.mm.killed = false) (hinv : Inv f)
    (hsize : ∀ tick ∈ ticks, Simulator.Sized f.sim.simCfg tick) :
    ∃ f', f.loop ticks = some f' ∧ f'.Steady cfg n ∧ Inv f' ∧
      Session.Reaches (fun _ => True) (3 * ticks.length) ⟨f.engine, []⟩ ⟨f'.engine, []⟩ := by
  induction ticks generalizing f with
  | nil => exact ⟨f, rfl, h, hinv, .refl _ _⟩
  | cons tick ticks ih =>
    obtain ⟨sim, e, mm, e', hf, hacts, -, hsteady, hreach⟩ :=
      Steady.turn (n := n + ticks.length) h (hsize tick List.mem_cons_self)
    have hinv' := hturn f _ _ tick h (hsize tick List.mem_cons_self) hf hlive hinv
    rw [Floor.loop, hf, Option.bind_some]
    by_cases hkilled : mm.killed = true
    · refine ⟨⟨sim, e', mm⟩, if_pos hkilled, hsteady.mono (Nat.le_add_right _ _), hinv',
        hreach.mono (fun _ h => h) ?_⟩
      rw [List.length_cons]
      omega
    · rw [if_neg hkilled]
      have hlive' : mm.killed = false := Bool.eq_false_iff.mpr hkilled
      obtain ⟨f', hloop, hsteady', hinv'', hreach'⟩ := ih hsteady hlive' hinv' fun t ht => by
        rw [show (⟨sim, e', mm⟩ : Floor D).sim.simCfg = f.sim.simCfg from hacts.simCfg]
        exact hsize t (List.mem_cons_of_mem _ ht)
      refine ⟨f', hloop, hsteady', hinv'', ?_⟩
      rw [List.length_cons, Nat.mul_succ, Nat.add_comm]
      exact hreach.trans hreach'

end Floor
end LobCity
