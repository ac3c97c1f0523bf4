import LobCity.Backtests
import LobCity.LatencyTracker
import LobCity.Levels
import LobCity.TradeCounts

/-! The latency benchmark: a mix of limit orders around one price, market orders and cancels,
whatever the distributions return. Each order is timed once and each sample is an order's; the
pool never grows and the book stays shallow, so all orders are timed on the same path. -/
namespace LobCity
open Library

/-- What the distributions return in one turn, and the clock readings of `processOrder` on entry,
for a snapshot and at its end. -/
structure BenchDraws where
  roll : Int32
  tick : Int32
  qty : Int32
  cancelRoll : Int32
  start : Timestamp
  now : Timestamp
  finish : Timestamp
deriving DecidableEq, Repr

structure Bench where
  engine : Engine
  latencyTracker : LatencyTracker
  nextId : OrderId

namespace BenchDraws

def px (d : BenchDraws) : Price := 1500000 + (d.tick * 100).toInt64

def submits (d : BenchDraws) : Bool := d.roll < 15 || 25 ≤ d.roll

def latency (d : BenchDraws) : UInt64 := d.finish - d.start

structure Drawn (d : BenchDraws) : Prop where
  tick : -20 ≤ d.tick ∧ d.tick ≤ 20
  qty : 1 ≤ d.qty ∧ d.qty ≤ 100
  cancelRoll : 0 ≤ d.cancelRoll ∧ d.cancelRoll ≤ 99

instance : DecidablePred Drawn := fun _ =>
  decidable_of_iff (_ ∧ _ ∧ _) ⟨fun h => ⟨h.1, h.2.1, h.2.2⟩, fun h => ⟨h.1, h.2, h.3⟩⟩

end BenchDraws

namespace Bench

def new (poolSize : Nat) : Bench := ⟨Engine.new poolSize true, .new, 1⟩

/-- `book.processOrder(pool.acquire(nextId++, ..))` -/
def submit (b : Bench) (p : Price) (s : Side) (m : Bool) (d : BenchDraws) : Option Bench := do
  let e ← b.engine.submit b.nextId p d.qty.toUInt32 s m d.start d.now
  return ⟨e, b.latencyTracker.record d.start d.finish, b.nextId + 1⟩

def recent (b : Bench) (d : BenchDraws) : OrderId :=
  if b.nextId > 500 then b.nextId - (d.cancelRoll + 1).toInt64.toUInt64 else 0

def turn (b : Bench) (i : Nat) (d : BenchDraws) : Option Bench :=
  let side : Side := if i % 2 = 1 then .buy else .sell
  if d.roll < 15 then b.submit 0 side true d
  else if d.roll < 25 then some { b with engine := b.engine.cancelOrder (b.recent d) d.now }
  else b.submit d.px side false d

def turns (b : Bench) : Nat → List BenchDraws → Option Bench
  | _, [] => some b
  | i, d :: draws => do
    let b1 ← b.turn i d
    b1.turns (i + 1) draws

/-- The state of the report. The benchmark makes 1000000 turns with a pool of 2000000. -/
def main (poolSize : Nat) (draws : List BenchDraws) : Option Bench := (new poolSize).turns 0 draws

def band : List Price :=
  ((List.range 41).map fun k => Int32.ofNat k - 20).map fun tick => 1500000 + (tick * 100).toInt64

/-- Whatever rests was numbered by the benchmark and stands at a price of the band. The ids last
for `n` further turns of `total`. -/
structure Shallow (total : Nat) (b : Bench) (n : Nat) : Prop where
  pos : 0 < b.nextId
  below : b.nextId.toNat + n ≤ total + 1
  room : total + 1 < 2 ^ 64
  resting : ∀ s, ∀ r ∈ b.engine.book.side s, r.id < b.nextId ∧ r.price ∈ band

section Turns
variable {b b' : Bench} {total n : Nat} {d : BenchDraws} {draws : List BenchDraws}

theorem px_mem_band (h : d.Drawn) : d.px ∈ band := by
  have hlo : -20 ≤ d.tick.toInt := Int32.le_iff_toInt_le.mp h.tick.1
  have hhi : d.tick.toInt ≤ 20 := Int32.le_iff_toInt_le.mp h.tick.2
  have hk : ((d.tick.toInt + 20).toNat : Int) = d.tick.toInt + 20 := by omega
  have htick : Int32.ofNat (d.tick.toInt + 20).toNat - 20 = d.tick := by
    rw [← Int32.ofInt_eq_ofNat, hk, Int32.ofInt_add, Int32.ofInt_toInt]
    exact Int32.add_sub_cancel d.tick 20
  have hmem : (d.tick.toInt + 20).toNat ∈ List.range 41 := List.mem_range.mpr (by omega)
  exact List.mem_map_of_mem (htick ▸ List.mem_map_of_mem hmem)

theorem qty_pos (h : d.Drawn) : 0 < d.qty.toUInt32 := by
  have hqty := h.qty.1
  generalize d.qty = qty at hqty
  refine UInt32.pos_iff_ne_zero.mpr fun hzero => ?_
  obtain ⟨u⟩ := qty
  obtain rfl : u = 0 := hzero
  exact absurd hqty (by decide)

theorem back_toNat (h : d.Drawn) :
    0 < (d.cancelRoll + 1).toInt64.toUInt64.toNat ∧
      (d.cancelRoll + 1).toInt64.toUInt64.toNat ≤ 100 := by
  have hlo : 0 ≤ d.cancelRoll.toInt := Int32.le_iff_toInt_le.mp h.cancelRoll.1
  have hhi : d.cancelRoll.toInt ≤ 99 := Int32.le_iff_toInt_le.mp h.cancelRoll.2
  have hsum : (d.cancelRoll + 1).toInt = d.cancelRoll.toInt + 1 := by
    rw [Int32.toInt_add]
    show (d.cancelRoll.toInt + 1).bmod (2 ^ 32) = _
    exact Int.bmod_eq_of_le (by omega) (by omega)
  have hwide : (d.cancelRoll + 1).toInt64.toInt = d.cancelRoll.toInt + 1 := by
    rw [Int32.toInt_toInt64, hsum]
  have hnonneg : 0 ≤ (d.cancelRoll + 1).toInt64 :=
    Int64.le_iff_toInt_le.mpr (by rw [hwide]; show (0 : Int) ≤ _; omega)
  rw [Int64.toNat_toUInt64_of_le hnonneg, ← Int64.toNat_toInt, hwide]
  omega

theorem Shallow.recent_lt (h : b.Shallow total n) (hd : d.Drawn) : b.recent d < b.nextId := by
  obtain ⟨hpos, hle⟩ := back_toNat hd
  unfold recent
  split_ifs with hmany
  · have hmany : 500 < b.nextId.toNat := UInt64.lt_iff_toNat_lt.mp hmany
    have hback : (d.cancelRoll + 1).toInt64.toUInt64 ≤ b.nextId :=
      UInt64.le_iff_toNat_le.mpr (by omega)
    rw [UInt64.lt_iff_toNat_lt, UInt64.toNat_sub_of_le _ _ hback]
    omega
  · exact h.pos

theorem Shallow.fresh (h : b.Shallow total n) : b.nextId ∉ b.engine.restingIds := by
  intro hmem
  obtain ⟨s, r, hr, hid⟩ := Engine.mem_restingIds.mp hmem
  exact UInt64.lt_irrefl _ (hid ▸ (h.resting s r hr).1)

theorem Shallow.succ (h : b.Shallow total (n + 1)) : (b.nextId + 1).toNat = b.nextId.toNat + 1 := by
  have hbelow := h.below
  have hroom := h.room
  rw [UInt64.toNat_add]
  show (b.nextId.toNat + 1) % 2 ^ 64 = _
  omega

theorem Shallow.submit (h : b.Shallow total (n + 1)) (hS : Session.Regular ⟨b.engine, []⟩)
    (hd : d.Drawn) {p : Price} {m : Bool} (hp : m = false → p ∈ band) (s : Side) :
    ∃ b', b.submit p s m d = some b' ∧
      Session.Reaches (·.toNat ≤ total) 1 ⟨b.engine, []⟩ ⟨b'.engine, []⟩ ∧ b'.Shallow total n ∧
      b'.latencyTracker.samples = b.latencyTracker.samples ++ [d.latency] := by
  have hbelow := h.below
  have hsucc := h.succ
  have hid : b.nextId.toNat ≤ total := by omega
  obtain ⟨a, e1, e, ha, he, hreach, hbook⟩ :=
    Session.Reaches.submit (P := (·.toNat ≤ total)) hS hid h.fresh (qty_pos hd) p s m d.start d.now
  have hsubmit : b.engine.submit b.nextId p d.qty.toUInt32 s m d.start d.now = some e := by
    rw [Engine.submit, ha]
    exact he
  have hgrows (id : OrderId) (hid : id ≤ b.nextId) : id < b.nextId + 1 := by
    have hid := UInt64.le_iff_toNat_le.mp hid
    rw [UInt64.lt_iff_toNat_lt, hsucc]
    omega
  refine ⟨⟨e, b.latencyTracker.record d.start d.finish, b.nextId + 1⟩, by rw [Bench.submit, hsubmit]; rfl,
    hreach, ⟨?_, ?_, h.room, fun t x hx => ?_⟩, rfl⟩
  · exact UInt64.lt_iff_toNat_lt.mpr (by rw [hsucc]; exact Nat.succ_pos _)
  · show (b.nextId + 1).toNat + n ≤ total + 1
    omega
  · rw [show e.book = _ from hbook] at hx
    cases Book.mem_of_process hx with
    | inl hnew =>
      obtain ⟨-, hm, -, rfl⟩ := hnew
      exact ⟨hgrows _ UInt64.le_rfl, hp hm⟩
    | inr hold =>
      obtain ⟨r, hr, hsame, -⟩ := hold
      rw [Book.side_acquire] at hr
      obtain ⟨hlt, hprice⟩ := h.resting t r hr
      rw [hsame.2.1, hsame.2.2]
      exact ⟨hgrows _ (UInt64.le_of_lt hlt), hprice⟩

theorem Shallow.cancel (h : b.Shallow total (n + 1)) (hS : Session.Regular ⟨b.engine, []⟩)
    (hd : d.Drawn) :
    let e := b.engine.cancelOrder (b.recent d) d.now
    Session.Reaches (·.toNat ≤ total) 0 ⟨b.engine, []⟩ ⟨e, []⟩ ∧
      Shallow total { b with engine := e } n := by
  have hbelow := h.below
  have hrecent := UInt64.lt_iff_toNat_lt.mp (h.recent_lt hd)
  have hid : (b.recent d).toNat ≤ total := by omega
  refine ⟨.cancel (P := (·.toNat ≤ total)) ⟨b.engine, []⟩ hid d.now,
    ⟨h.pos, Nat.le_of_succ_le hbelow, h.room, fun s r hr => ?_⟩⟩
  have howned : Session.Owned ⟨b.engine, []⟩ (.cancel (b.recent d) d.now) := trivial
  obtain ⟨S', hs, -, hbook, -⟩ := hS.toSound.step howned
  obtain rfl := Option.some.inj hs
  have hbook : (b.engine.cancelOrder (b.recent d) d.now).book = b.engine.book.cancel (b.recent d) :=
    hbook
  rw [hbook] at hr
  exact h.resting s r (Book.mem_of_cancel hS.toSound.distinct hS.indexed hr)

theorem Shallow.turn (h : b.Shallow total (n + 1)) (hS : Session.Regular ⟨b.engine, []⟩)
    (hd : d.Drawn) (i : Nat) :
    ∃ b', b.turn i d = some b' ∧
      Session.Reaches (·.toNat ≤ total) 1 ⟨b.engine, []⟩ ⟨b'.engine, []⟩ ∧ b'.Shallow total n ∧
      b'.latencyTracker.samples =
        b.latencyTracker.samples ++ if d.submits then [d.latency] else [] := by
  unfold Bench.turn BenchDraws.submits
  dsimp only
  by_cases hmarket : d.roll < 15
  · rw [if_pos hmarket, decide_eq_true hmarket, Bool.true_or, if_pos rfl]
    exact h.submit hS hd (fun hlimit => absurd hlimit (by decide)) _
  rw [if_neg hmarket, decide_eq_false hmarket, Bool.false_or]
  by_cases hcancel : d.roll < 25
  · obtain ⟨hreach, hshallow⟩ := h.cancel hS hd
    rw [if_pos hcancel, decide_eq_false (Int32.not_le.mpr hcancel), if_neg (by decide)]
    exact ⟨_, rfl, hreach.mono (fun _ hid => hid) (Nat.zero_le 1), hshallow, (List.append_nil _).symm⟩
  · rw [if_neg hcancel, decide_eq_true (Int32.not_lt.mp hcancel), if_pos rfl]
    exact h.submit hS hd (fun _ => px_mem_band hd) _

theorem Shallow.turns (h : b.Shallow total (n + draws.length))
    (hS : Session.Regular ⟨b.engine, []⟩) (hd : ∀ d ∈ draws, d.Drawn) (i : Nat) :
    ∃ b', b.turns i draws = some b' ∧
      Session.Reaches (·.toNat ≤ total) draws.length ⟨b.engine, []⟩ ⟨b'.engine, []⟩ ∧
      b'.Shallow total n ∧ b'.latencyTracker.samples =
        b.latencyTracker.samples ++ (draws.filter BenchDraws.submits).map BenchDraws.latency := by
  induction draws generalizing b i with
  | nil => exact ⟨b, rfl, .refl _ _, h, (List.append_nil _).symm⟩
  | cons d draws ih =>
    obtain ⟨b1, hturn, hreach1, h1, hsamples1⟩ :=
      Shallow.turn (n := n + draws.length) h hS (hd d List.mem_cons_self) i
    obtain ⟨b2, hturns, hreach2, h2, hsamples2⟩ :=
      ih h1 (hreach1.regular hS).1 (fun d hd' => hd d (List.mem_cons_of_mem _ hd')) (i + 1)
    refine ⟨b2, ?_, ?_, h2, ?_⟩
    · simp only [Bench.turns, hturn, Option.bind_eq_bind, Option.bind_some, hturns]
    · rw [List.length_cons, Nat.add_comm]
      exact hreach1.trans hreach2
    · rw [hsamples2, hsamples1, List.append_assoc, List.filter_cons]
      split_ifs <;> rfl

/-- There are no more levels than prices in the band. -/
theorem Shallow.levels_le (h : b.Shallow total n) (hS : Session.Regular ⟨b.engine, []⟩) (s : Side) :
    (b.engine.levels s).entries.length ≤ 41 := by
  have hrep := hS.wellFormed.represents
  rw [hrep.levels_eq s, Book.levels, List.length_map]
  have hnodup : (b.engine.book.prices s).Nodup := List.nodup_dedup _
  have hsub : b.engine.book.prices s ⊆ band := by
    intro p hp
    obtain ⟨r, hr, rfl⟩ := List.mem_map.mp (List.mem_dedup.mp hp)
    exact (h.resting s r hr).2
  exact (List.subperm_of_subset hnodup hsub).length_le

theorem new_shallow (poolSize : Nat) (htotal : total + 1 < 2 ^ 64) : (new poolSize).Shallow total total := by
  have hone : (new poolSize).nextId.toNat = 1 := rfl
  refine ⟨(by decide : (0 : UInt64) < 1), by omega, htotal, fun s r hr => ?_⟩
  have hbook := (Engine.new_wellFormed poolSize true).2
  rw [show (new poolSize).engine = Engine.new poolSize true from rfl, hbook] at hr
  simp [Book.new] at hr

end Turns

section Main
variable {poolSize : Nat} {draws : List BenchDraws}

/-- Whatever is drawn, every turn returns, and what the benchmark does to the book are
well-behaved calls under ids up to the number of turns: the book is uncrossed after each, the
pool never grows, no side has more than 41 levels, there are no more trades than turns and a
sample for every order, and the report on the samples is right. -/
theorem main_measures (hd : ∀ d ∈ draws, d.Drawn) (hsize : draws.length ≤ poolSize)
    (hids : draws.length + 1 < 2 ^ 64) :
    ∃ b ops, main poolSize draws = some b ∧
      run Session.step (Session.new poolSize true) ops = some ⟨b.engine, []⟩ ∧
      Along Session.step Session.Orderly (Session.new poolSize true) ops ∧
      (∀ op ∈ ops, ∀ id ∈ op.ids, id.toNat ≤ draws.length) ∧
      (∀ k S, run Session.step (Session.new poolSize true) (ops.take k) = some S →
        S.engine.Uncrossed) ∧
      b.engine.allAllocated = List.range poolSize ∧
      (∀ s, (b.engine.levels s).entries.length ≤ 41) ∧
      b.engine.tradeLog.length ≤ draws.length ∧
      b.latencyTracker.samples = (draws.filter BenchDraws.submits).map BenchDraws.latency ∧
      (b.latencyTracker.samples ≠ [] → ∃ report : LatencyReport Rat,
        b.latencyTracker.printReport = some report ∧
        LatencyTracker.Right b.latencyTracker.samples report) := by
  have hS : (Session.new poolSize true).Regular := Session.new_regular poolSize true
  have h0 : (new poolSize).Shallow draws.length (0 + draws.length) := by
    rw [Nat.zero_add]
    exact new_shallow poolSize hids
  obtain ⟨b, hmain, hreach, hshallow, hsamples⟩ := h0.turns hS hd 0
  have hregular := (hreach.regular hS).1
  have hroom := hreach.allocated hS
  have htrades := Session.Reaches.trades_new hreach
  have hfree : (Session.new poolSize true).engine.freeList.length = poolSize := by
    simp [Session.new, Engine.new, OrderPool.new]
  obtain ⟨ops, hrun, hok, -, hall⟩ := hreach
  have hsamples : b.latencyTracker.samples =
      (draws.filter BenchDraws.submits).map BenchDraws.latency := hsamples
  have hlength : b.latencyTracker.samples.length ≤ draws.length := by
    rw [hsamples, List.length_map]
    exact List.length_filter_le _ _
  exact ⟨b, ops, hmain, hrun, hok, hall,
    fun k S hk => Session.Reaches.uncrossed_take hS (Simulator.new_uncrossed poolSize true) hok k hk,
    hroom (hfree.symm ▸ hsize), hshallow.levels_le hregular, htrades, hsamples,
    fun hsome => LatencyTracker.printReport_right hsome (by omega)⟩

def fourTurns : List BenchDraws :=
  [⟨50, 1, 10, 0, 100, 0, 140⟩, ⟨50, 1, 4, 0, 200, 0, 230⟩, ⟨20, 0, 1, 0, 0, 0, 0⟩,
    ⟨10, 0, 6, 0, 300, 0, 370⟩]

theorem main_measures_fourTurns :
    ∃ b report, main 4 fourTurns = some b ∧ b.engine.tradeLog.map (·.quantity) = [4, 6] ∧
      b.latencyTracker.samples = [40, 30, 70] ∧
      b.latencyTracker.printReport = some report ∧ LatencyTracker.Right [40, 30, 70] report := by
  have hend : (main 4 fourTurns).map (fun b => b.engine.tradeLog.map (·.quantity)) = some [4, 6] := by
    decide +kernel
  have hdrawn : ∀ d ∈ fourTurns, d.Drawn := by decide +kernel
  obtain ⟨b, -, hmain, -, -, -, -, -, -, -, hsamples, hreport⟩ :=
    main_measures hdrawn (show fourTurns.length ≤ 4 by decide) (by decide)
  have hsamples : b.latencyTracker.samples = [40, 30, 70] := hsamples
  obtain ⟨report, hprint, hright⟩ := hreport (by rw [hsamples]; exact List.cons_ne_nil _ _)
  rw [hmain] at hend
  exact ⟨b, report, hmain, Option.some.inj hend, hsamples, hprint, hsamples ▸ hright⟩

end Main
end Bench
end LobCity
