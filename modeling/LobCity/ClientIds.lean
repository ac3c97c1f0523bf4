import LobCity.FixedPoint
import LobCity.Gateway

/-! Client ids as texts, over histories of messages. The book knows an order by the number
that its text folds to; a ghost remembers for each cell the text that its order goes by, and
all texts that have become numbers. -/
namespace LobCity
open Library

/-- What the bytes of a text add up to, `*p - '0'` at each place, in exact arithmetic. -/
def digitValue (text : List Byte) : ℤ := text.foldl (fun val c => val * 10 + (digit c).toInt) 0

/-- The values of different texts do not differ by a multiple of `2 ^ 64`. -/
def Distinguishable (texts : List (List Byte)) : Prop :=
  ∀ c ∈ texts, ∀ d ∈ texts, (2 ^ 64 : ℤ) ∣ digitValue c - digitValue d → c = d

def SeparateIds (texts : List (List Byte)) : Prop :=
  ∀ c ∈ texts, ∀ d ∈ texts, numericId c = numericId d → c = d

section Values
variable {texts : List (List Byte)}

theorem foldl_digit (text : List Byte) (n : ℤ) :
    text.foldl (fun val c => val * 10 + digit c) (Int64.ofInt n) =
      Int64.ofInt (text.foldl (fun val c => val * 10 + (digit c).toInt) n) := by
  induction text generalizing n with
  | nil => rfl
  | cons c text ih =>
    rw [List.foldl_cons, List.foldl_cons, ← ih, Int64.ofInt_add, Int64.ofInt_mul, Int64.ofInt_toInt]
    rfl

theorem parseFastInt_eq (text : List Byte) : parseFastInt text = Int64.ofInt (digitValue text) :=
  foldl_digit text 0

theorem numericId_eq_iff {c d : List Byte} :
    numericId c = numericId d ↔ (2 ^ 64 : ℤ) ∣ digitValue c - digitValue d := by
  have hparse : numericId c = numericId d ↔ parseFastInt c = parseFastInt d := by
    refine ⟨fun h => ?_, fun h => congrArg Int64.toUInt64 h⟩
    exact Int64.toBitVec_inj.mp (congrArg UInt64.toBitVec h)
  rw [hparse, parseFastInt_eq, parseFastInt_eq, Int64.ofInt_eq_iff_bmod_eq_toInt, Int64.toInt_ofInt]
  exact Int.bmod_eq_bmod_iff_bmod_sub_eq_zero.trans Int.dvd_iff_bmod_eq_zero.symm

theorem separateIds_iff : SeparateIds texts ↔ Distinguishable texts := by
  unfold SeparateIds Distinguishable
  simp only [numericId_eq_iff]

theorem digitValue_decimal (n : ℕ) : digitValue (decimal n) = n := by
  have hdigits (ds : Digits) (k : ℕ) :
      (digitText ds).foldl (fun val c => val * 10 + (digit c).toInt) (k : ℤ) =
        (ds.foldl (fun n d => n * 10 + d.val) k : ℕ) := by
    induction ds generalizing k with
    | nil => rfl
    | cons d ds ih =>
      have hd : (digit (digitByte d)).toInt = d.val := by
        rw [digit_digitByte]
        exact toInt_ofInt_natCast (by omega)
      rw [digitText_cons, List.foldl_cons, hd, List.foldl_cons, ← ih]
      push_cast
      rfl
  obtain ⟨ds, -, htext, hvalue⟩ := decimal_digits n
  rw [htext, ← hvalue]
  exact hdigits ds 0

/-- The decimals of 64-bit numbers, without leading zeros. -/
theorem distinguishable_decimals (h : ∀ c ∈ texts, ∃ n < 2 ^ 64, c = decimal n) :
    Distinguishable texts := by
  intro c hc d hd hdvd
  obtain ⟨n, hn, rfl⟩ := h c hc
  obtain ⟨k, hk, rfl⟩ := h d hd
  rw [digitValue_decimal, digitValue_decimal] at hdvd
  have heq : n = k := by omega
  rw [heq]

end Values

/-- The gateway with the client id texts of its cells, and those that it has accepted. -/
structure Labelled where
  gateway : OrderEntryGateway
  text : Addr → List Byte
  accepted : List (List Byte)

namespace Labelled

def new (poolSize : Nat) (udpPub : Bool) (cfg : RiskConfig) : Labelled :=
  ⟨.new poolSize udpPub cfg, fun _ => [], []⟩

/-- An admitted `D` labels the cell it acquires, an admitted `G` renames the order it finds. -/
def relabel (w : Labelled) (msg : FixMessage) (clock : Clock) : Addr → List Byte :=
  if w.gateway.verdict msg clock ≠ .none then w.text
  else if msg.msgType = byte 'D' then
    Function.update w.text (w.gateway.engine.book.newOrder msg).1.ref msg.clOrdID
  else if msg.msgType = byte 'G' then
    match w.gateway.engine.orderMap (numericId msg.origClOrdID) with
    | none => w.text
    | some order => Function.update w.text order msg.clOrdID
  else w.text

/-- The texts that a message makes numbers of: a `D` and a `G` do if they are admitted. -/
def accepts (w : Labelled) (m : FixMessage × Clock) : List (List Byte) :=
  if m.1.msgType = byte 'F' then [m.1.clOrdID]
  else if w.gateway.verdict m.1 m.2 ≠ .none then []
  else if m.1.msgType = byte 'D' then [m.1.clOrdID]
  else if m.1.msgType = byte 'G' then [m.1.origClOrdID, m.1.clOrdID]
  else []

def step (w : Labelled) (m : FixMessage × Clock) : Option Labelled :=
  (w.gateway.onParsedMessage m.1 m.2).map fun g => ⟨g, w.relabel m.1 m.2, w.accepted ++ w.accepts m⟩

def named (w : Labelled) (m : FixMessage × Clock) : Option (List Byte) :=
  if m.1.msgType = byte 'F' then some m.1.clOrdID
  else if m.1.msgType = byte 'G' ∧ w.gateway.verdict m.1 m.2 = .none then some m.1.origClOrdID
  else none

def others (w : Labelled) (text : Addr → List Byte) (c : List Byte) (s : Side) : List Resting :=
  (w.gateway.engine.book.side s).filter fun r => text r.ref ≠ c

/-- From one state to the next, no order but those that went by `c` has been touched. -/
def Spares (w w' : Labelled) (c : List Byte) : Prop :=
  ∀ s, w'.others w.text c s = w.others w.text c s

end Labelled

def Book.Numbered (b : Book) (text : Addr → List Byte) (accepted : List (List Byte)) : Prop :=
  ∀ s, ∀ r ∈ b.side s, text r.ref ∈ accepted ∧ numericId (text r.ref) = r.id

namespace Book
variable {b : Book} {s : Side} {r : Resting} {p : Resting → Bool}

theorem filter_cancel (hd : b.Distinct) (hi : b.Indexed) {id : OrderId}
    (hp : ∀ a, b.index id = some a → ∀ x : Resting, x.ref = a → p x = false) (t : Side) :
    ((b.cancel id).side t).filter p = (b.side t).filter p := by
  cases cancel_cases hd hi id with
  | inl h => rw [h.2]
  | inr h =>
    obtain ⟨s, r, hr, rfl, hk, hb⟩ := h
    rw [hb]
    exact filter_drop (b := b.eraseId r.id) (hp r.ref hk) t

theorem filter_modify (hd : b.Distinct) (hi : b.Indexed) {origId newId : OrderId}
    {newPrice : Price} {newQty : Quantity}
    (hp : ∀ a, b.index origId = some a → ∀ x : Resting, x.ref = a → p x = false) (t : Side) :
    ((b.modify origId newId newPrice newQty).side t).filter p = (b.side t).filter p := by
  cases modify_cases hd hi origId newId newPrice newQty with
  | inl h => rw [h.2]
  | inr h =>
    obtain ⟨s, r, hr, rfl, hk, hcase⟩ := h
    have hp := hp r.ref hk
    cases hcase with
    | inl h =>
      rw [h.2.2]
      exact filter_rewrite hp newId newQty t
    | inr h =>
      rw [h.2, requeue, filter_rest (hp _ rfl)]
      exact filter_drop (b := b.eraseId r.id) hp t

namespace Numbered
variable {text : Addr → List Byte} {accepted accepted' : List (List Byte)}

theorem mono (h : b.Numbered text accepted) (hmore : accepted ⊆ accepted') :
    b.Numbered text accepted' := fun s r hr => ⟨hmore (h s r hr).1, (h s r hr).2⟩

theorem process (h : b.Numbered text accepted) {o : Incoming} (ho : ∀ s, o.ref ∉ refs (b.side s))
    {c : List Byte} (hmem : c ∈ accepted) (hc : o.id = numericId c) (time : Timestamp) :
    (b.process o time).Numbered (Function.update text o.ref c) accepted := by
  intro t x hx
  cases mem_of_process hx with
  | inl hx =>
    obtain ⟨-, -, -, rfl⟩ := hx
    show Function.update text o.ref c o.ref ∈ accepted ∧
      numericId (Function.update text o.ref c o.ref) = o.id
    rw [Function.update_self, hc]
    exact ⟨hmem, rfl⟩
  | inr hx =>
    obtain ⟨r, hr, hs, -⟩ := hx
    have hne : r.ref ≠ o.ref := fun he => ho t (he ▸ List.mem_map_of_mem hr)
    rw [hs.1, hs.2.1, Function.update_of_ne hne]
    exact h t r hr

theorem cancel (h : b.Numbered text accepted) (hd : b.Distinct) (hi : b.Indexed) (id : OrderId) :
    (b.cancel id).Numbered text accepted := fun t x hx => h t x (mem_of_cancel hd hi hx)

theorem modify (h : b.Numbered text accepted) (hd : b.Distinct) (hi : b.Indexed) {origId : OrderId}
    {order : Addr} (hk : b.index origId = some order) {c : List Byte} (hmem : c ∈ accepted)
    (newPrice : Price) (newQty : Quantity) :
    (b.modify origId (numericId c) newPrice newQty).Numbered (Function.update text order c)
      accepted := by
  obtain ⟨s, r, hr, rfl, -⟩ := hi origId order hk
  intro t x hx
  cases (mem_modify hd hi hr hk).mp hx with
  | inl hx =>
    obtain ⟨-, rfl⟩ := hx
    show Function.update text r.ref c r.ref ∈ accepted ∧
      numericId (Function.update text r.ref c r.ref) = numericId c
    rw [Function.update_self]
    exact ⟨hmem, rfl⟩
  | inr hx =>
    rw [Function.update_of_ne hx.2]
    exact h t x hx.1

end Numbered
end Book

namespace Labelled
variable {w w' : Labelled} {m : FixMessage × Clock} {c : List Byte}

theorem accepts_newOrder (hD : m.1.msgType = byte 'D') (hv : w.gateway.verdict m.1 m.2 = .none) :
    w.accepts m = [m.1.clOrdID] := by
  have hF : m.1.msgType ≠ byte 'F' := by
    rw [hD]
    decide
  rw [accepts, if_neg hF, if_neg (not_not.mpr hv), if_pos hD]

theorem accepts_replace (hG : m.1.msgType = byte 'G') (hv : w.gateway.verdict m.1 m.2 = .none) :
    w.accepts m = [m.1.origClOrdID, m.1.clOrdID] := by
  have hF : m.1.msgType ≠ byte 'F' := by
    rw [hG]
    decide
  have hD : m.1.msgType ≠ byte 'D' := by
    rw [hG]
    decide
  rw [accepts, if_neg hF, if_neg (not_not.mpr hv), if_neg hD, if_pos hG]

theorem accepts_of_named (hc : c ∈ w.named m) : c ∈ w.accepts m := by
  unfold named at hc
  by_cases hF : m.1.msgType = byte 'F'
  · rw [if_pos hF] at hc
    rw [accepts, if_pos hF]
    exact List.mem_singleton.mpr (Option.some.inj hc).symm
  · rw [if_neg hF, Option.mem_def, Option.ite_none_right_eq_some] at hc
    obtain ⟨⟨hG, hv⟩, hc⟩ := hc
    obtain rfl := Option.some.inj hc
    rw [accepts_replace hG hv]
    exact List.mem_cons_self

/-- If no two texts share a number, the order that the index finds for a name goes by it. -/
theorem text_of_named (h : w.gateway.Sound)
    (hn : w.gateway.engine.book.Numbered w.text w.accepted)
    (hm : SeparateIds (w.accepted ++ w.accepts m)) (hc : c ∈ w.named m) {a : Addr}
    (ha : w.gateway.engine.book.index (numericId c) = some a) : w.text a = c := by
  obtain ⟨s, r, hr, rfl, hid⟩ := h.indexed _ _ ha
  obtain ⟨hmem, hnumber⟩ := hn s r hr
  exact hm _ (List.mem_append_left _ hmem) c (List.mem_append_right _ (accepts_of_named hc))
    (hnumber.trans hid)

theorem spares_of_named (h : w.gateway.Sound)
    (hn : w.gateway.engine.book.Numbered w.text w.accepted)
    (hm : SeparateIds (w.accepted ++ w.accepts m)) (hstep : w.step m = some w') (hc : c ∈ w.named m) :
    w.Spares w' c := by
  intro s
  obtain ⟨g', hg, -, hb, -⟩ := h.onParsedMessage m.1 m.2
  have hw' : w' = ⟨g', w.relabel m.1 m.2, w.accepted ++ w.accepts m⟩ := by
    rw [step, hg] at hstep
    exact (Option.some.inj hstep).symm
  have hp : ∀ a, w.gateway.engine.book.index (numericId c) = some a → ∀ x : Resting,
      x.ref = a → decide (w.text x.ref ≠ c) = false := by
    rintro a ha x rfl
    simpa using text_of_named h hn hm hc ha
  rw [hw', others, others]
  show (g'.engine.book.side s).filter _ = _
  rw [hb]
  unfold named at hc
  unfold OrderEntryGateway.bookAfter
  by_cases hF : m.1.msgType = byte 'F'
  · rw [if_pos hF] at hc
    obtain rfl := Option.some.inj hc
    have hD : m.1.msgType ≠ byte 'D' := by
      rw [hF]
      decide
    rw [if_neg hD, if_pos hF]
    exact Book.filter_cancel h.distinct h.indexed hp s
  · rw [if_neg hF] at hc
    by_cases hG : m.1.msgType = byte 'G' ∧ w.gateway.verdict m.1 m.2 = .none
    · rw [if_pos hG] at hc
      obtain rfl := Option.some.inj hc
      obtain ⟨hG, hv⟩ := hG
      have hD : m.1.msgType ≠ byte 'D' := by
        rw [hG]
        decide
      rw [if_neg hD, if_neg hF, if_pos hG, if_pos hv]
      exact Book.filter_modify h.distinct h.indexed hp s
    · rw [if_neg hG] at hc
      simp at hc

theorem numbered_newOrder (h : w.gateway.Sound)
    (hn : w.gateway.engine.book.Numbered w.text (w.accepted ++ w.accepts m))
    (hD : m.1.msgType = byte 'D') (hv : w.gateway.verdict m.1 m.2 = .none) :
    ((w.gateway.engine.book.newOrder m.1).2.process (w.gateway.engine.book.newOrder m.1).1
      m.2.time).Numbered (w.relabel m.1 m.2) (w.accepted ++ w.accepts m) := by
  obtain ⟨a, -, -, -, -, -, -, rfl, hfresh⟩ := h.newOrder m.1 m.2.time m.2.now
  have hside : (w.gateway.engine.book.newOrder m.1).2.side = w.gateway.engine.book.side :=
    Book.side_acquire ..
  have hold : (w.gateway.engine.book.newOrder m.1).2.Numbered w.text
      (w.accepted ++ w.accepts m) := by
    rw [Book.Numbered, hside]
    exact hn
  have hmem : m.1.clOrdID ∈ w.accepted ++ w.accepts m := by
    rw [accepts_newOrder hD hv]
    simp
  rw [relabel, if_neg (not_not.mpr hv), if_pos hD]
  exact hold.process (by rwa [hside]) hmem (w.gateway.engine.book.newOrder_id m.1) m.2.time

theorem numbered_replace (h : w.gateway.Sound)
    (hn : w.gateway.engine.book.Numbered w.text (w.accepted ++ w.accepts m))
    (hG : m.1.msgType = byte 'G') (hv : w.gateway.verdict m.1 m.2 = .none) :
    (w.gateway.engine.book.modify (numericId m.1.origClOrdID) (numericId m.1.clOrdID) m.1.price
      (toQuantity m.1.qty)).Numbered (w.relabel m.1 m.2) (w.accepted ++ w.accepts m) := by
  have hD : m.1.msgType ≠ byte 'D' := by
    rw [hG]
    decide
  have hmem : m.1.clOrdID ∈ w.accepted ++ w.accepts m := by
    rw [accepts_replace hG hv]
    simp
  rw [relabel, if_neg (not_not.mpr hv), if_neg hD, if_pos hG]
  cases hk : w.gateway.engine.orderMap (numericId m.1.origClOrdID) with
  | none =>
    have hk : w.gateway.engine.book.index (numericId m.1.origClOrdID) = none := hk
    rw [Book.modify_unknown hk]
    exact hn
  | some order => exact hn.modify h.distinct h.indexed hk hmem _ _

theorem relabel_of_not_admitted
    (h : ¬ (w.gateway.verdict m.1 m.2 = .none ∧ (m.1.msgType = byte 'D' ∨ m.1.msgType = byte 'G'))) :
    w.relabel m.1 m.2 = w.text := by
  unfold relabel
  split_ifs with hv hD hG
  · rfl
  · exact absurd ⟨not_not.mp hv, Or.inl hD⟩ h
  · exact absurd ⟨not_not.mp hv, Or.inr hG⟩ h
  · rfl

theorem numbered_step (h : w.gateway.Sound)
    (hn : w.gateway.engine.book.Numbered w.text w.accepted) (m : FixMessage × Clock) :
    ∃ w', w.step m = some w' ∧ w'.gateway.Sound ∧
      w'.gateway.engine.book.Numbered w'.text w'.accepted ∧
      w'.accepted = w.accepted ++ w.accepts m := by
  obtain ⟨g', hg, h', hb, -⟩ := h.onParsedMessage m.1 m.2
  refine ⟨⟨g', w.relabel m.1 m.2, w.accepted ++ w.accepts m⟩, by rw [step, hg]; rfl, h', ?_, rfl⟩
  show g'.engine.book.Numbered (w.relabel m.1 m.2) (w.accepted ++ w.accepts m)
  have hn := hn.mono (List.subset_append_left w.accepted (w.accepts m))
  rw [hb]
  obtain ⟨hD, hv, hbook⟩ | ⟨hF, hbook⟩ | ⟨hG, hv, hbook⟩ | ⟨-, hnone, hbook⟩ :=
    w.gateway.bookAfter_cases m.1 m.2
  · rw [hbook]
    exact numbered_newOrder h hn hD hv
  · have hnone : ¬ (w.gateway.verdict m.1 m.2 = .none ∧
        (m.1.msgType = byte 'D' ∨ m.1.msgType = byte 'G')) := by
      have hother : ¬ (byte 'F' = byte 'D' ∨ byte 'F' = byte 'G') := by decide
      rw [hF]
      exact fun h => hother h.2
    rw [hbook, relabel_of_not_admitted hnone]
    exact hn.cancel h.distinct h.indexed _
  · rw [hbook]
    exact numbered_replace h hn hG hv
  · rw [hbook, relabel_of_not_admitted hnone]
    exact hn

/-- In every history, each cancel and each replacement touches no order but one that goes by
the text the message names it by, and no two texts become the same id, exactly when the
values of the accepted texts do not differ by a multiple of `2 ^ 64`. -/
theorem run_spares_iff (poolSize : Nat) (udpPub : Bool) (cfg : RiskConfig)
    (msgs : List (FixMessage × Clock)) :
    ∃ w, run step (new poolSize udpPub cfg) msgs = some w ∧
      (Along step (fun w m => ∃ w', w.step m = some w' ∧ ∀ c ∈ w.named m, w.Spares w' c)
          (new poolSize udpPub cfg) msgs ∧ SeparateIds w.accepted ↔ Distinguishable w.accepted) := by
  have hnew : (new poolSize udpPub cfg).gateway.engine.book.Numbered (fun _ => []) [] := by
    show (Engine.new poolSize udpPub).book.Numbered _ _
    rw [(Engine.new_wellFormed poolSize udpPub).2]
    simp [Book.Numbered, Book.new]
  have hstep : ∀ (w : Labelled) (m : FixMessage × Clock),
      w.gateway.Sound ∧ w.gateway.engine.book.Numbered w.text w.accepted → True →
        ∃ w', w.step m = some w' ∧
          (w'.gateway.Sound ∧ w'.gateway.engine.book.Numbered w'.text w'.accepted) ∧
          (SeparateIds w'.accepted → SeparateIds w.accepted ∧
            ∃ w', w.step m = some w' ∧ ∀ c ∈ w.named m, w.Spares w' c) := by
    rintro w m ⟨h, hn⟩ -
    obtain ⟨w', hw', h', hn', haccepted⟩ := numbered_step h hn m
    refine ⟨w', hw', ⟨h', hn'⟩, fun hend => ?_⟩
    rw [haccepted] at hend
    refine ⟨fun c hc d hd => hend c (List.mem_append_left _ hc) d (List.mem_append_left _ hd), w', hw',
      fun c hc => spares_of_named h hn hend hw' hc⟩
  obtain ⟨w, hw, -, hend⟩ := along_of_end hstep
    ⟨OrderEntryGateway.new_sound poolSize udpPub cfg, hnew⟩ (along_of_forall fun _ _ => trivial)
  refine ⟨w, hw, fun h => separateIds_iff.mp h.2, fun h => ?_⟩
  have hseparate := separateIds_iff.mpr h
  exact ⟨(hend hseparate).2, hseparate⟩

def namedMsg : FixMessage × Clock :=
  ({ msgType := byte 'D', side := byte '1', ordType := byte '2', qty := 10, price := 100,
      clOrdID := [byte '1'], origClOrdID := [] }, ⟨5, 6, 7⟩)

/-- It is cancelled by the text `01`. -/
def paddedMsgs : List (FixMessage × Clock) :=
  [namedMsg,
   ({ msgType := byte 'F', side := byte '1', ordType := byte '2', qty := 0, price := 0,
      clOrdID := [byte '0', byte '1'], origClOrdID := [] }, ⟨11, 12, 13⟩)]

/-- It goes by `1`, and is gone. -/
theorem paddedMsgs_not_spared :
    ∃ w w', run step (new 2 false {}) (paddedMsgs.take 1) = some w ∧
      run step (new 2 false {}) paddedMsgs = some w' ∧ w.gateway.engine.orders .buy = [1] ∧
      w.text 1 = [byte '1'] ∧ w'.gateway.engine.orders .buy = [] ∧
      ¬ w.Spares w' [byte '0', byte '1'] ∧ ¬ SeparateIds w'.accepted := by
  have hrun : (run step (new 2 false {}) (paddedMsgs.take 1)).map (fun w =>
      (w.gateway.engine.orders .buy, w.text 1)) = some ([1], [byte '1']) := by decide +kernel
  have hrun' : (run step (new 2 false {}) paddedMsgs).map (fun w =>
      (w.gateway.engine.orders .buy, w.accepted)) =
      some ([], [[byte '1'], [byte '0', byte '1']]) := by decide +kernel
  obtain ⟨w, hw, heq⟩ := Option.map_eq_some_iff.mp hrun
  obtain ⟨w', hw', heq'⟩ := Option.map_eq_some_iff.mp hrun'
  obtain ⟨horders, htext⟩ := Prod.mk.inj heq
  obtain ⟨hgone, haccepted⟩ := Prod.mk.inj heq'
  refine ⟨w, w', hw, hw', horders, htext, hgone, fun hspares => ?_, fun hseparate => ?_⟩
  · have hbuy := hspares .buy
    simp [others, Engine.book, hgone, horders, Engine.resting, htext] at hbuy
  · rw [haccepted] at hseparate
    have heq := hseparate [byte '1'] (by simp) [byte '0', byte '1'] (by simp) (by decide)
    exact absurd heq (by decide)

end Labelled
end LobCity
