import HftEngine.OrderBook.Invariants

/-!
# What a call moves

The observables of a call, read off its event: what it traded and where
(`Event.tradedWhere`), the order it left resting, if any (`Event.rests`), and
the one it cancelled, if any (`Event.cancelled`).  `flow_outcome` is the balance
of a call: at prices of any kind, on either ladder, what was there and what
came to rest is what was traded away and what is there now.  The balance asks
that the total of the level which the order joins does not wrap (`Event.Fits`),
which it cannot in the first `2^32` calls (`fits_run`).

The laws about whole runs are sums of this balance, or lists of these orders.
-/

namespace HftEngine

open Lib

variable {n : PoolSize}

/-- What is left of an order that joins the book, and the slot it holds. -/
structure Resting where
  orderId : UInt64
  slot : UInt32
  side : Side
  priceTicks : Int64
  quantity : Nat
deriving Repr, DecidableEq

namespace Event

/-- The match results a call reported. -/
def fills (e : Event n) : List MatchResult :=
  match e.reply with
  | .added _ fills => fills
  | .cancelled _ => []

/-- What a call traded with the levels of a side at prices of a kind: an
order trades with the opposite side. -/
def tradedWhere (kind : Int64 → Bool) (side : Side) (e : Event n) : Nat :=
  match e.call with
  | .add side' _ _ _ => if side' = side.opposite then filledWhere kind e.fills else 0
  | .cancel _ => 0

/-- The order a call left resting: one that got a slot and was not filled on
arrival. -/
def rests (e : Event n) : Option Resting :=
  match e.call, e.reply, e.before.freeList.pop.1 with
  | .add side priceTicks quantity type, .added orderId fills, some slot =>
    if type ≠ .cancel ∧ filledQty fills < quantity.toNat then
      some ⟨orderId, slot, side, priceTicks, quantity.toNat - filledQty fills⟩
    else none
  | _, _, _ => none

/-- What a call left resting on a side at prices of a kind. -/
def restedWhere (kind : Int64 → Bool) (side : Side) (e : Event n) : Nat :=
  match e.rests with
  | some o => if o.side = side ∧ kind o.priceTicks then o.quantity else 0
  | none => 0

/-- The order a call cancelled: its id, and the slot that was released. -/
def cancelled (e : Event n) : Option (UInt64 × UInt32) := do
  let orderId ← e.call.cancels
  let slot ← e.before.cancelSlot orderId
  some (orderId, slot)

/-- The total of the level which a resting order joins does not wrap. -/
def Fits (e : Event n) : Prop :=
  ∀ o, e.rests = some o → (e.before.ladder o.side).qtyAt o.priceTicks + o.quantity < 2 ^ 64

end Event

/-! ## The observables of each outcome -/

section Observables

variable {b b' : OrderBook n} {r : Reply}

theorem rests_of_cancels {c : Call} {orderId : UInt64} (hc : c.cancels = some orderId) :
    (⟨b, c, r, b'⟩ : Event n).rests = none := by
  cases c with
  | cancel orderId => rfl
  | add side p q type =>
    cases type with
    | limit => cases hc
    | market => cases hc
    | cancel =>
      unfold Event.rests
      split
      · rename_i hcall _ _
        injection hcall with _ _ _ htype
        rw [if_neg (fun h => h.1 htype.symm)]
      · rfl

theorem rests_refused {side : Side} {p : Int64} {q : UInt32} {type : OrderType}
    (hfree : b.freeList.contents = []) :
    (⟨b, .add side p q type, r, b'⟩ : Event n).rests = none := by
  unfold Event.rests
  simp only [SpscQueue.pop_of_nil hfree]

/-- A placed order rests with the quantity its matching loop left. -/
theorem rests_placed (b' : OrderBook n) (orderId : UInt64) {side : Side} {p : Int64} {q : UInt32}
    {type : OrderType} {slot : UInt32} {freeList : SpscQueue UInt32 n.log2} {s : MatchLoop}
    {l : FlatPriceLadder} (htype : type ≠ .cancel) (hpop : b.freeList.pop = (some slot, freeList))
    (hm : Matched side p q l s) :
    (⟨b, .add side p q type, .added orderId s.fills, b'⟩ : Event n).rests =
      if s.quantity = 0 then none else some ⟨orderId, slot, side, p, s.quantity.toNat⟩ := by
  have hquantity := hm.quantity
  have hslot : b.freeList.pop.1 = some slot := by rw [hpop]
  simp only [Event.rests, hslot]
  by_cases hzero : s.quantity = 0
  · have hnone : s.quantity.toNat = 0 := by rw [hzero]; rfl
    rw [if_pos hzero, if_neg (fun h => by omega)]
  · have hpos : 0 < s.quantity.toNat :=
      Nat.pos_of_ne_zero fun h => hzero (UInt32.toNat_inj.mp h)
    rw [if_neg hzero, if_pos ⟨htype, by omega⟩]
    congr 2
    omega

/-- What rests is something. -/
theorem quantity_of_rests {e : Event n} {o : Resting} (h : e.rests = some o) :
    0 < o.quantity ∧ o.quantity < 2 ^ 32 := by
  unfold Event.rests at h
  split at h
  · rename_i q _ _ _ _ _ _ _
    split at h
    · rename_i hleft
      cases h
      have hlt := UInt32.toNat_lt q
      show 0 < q.toNat - _ ∧ q.toNat - _ < _
      omega
    · cases h
  · cases h

/-- An order that comes to rest has not traded with its own side. -/
theorem tradedWhere_of_rests {e : Event n} {o : Resting} (h : e.rests = some o)
    (kind : Int64 → Bool) : e.tradedWhere kind o.side = 0 := by
  unfold Event.rests at h
  split at h
  · rename_i side _ _ _ _ _ _ hcall _ _
    split at h
    · cases h
      simp only [Event.tradedWhere, hcall]
      exact if_neg (Ne.symm side.opposite_ne)
    · cases h
  · cases h

/-- A `Cancel` order reports no match. -/
theorem fills_of_cancels {fuel : Nat} {c : Call} {orderId : UInt64}
    (hexec : b.exec fuel c = some (r, b')) (hc : c.cancels = some orderId) :
    (⟨b, c, r, b'⟩ : Event n).fills = [] := by
  cases c with
  | cancel orderId =>
    cases hexec
    rfl
  | add side p q type =>
    cases type with
    | limit => cases hc
    | market => cases hc
    | cancel =>
      cases hexec
      rfl

end Observables

/-! ## The balance of a call -/

section Flow

variable {b b' : OrderBook n} {fuel : Nat} {c : Call} {r : Reply}

/-- The balance of a placed order: what is left of it joins its own side,
what it traded leaves the other. -/
theorem flow_placed {side : Side} {p : Int64} {q : UInt32} {slot : UInt32}
    {freeList : SpscQueue UInt32 n.log2} {s : MatchLoop} (hwf : Wf b)
    (hm : Matched side p q (b.ladder side.opposite) s)
    (hp : OrderBook.Placed b side p slot freeList s b')
    (hfits : s.quantity ≠ 0 → (b.ladder side).qtyAt p + s.quantity.toNat < 2 ^ 64)
    (kind : Int64 → Bool) :
    (b'.ladder side).qtyWhere kind =
        (b.ladder side).qtyWhere kind + (if kind p then s.quantity.toNat else 0) ∧
      (b'.ladder side.opposite).qtyWhere kind + filledWhere kind s.fills =
        (b.ladder side.opposite).qtyWhere kind := by
  refine ⟨?_, ?_⟩
  · rw [hp.own]
    by_cases hzero : s.quantity = 0
    · rw [if_pos hzero, hzero]
      simp
    · rw [if_neg hzero]
      exact FlatPriceLadder.qtyWhere_upsert (hwf.sorted side) (hfits hzero) kind
  · rw [hp.opposite, Nat.add_comm]
    exact hm.levels kind

/-- A cancel moves nothing, whether it fails or succeeds. -/
theorem qtyWhere_cancel {orderId : UInt64} (hwf : Wf b) (hc : c.cancels = some orderId)
    (ho : OrderBook.Outcome fuel b c r b') (side : Side) (kind : Int64 → Bool) :
    (b'.ladder side).qtyWhere kind = (b.ladder side).qtyWhere kind := by
  cases ho with
  | idle _ _ hsame => rw [hsame.ladder]
  | @released _ _ _ _ slot _ _ hrel =>
    rcases Side.eq_or_opposite (b.orderPool slot.toNat).side side with rfl | rfl
    · rw [hrel.own, FlatPriceLadder.qtyWhere_removeIfEmpty (hwf.sorted _)]
    · rw [hrel.opposite]
  | refused => rfl
  | @placed side' p q type _ _ _ _ htype =>
    cases type with
    | limit => cases hc
    | market => cases hc
    | cancel => exact absurd rfl htype

/-- **The balance of a call**, on either ladder and at prices of any kind. -/
theorem flow_outcome (hwf : Wf b) (hexec : b.exec fuel c = some (r, b'))
    (hfits : (⟨b, c, r, b'⟩ : Event n).Fits) (side : Side) (kind : Int64 → Bool) :
    (b'.ladder side).qtyWhere kind + (⟨b, c, r, b'⟩ : Event n).tradedWhere kind side =
      (b.ladder side).qtyWhere kind + (⟨b, c, r, b'⟩ : Event n).restedWhere kind side := by
  have hout := OrderBook.exec_outcome hexec
  cases hcancels : c.cancels with
  | some orderId =>
    have hfills : (⟨b, c, r, b'⟩ : Event n).fills = [] := fills_of_cancels hexec hcancels
    have htraded : (⟨b, c, r, b'⟩ : Event n).tradedWhere kind side = 0 := by
      unfold Event.tradedWhere
      rw [hfills]
      split <;> simp [filledWhere]
    rw [htraded, qtyWhere_cancel hwf hcancels hout]
    simp only [Event.restedWhere, rests_of_cancels hcancels]
  | none =>
    cases hout with
    | idle hc => rw [hcancels] at hc; cases hc
    | released hc => rw [hcancels] at hc; cases hc
    | @refused side' p q type _ hfree =>
      simp only [Event.restedWhere, rests_refused hfree]
      unfold Event.tradedWhere
      split <;> simp [filledWhere, Event.fills, OrderBook.ladder, OrderBook.bump]
    | @placed side' p q type slot freeList s _ htype hpop hs hp =>
      have hm := matching_matched (hwf.sorted _) hs
      have hrests := rests_placed b' b.nextOrderId htype hpop hm
      -- what rests fits its level: no total wraps
      have hroom : s.quantity ≠ 0 → (b.ladder side').qtyAt p + s.quantity.toNat < 2 ^ 64 := by
        intro hzero
        rw [if_neg hzero] at hrests
        exact hfits _ hrests
      obtain ⟨hown, hopp⟩ := flow_placed hwf hm hp hroom kind
      have htraded : ∀ side, (⟨b, .add side' p q type, .added b.nextOrderId s.fills, b'⟩ :
          Event n).tradedWhere kind side =
            if side' = side.opposite then filledWhere kind s.fills else 0 := fun _ => rfl
      have hrested : ∀ side, (⟨b, .add side' p q type, .added b.nextOrderId s.fills, b'⟩ :
          Event n).restedWhere kind side =
            if side' = side ∧ kind p then s.quantity.toNat else 0 := by
        intro side
        simp only [Event.restedWhere, hrests]
        by_cases hzero : s.quantity = 0
        · simp [hzero]
        · simp [hzero]
      rw [htraded, hrested]
      rcases Side.eq_or_opposite side' side with rfl | rfl
      · rw [if_neg (Ne.symm side.opposite_ne), hown]
        simp
      · rw [if_pos side'.opposite_opposite.symm, if_neg (fun h => side'.opposite_ne h.1.symm)]
        exact hopp

end Flow

/-- No total wraps in the first `2^32` calls. -/
theorem fits_run {h : List (Event n)} {b : OrderBook n} (hrun : Run h b)
    (hlen : h.length < 2 ^ 32) : ∀ e ∈ h, e.Fits := by
  induction hrun with
  | new symbolId => simp
  | @call h b b' c r fuel hrun hexec ih =>
    rw [List.length_cons] at hlen
    intro e he
    rcases List.mem_cons.mp he with rfl | he
    · intro o ho
      have htotal := totalQty_run_lt hrun hlen o.side
      have hle : (b.ladder o.side).qtyAt o.priceTicks ≤ (b.ladder o.side).totalQty :=
        FlatPriceLadder.qtyWhere_le_totalQty _ _
      have hquantity := (quantity_of_rests ho).2
      show (b.ladder o.side).qtyAt o.priceTicks + o.quantity < 2 ^ 64
      omega
    · exact ih (by omega) e he

/-- The first order of a book of any size, an ask: it rests whole, in slot 0. -/
theorem Run.first_ask (n : PoolSize) (hlog : 0 < n.log2) (p : Int64) {q : UInt32} (hq : q ≠ 0) :
    ∃ (b : OrderBook n) (freeList : SpscQueue UInt32 n.log2),
      Run [⟨.new n 1, .add .sell p q .limit, .added 1 [], b⟩] b ∧
      OrderBook.Placed (.new n 1) .sell p 0 freeList ⟨q, ⟨[]⟩, []⟩ b ∧
      b.freeList.contents.length = n.maxOrders - 2 ∧
      (⟨.new n 1, .add .sell p q .limit, .added 1 [], b⟩ : Event n).rests =
        some ⟨1, 0, .sell, p, q.toNat⟩ ∧
      b.cancelSlot 1 = some 0 := by
  obtain ⟨rest, hfree, hlen⟩ := OrderBook.contents_new_cons n 1 hlog
  have hs := OrderBook.matching_of_empty .sell (ladder_new 1 _ : (OrderBook.new n 1).ladder _ = _) p q
  obtain ⟨b, freeList, hrun, hp, hcont⟩ :=
    (Run.new 1).place OrderType.limit_ne_cancel hfree hs
  obtain ⟨_, hpop, _⟩ := SpscQueue.pop_of_contents hfree
  have hrests := rests_placed b 1 OrderType.limit_ne_cancel hpop
    (matching_matched ((wf_new 1).sorted _) hs)
  have hslot := OrderBook.cancelSlot_placed hp (Nat.two_pow_pos n.log2)
  rw [if_neg hq] at hcont hrests
  exact ⟨b, freeList, hrun, hp, by rw [hcont, hlen], hrests, hslot⟩

end HftEngine
