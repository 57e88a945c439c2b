import HftEngine.OrderBook.Slots

/-!
# The book as a ledger of orders

The engine keeps one total per price and no record of which resting order a
trade was made with.  A ledger is that record: one entry for each order that
came to rest, with what is unfilled of it.  `Ledger h L` says that `L` is the
ledger of the history `h` under some attribution of its trades to the orders
of the levels they were made at; nothing is assumed about which.

* `ledger_latestFirst` — every run has a ledger (as long as no total wraps);
* `ledger_refines` — the book is the ledger with the orders of a level summed
  up, the cancelled ones included;
* `ledger_held` — the entries not cancelled are the orders that hold a slot.

An order that is filled while it rests keeps its slot.  `refused_order_iff`
is what this means for the pool: it is used up by open orders alone exactly
as long as no order was filled while it rested.  `pool_drained` fills
resting orders until the pool is empty, with one unit left in the book.
-/

namespace HftEngine

open Lib

variable {n : PoolSize}

/-- An order that came to rest, and what has become of it. -/
structure Entry where
  order : Resting
  unfilled : Nat
  cancelled : Bool
deriving Repr, DecidableEq

/-- What is unfilled of the orders of a side at prices of a kind. -/
def unfilledWhere (kind : Int64 → Bool) (side : Side) : List Entry → Nat
  | [] => 0
  | x :: L => (if x.order.side = side ∧ kind x.order.priceTicks then x.unfilled else 0) +
      unfilledWhere kind side L

/-- The entry of the order with this name, if it has not been cancelled, is
marked as cancelled. -/
def markCancelled (name : UInt64 × UInt32) : List Entry → List Entry
  | [] => []
  | x :: L =>
    if x.cancelled = false ∧ x.order.name = name then { x with cancelled := true } :: L
    else x :: markCancelled name L

/-- An entry before and after some of its order was filled. -/
structure Entry.FilledTo (x x' : Entry) : Prop where
  order : x'.order = x.order
  unfilled : x'.unfilled ≤ x.unfilled
  cancelled : x'.cancelled = x.cancelled

/-- `L'` is `L` after the trades of a call, attributed in some way to the
orders of the levels they were made at. -/
structure Attributed (e : Event n) (L L' : List Entry) : Prop where
  orders : List.Forall₂ Entry.FilledTo L L'
  traded : ∀ kind side, unfilledWhere kind side L' + e.tradedWhere kind side =
    unfilledWhere kind side L

/-- The entry a call makes or marks, once its trades are attributed. -/
def Event.record (e : Event n) (L : List Entry) : List Entry :=
  match e.cancelled with
  | some name => markCancelled name L
  | none => (e.rests.toList.map fun o => ⟨o, o.quantity, false⟩) ++ L

/-- `L` is a ledger of the history. -/
inductive Ledger : List (Event n) → List Entry → Prop
  | new : Ledger [] []
  | call {e : Event n} {h : List (Event n)} {L L' : List Entry} :
      Ledger h L → Attributed e L L' → Ledger (e :: h) (e.record L')

/-- The orders that have come to rest and have not been cancelled. -/
def uncancelled (L : List Entry) : List Entry := L.filter fun x => !x.cancelled

/-- The orders that rest with unfilled, uncancelled quantity. -/
def openOrders (L : List Entry) : List Entry := (uncancelled L).filter fun x => 0 < x.unfilled

/-! ## The entries not cancelled hold the slots -/

theorem uncancelled_cons (x : Entry) (L : List Entry) :
    uncancelled (x :: L) = if x.cancelled = true then uncancelled L else x :: uncancelled L := by
  unfold uncancelled
  cases hc : x.cancelled <;> simp [hc]

theorem uncancelled_filledTo {L L' : List Entry} (hL : List.Forall₂ Entry.FilledTo L L') :
    (uncancelled L').map (·.order) = (uncancelled L).map (·.order) := by
  induction hL with
  | nil => rfl
  | cons hx _ ih =>
    rw [uncancelled_cons, uncancelled_cons, hx.cancelled]
    split
    · exact ih
    · rw [List.map_cons, List.map_cons, ih, hx.order]

theorem uncancelled_markCancelled (name : UInt64 × UInt32) (L : List Entry) :
    (uncancelled (markCancelled name L)).map (·.order) =
      ((uncancelled L).map (·.order)).eraseP fun o => o.name = name := by
  induction L with
  | nil => rfl
  | cons x L ih =>
    unfold markCancelled
    rw [uncancelled_cons x L]
    cases hc : x.cancelled with
    | true =>
      rw [if_neg (fun h => absurd h.1 (by decide)), uncancelled_cons, if_pos hc, if_pos rfl]
      exact ih
    | false =>
      by_cases hname : x.order.name = name
      · rw [if_pos ⟨rfl, hname⟩, uncancelled_cons, if_pos rfl, if_neg (by decide), List.map_cons,
          List.eraseP_cons_of_pos (by simpa using hname)]
      · rw [if_neg (fun h => hname h.2), uncancelled_cons, hc, if_neg (by decide),
          if_neg (by decide), List.map_cons, List.map_cons,
          List.eraseP_cons_of_neg (by simpa using hname), ih]

/-- The orders not cancelled are the ones that hold a slot. -/
theorem ledger_held {h : List (Event n)} {L : List Entry} (hl : Ledger h L) :
    (uncancelled L).map (·.order) = held h := by
  induction hl with
  | new => rfl
  | @call e h L L' _ ha ih =>
    have hkeep := uncancelled_filledTo ha.orders
    rw [ih] at hkeep
    unfold Event.record held
    cases e.cancelled with
    | some name =>
      show (uncancelled (markCancelled name L')).map (·.order) = _
      rw [uncancelled_markCancelled, hkeep]
    | none =>
      cases e.rests with
      | none => exact hkeep
      | some o =>
        show o :: (uncancelled L').map (·.order) = o :: held h
        rw [hkeep]

/-! ## The book sums up the ledger -/

theorem unfilledWhere_markCancelled (kind : Int64 → Bool) (side : Side) (name : UInt64 × UInt32)
    (L : List Entry) :
    unfilledWhere kind side (markCancelled name L) = unfilledWhere kind side L := by
  induction L with
  | nil => rfl
  | cons x L ih =>
    unfold markCancelled
    split
    · rfl
    · simp only [unfilledWhere, ih]

/-- A call that cancels leaves no order resting. -/
theorem rests_of_cancelled {e : Event n} {name : UInt64 × UInt32} (h : e.cancelled = some name) :
    e.rests = none := by
  obtain ⟨b, c, r, b'⟩ := e
  cases hc : c.cancels with
  | none =>
    rw [cancelled_of_not_cancels hc] at h
    cases h
  | some orderId => exact rests_of_cancels hc

theorem unfilledWhere_record (kind : Int64 → Bool) (side : Side) (e : Event n) (L : List Entry) :
    unfilledWhere kind side (e.record L) =
      e.restedWhere kind side + unfilledWhere kind side L := by
  unfold Event.record Event.restedWhere
  cases hc : e.cancelled with
  | some name =>
    show unfilledWhere kind side (markCancelled name L) = _
    rw [rests_of_cancelled hc, unfilledWhere_markCancelled, Nat.zero_add]
  | none =>
    cases e.rests with
    | none => exact (Nat.zero_add _).symm
    | some o => rfl

/-- **The book refines the ledger.** As long as no total wraps, what a ladder
shows at prices of any kind is what is unfilled of the orders there. -/
theorem ledger_refines {h : List (Event n)} {b : OrderBook n} {L : List Entry} (hrun : Run h b)
    (hl : Ledger h L) (hfits : ∀ e ∈ h, e.Fits) (kind : Int64 → Bool) (side : Side) :
    unfilledWhere kind side L = (b.ladder side).qtyWhere kind := by
  induction hl generalizing b with
  | new =>
    cases hrun with
    | new symbolId =>
      rw [ladder_new]
      rfl
  | call _ ha ih =>
    cases hrun with
    | call hrun hexec =>
      have ih := ih hrun fun e he => hfits e (List.mem_cons_of_mem _ he)
      have hflow := flow_outcome (wf_run hrun) hexec (hfits _ List.mem_cons_self) side kind
      have htraded := ha.traded kind side
      rw [unfilledWhere_record]
      omega

/-! ## Every run has a ledger -/

/-- `quantity` units are taken from the orders of one level, the latest
first. -/
def takeFrom (side : Side) (p : Int64) : Nat → List Entry → List Entry
  | _, [] => []
  | quantity, x :: L =>
    if x.order.side = side ∧ x.order.priceTicks = p then
      { x with unfilled := x.unfilled - quantity } :: takeFrom side p (quantity - x.unfilled) L
    else x :: takeFrom side p quantity L

/-- The trades of one call, made with orders of `side`. -/
def takeFills (side : Side) : List MatchResult → List Entry → List Entry
  | [], L => L
  | f :: fills, L => takeFills side fills (takeFrom side f.priceTicks f.quantity.toNat L)

def Event.attribute (e : Event n) (L : List Entry) : List Entry :=
  match e.call with
  | .add side _ _ _ => takeFills side.opposite e.fills L
  | .cancel _ => L

/-- The ledger of a history in which each trade is made with the latest
orders of its level. -/
def latestFirst : List (Event n) → List Entry
  | [] => []
  | e :: h => e.record (e.attribute (latestFirst h))

theorem unfilledWhere_takeFrom {side : Side} {p : Int64} {quantity : Nat} {L : List Entry}
    (hle : quantity ≤ unfilledWhere (fun p' => p' = p) side L) (kind : Int64 → Bool)
    (side' : Side) :
    unfilledWhere kind side' (takeFrom side p quantity L) +
        (if side = side' ∧ kind p then quantity else 0) = unfilledWhere kind side' L := by
  induction L generalizing quantity with
  | nil =>
    have hzero : quantity = 0 := Nat.le_zero.mp hle
    simp [takeFrom, unfilledWhere, hzero]
  | cons x L ih =>
    unfold takeFrom
    by_cases hx : x.order.side = side ∧ x.order.priceTicks = p
    · rw [if_pos hx]
      obtain ⟨rfl, rfl⟩ := hx
      simp only [unfilledWhere, decide_true, and_self, if_true] at hle
      have ih := @ih (quantity - x.unfilled) (by omega)
      simp only [unfilledWhere]
      by_cases hcounts : x.order.side = side' ∧ kind x.order.priceTicks = true
      · simp only [if_pos hcounts] at ih ⊢
        omega
      · simp only [if_neg hcounts] at ih ⊢
        omega
    · rw [if_neg hx]
      have hskip : ¬ (x.order.side = side ∧ decide (x.order.priceTicks = p) = true) := by
        simpa using hx
      simp only [unfilledWhere, if_neg hskip, Nat.zero_add] at hle
      have ih := ih hle
      simp only [unfilledWhere]
      omega

theorem filledWhere_cons (kind : Int64 → Bool) (f : MatchResult) (fills : List MatchResult) :
    filledWhere kind (f :: fills) =
      (if kind f.priceTicks then f.quantity.toNat else 0) + filledWhere kind fills := by
  unfold filledWhere
  cases hk : kind f.priceTicks <;> simp [hk]

theorem unfilledWhere_takeFills {side : Side} {fills : List MatchResult} {L : List Entry}
    (hle : ∀ p, filledWhere (fun p' => p' = p) fills ≤ unfilledWhere (fun p' => p' = p) side L)
    (kind : Int64 → Bool) (side' : Side) :
    unfilledWhere kind side' (takeFills side fills L) +
        (if side = side' then filledWhere kind fills else 0) = unfilledWhere kind side' L := by
  induction fills generalizing L with
  | nil => simp [takeFills, filledWhere]
  | cons f fills ih =>
    have hhead : f.quantity.toNat ≤ unfilledWhere (fun p' => p' = f.priceTicks) side L := by
      have hp := hle f.priceTicks
      rw [filledWhere_cons, if_pos (decide_eq_true rfl)] at hp
      omega
    have hstep := unfilledWhere_takeFrom hhead
    -- at each price the entries still cover the fills that are left
    have ih := @ih (takeFrom side f.priceTicks f.quantity.toNat L) (by
      intro p
      have hp := hle p
      have hs := hstep (fun p' => p' = p) side
      rw [filledWhere_cons] at hp
      simp only [true_and] at hs
      omega)
    have hs := hstep kind side'
    rw [filledWhere_cons]
    show unfilledWhere kind side' (takeFills side fills _) + _ = _
    by_cases hside : side = side'
    · simp only [hside, true_and, if_true] at ih hs ⊢
      omega
    · simp only [hside, false_and, if_false] at ih hs ⊢
      omega

theorem filledTo_takeFrom {side : Side} {p : Int64} {quantity : Nat} {L₀ L : List Entry}
    (hL : List.Forall₂ Entry.FilledTo L₀ L) :
    List.Forall₂ Entry.FilledTo L₀ (takeFrom side p quantity L) := by
  induction hL generalizing quantity with
  | nil => exact .nil
  | @cons x₀ x L₀ L hx _ ih =>
    unfold takeFrom
    split
    · exact .cons ⟨hx.order, (Nat.sub_le _ _).trans hx.unfilled, hx.cancelled⟩ ih
    · exact .cons hx ih

theorem filledTo_takeFills {side : Side} {fills : List MatchResult} {L₀ L : List Entry}
    (hL : List.Forall₂ Entry.FilledTo L₀ L) :
    List.Forall₂ Entry.FilledTo L₀ (takeFills side fills L) := by
  induction fills generalizing L with
  | nil => exact hL
  | cons f fills ih => exact ih (filledTo_takeFrom hL)

theorem filledTo_refl (L : List Entry) : List.Forall₂ Entry.FilledTo L L :=
  List.forall₂_same.mpr fun _ _ => ⟨rfl, Nat.le_refl _, rfl⟩

/-- No call trades more at a price than the ladder shows there. -/
theorem tradedWhere_le {b b' : OrderBook n} {fuel : Nat} {c : Call} {r : Reply} (hwf : Wf b)
    (hexec : b.exec fuel c = some (r, b')) (hfits : (⟨b, c, r, b'⟩ : Event n).Fits) (side : Side)
    (kind : Int64 → Bool) :
    (⟨b, c, r, b'⟩ : Event n).tradedWhere kind side ≤ (b.ladder side).qtyWhere kind := by
  have hflow := flow_outcome hwf hexec hfits side kind
  unfold Event.restedWhere at hflow
  split at hflow
  · rename_i o ho
    by_cases hside : o.side = side
    · have hnone := tradedWhere_of_rests ho kind
      rw [hside] at hnone
      omega
    · rw [if_neg (fun hc => hside hc.1)] at hflow
      omega
  · omega

theorem attributed_attribute {b b' : OrderBook n} {fuel : Nat} {c : Call} {r : Reply}
    {L : List Entry} (hwf : Wf b) (hexec : b.exec fuel c = some (r, b'))
    (hfits : (⟨b, c, r, b'⟩ : Event n).Fits)
    (hL : ∀ kind side, unfilledWhere kind side L = (b.ladder side).qtyWhere kind) :
    Attributed (⟨b, c, r, b'⟩ : Event n) L ((⟨b, c, r, b'⟩ : Event n).attribute L) := by
  cases c with
  | cancel orderId => exact ⟨filledTo_refl L, fun _ _ => rfl⟩
  | add side p q type =>
    refine ⟨filledTo_takeFills (filledTo_refl L), ?_⟩
    intro kind side'
    have hle := tradedWhere_le hwf hexec hfits side.opposite
    have htraded : ∀ kind side', (⟨b, .add side p q type, r, b'⟩ : Event n).tradedWhere kind side' =
        if side.opposite = side' then
          filledWhere kind (⟨b, .add side p q type, r, b'⟩ : Event n).fills else 0 := by
      intro kind side'
      cases side <;> cases side' <;> rfl
    rw [htraded]
    refine unfilledWhere_takeFills ?_ kind side'
    intro p'
    rw [hL]
    have hp := hle fun p'' => p'' = p'
    rw [htraded, if_pos rfl] at hp
    exact hp

/-- Every run in which no total wraps has a ledger. -/
theorem ledger_latestFirst {h : List (Event n)} {b : OrderBook n} (hrun : Run h b)
    (hfits : ∀ e ∈ h, e.Fits) : Ledger h (latestFirst h) := by
  induction hrun with
  | new symbolId => exact .new
  | call hrun hexec ih =>
    have hold := fun e he => hfits e (List.mem_cons_of_mem _ he)
    have hl := ih hold
    exact .call hl (attributed_attribute (wf_run hrun) hexec (hfits _ List.mem_cons_self)
      (ledger_refines hrun hl hold))

/-! ## A refused order -/

/-- Each order that came to rest and was not cancelled has something
unfilled. -/
def NoneFilled (L : List Entry) : Prop := ∀ x ∈ uncancelled L, 0 < x.unfilled

instance (L : List Entry) : Decidable (NoneFilled L) :=
  inferInstanceAs (Decidable (∀ x ∈ uncancelled L, _))

/-- An id of 0 from `add_order` is a refusal, unless the ids have come round. -/
theorem contents_of_refused {b b' : OrderBook n} {fuel : Nat} {side : Side} {p : Int64}
    {q : UInt32} {fills : List MatchResult} (hid : b.nextOrderId ≠ 0)
    (hadd : b.addOrder fuel side p q .limit = some (0, fills, b')) :
    b.freeList.contents = [] := by
  obtain ⟨hnil, _⟩ | ⟨slot, freeList, hpop, _⟩ := b.freeList.pop_eq
  · exact hnil
  · obtain ⟨_, hnone⟩ | ⟨s, b₁, _, hsome, _⟩ := OrderBook.addOrder_placed side p q
      OrderType.limit_ne_cancel hpop fuel
    · rw [hadd] at hnone
      cases hnone
    · rw [hadd] at hsome
      injection hsome with hsome
      injection hsome with hzero
      exact absurd hzero.symm hid

/-- An entry adds at most one open order, and only if something is unfilled
of it. -/
theorem length_openOrders_cons (x : Entry) (L : List Entry) :
    (openOrders (x :: L)).length ≤ min 1 x.unfilled + (openOrders L).length := by
  have hsplit : openOrders (x :: L) = openOrders [x] ++ openOrders L := by
    unfold openOrders uncancelled
    rw [← List.filter_append, ← List.filter_append]
    rfl
  have hone : (openOrders [x]).length ≤ 1 :=
    (List.length_filter_le _ _).trans (List.length_filter_le _ _)
  rw [hsplit, List.length_append]
  by_cases hpos : 0 < x.unfilled
  · omega
  · have hnone : openOrders [x] = [] := by
      unfold openOrders uncancelled
      rw [List.filter_filter, List.filter_singleton]
      simp [hpos]
    rw [hnone, List.length_nil]
    omega

/-- An open order has at least one unit in the book. -/
theorem length_openOrders_le (L : List Entry) :
    (openOrders L).length ≤
      unfilledWhere (fun _ => true) .buy L + unfilledWhere (fun _ => true) .sell L := by
  induction L with
  | nil => exact Nat.le_refl _
  | cons x L ih =>
    have hx := length_openOrders_cons x L
    simp only [unfilledWhere]
    cases x.order.side with
    | buy =>
      simp only [and_self, if_true, reduceCtorEq, false_and, if_false]
      omega
    | sell =>
      simp only [and_self, if_true, reduceCtorEq, false_and, if_false]
      omega

theorem openOrders_le_totalQty {h : List (Event n)} {b : OrderBook n} {L : List Entry}
    (hrun : Run h b) (hl : Ledger h L) (hfits : ∀ e ∈ h, e.Fits) :
    (openOrders L).length ≤ b.bids.totalQty + b.asks.totalQty := by
  have hopen := length_openOrders_le L
  rw [ledger_refines hrun hl hfits, ledger_refines hrun hl hfits,
    ← FlatPriceLadder.totalQty_eq, ← FlatPriceLadder.totalQty_eq] at hopen
  exact hopen

/-- **What a refused order says about the book.** When `add_order` returns 0,
at least as many orders as there are slots are resting with unfilled,
uncancelled quantity, and the book holds at least that many units, provided
that no resting order has been filled without being cancelled; and where no
slot has been freed twice, only then. -/
theorem refused_order_iff {h : List (Event n)} {b b' : OrderBook n} {L : List Entry} {fuel : Nat}
    {side : Side} {p : Int64} {q : UInt32} {fills : List MatchResult} (hrun : Run h b)
    (hl : Ledger h L) (hid : b.nextOrderId ≠ 0)
    (hadd : b.addOrder fuel side p q .limit = some (0, fills, b')) :
    (NoneFilled L → n.maxOrders - 1 ≤ (openOrders L).length ∧
      ((∀ e ∈ h, e.Fits) → n.maxOrders - 1 ≤ b.bids.totalQty + b.asks.totalQty)) ∧
    (ReleasesOnce h → n.maxOrders - 1 ≤ (openOrders L).length → NoneFilled L) := by
  have hfree := contents_of_refused hid hadd
  have hheld : (uncancelled L).length = (held h).length := by
    rw [← ledger_held hl, List.length_map]
  refine ⟨?_, ?_⟩
  · intro hnone
    have hopen : openOrders L = uncancelled L :=
      List.filter_eq_self.mpr fun x hx => decide_eq_true (hnone x hx)
    have hcount := held_count hrun
    rw [hfree, List.length_nil, ← hheld, ← hopen] at hcount
    refine ⟨hcount, ?_⟩
    intro hfits
    exact Nat.le_trans hcount (openOrders_le_totalQty hrun hl hfits)
  · intro hr hopen x hx
    -- every slot is held, by one order each
    have hslots := (accounted_run hrun hr).slots.length_eq
    rw [hfree] at hslots
    simp only [List.nil_append, List.length_map, List.length_range] at hslots
    have hall : (openOrders L).length = (uncancelled L).length :=
      Nat.le_antisymm (List.length_filter_le _ _) (by omega)
    exact of_decide_eq_true (List.length_filter_eq_length_iff.mp hall x hx)

/-- An ask part of which is bought, and two more asks: the pool of four slots
(of which three are given out) is used up by three open orders. -/
def threeOpen : List (Event .four) × OrderBook .four :=
  played 2 1 [.add .sell 100 2 .limit, .add .buy 100 1 .limit, .add .sell 101 1 .limit,
    .add .sell 102 1 .limit] (by decide)

theorem refused_order_three_open :
    3 ≤ (openOrders (latestFirst threeOpen.1)).length ∧
      3 ≤ threeOpen.2.bids.totalQty + threeOpen.2.asks.totalQty := by
  have hrun : Run threeOpen.1 threeOpen.2 := run_played _
  have hfits : ∀ e ∈ threeOpen.1, e.Fits := fits_run hrun (by decide)
  have hfree : threeOpen.2.freeList.contents = [] := by decide
  have hadd : threeOpen.2.addOrder 0 .sell 103 1 .limit = some (0, [], threeOpen.2.bump) :=
    OrderBook.addOrder_refused OrderType.limit_ne_cancel hfree 0
  have hnone : NoneFilled (latestFirst threeOpen.1) := by decide
  obtain ⟨hopen, htotal⟩ :=
    (refused_order_iff hrun (ledger_latestFirst hrun hfits) (by decide) hadd).1 hnone
  exact ⟨hopen, htotal hfits⟩

/-! ## A pool without free slots and a book with one unit -/

/-- An ask is placed and bought at once, `k` times over.  The buyer's slot
comes back, the seller's does not. -/
theorem drained_rounds (n : PoolSize) (k : Nat) (hk : k + 2 ≤ n.maxOrders) :
    ∃ (h : List (Event n)) (b : OrderBook n), Run h b ∧ h.length = 2 * k ∧
      b.bids = ⟨[]⟩ ∧ b.asks = ⟨[]⟩ ∧ b.freeList.contents.length = n.maxOrders - 1 - k := by
  have htype := OrderType.limit_ne_cancel
  induction k with
  | zero =>
    refine ⟨[], .new n 1, .new 1, rfl, rfl, rfl, ?_⟩
    rw [OrderBook.contents_new]
    simp
  | succ k ih =>
    obtain ⟨h, b, hrun, hlen, hbids, hasks, hfree⟩ := ih (by omega)
    obtain ⟨slot, rest, hcont⟩ := List.exists_cons_of_length_pos
      (l := b.freeList.contents) (by omega)
    rw [hcont, List.length_cons] at hfree
    obtain ⟨b₁, _, hrun₁, hp₁, hcont₁⟩ :=
      hrun.place htype hcont (OrderBook.matching_of_empty .sell hbids 100 1)
    have hasks₁ : b₁.ladder .sell = ⟨[⟨100, 1, 1⟩]⟩ := by
      rw [hp₁.own, show b.ladder .sell = ⟨[]⟩ from hasks]
      rfl
    have hbids₁ : b₁.ladder .buy = ⟨[]⟩ := hp₁.opposite
    have hcont₁ : b₁.freeList.contents = rest := hcont₁
    obtain ⟨slot', rest', hrest⟩ := List.exists_cons_of_length_pos (l := rest) (by omega)
    rw [hrest] at hcont₁ hfree
    -- the buy order gives its own slot back, the ask's slot is lost
    have hbuy : b₁.matching 2 .buy 100 1 = some ⟨0, ⟨[]⟩, [⟨0, 0, 100, 1⟩]⟩ := by
      unfold OrderBook.matching
      rw [show b₁.ladder Side.buy.opposite = _ from hasks₁]
      decide
    obtain ⟨b₂, _, hrun₂, hp₂, hcont₂⟩ := hrun₁.place htype hcont₁ hbuy
    have hcont₂ : b₂.freeList.contents = rest' ++ [slot'] := hcont₂
    refine ⟨_, b₂, hrun₂, ?_, ?_, hp₂.opposite, ?_⟩
    · simp only [List.length_cons, hlen]
      omega
    · show b₂.ladder .buy = _
      rw [hp₂.own, hbids₁]
      rfl
    · rw [hcont₂, List.length_append, List.length_singleton]
      rw [List.length_cons] at hfree
      omega

/-- In a pool of any size, fewer than two orders per slot use up the pool and
leave one unit in the book. -/
theorem drained (n : PoolSize) (hlog : 0 < n.log2) :
    ∃ (h : List (Event n)) (b : OrderBook n), Run h b ∧ h.length + 3 = 2 * n.maxOrders ∧
      b.freeList.contents = [] ∧ b.bids.totalQty + b.asks.totalQty = 1 := by
  have htwo : 2 ≤ n.maxOrders := by
    have hpow := Nat.pow_le_pow_right (by omega : 0 < 2) hlog
    simpa [PoolSize.maxOrders] using hpow
  obtain ⟨h, b, hrun, hlen, hbids, hasks, hfree⟩ := drained_rounds n (n.maxOrders - 2) (by omega)
  obtain ⟨slot, rest, hcont⟩ := List.exists_cons_of_length_pos
    (l := b.freeList.contents) (by omega)
  rw [hcont, List.length_cons] at hfree
  obtain ⟨b₁, _, hrun₁, hp₁, hcont₁⟩ := hrun.place OrderType.limit_ne_cancel hcont
    (OrderBook.matching_of_empty .sell hbids 100 1)
  have hasks₁ : b₁.asks = ⟨[⟨100, 1, 1⟩]⟩ := by
    show b₁.ladder .sell = _
    rw [hp₁.own, show b.ladder .sell = ⟨[]⟩ from hasks]
    rfl
  have hbids₁ : b₁.bids = ⟨[]⟩ := hp₁.opposite
  have hcont₁ : b₁.freeList.contents = rest := hcont₁
  refine ⟨_, b₁, hrun₁, ?_, ?_, ?_⟩
  · rw [List.length_cons]
    omega
  · rw [hcont₁]
    exact List.eq_nil_of_length_eq_zero (by omega)
  · rw [hbids₁, hasks₁]
    rfl

/-- The engine's own pool: after about two million orders `add_order` returns
0, with one unit in the book and, however trades are attributed, at most one
open order. -/
theorem pool_drained :
    ∃ (h : List (Event .default)) (b b' : OrderBook .default), Run h b ∧
      b.addOrder 0 .buy 100 1 .limit = some (0, [], b') ∧
      b.bids.totalQty + b.asks.totalQty < PoolSize.default.maxOrders - 1 ∧
      (∃ L, Ledger h L) ∧
      ∀ L, Ledger h L → (openOrders L).length < PoolSize.default.maxOrders - 1 := by
  obtain ⟨h, b, hrun, hlen, hfree, htotal⟩ := drained .default (by decide)
  have hmax : PoolSize.default.maxOrders = 2 ^ 20 := rfl
  have hfits : ∀ e ∈ h, e.Fits := fits_run hrun (by omega)
  refine ⟨h, b, b.bump, hrun, OrderBook.addOrder_refused OrderType.limit_ne_cancel hfree 0, by omega,
    ⟨_, ledger_latestFirst hrun hfits⟩, ?_⟩
  intro L hl
  have hopen := openOrders_le_totalQty hrun hl hfits
  omega

end HftEngine
