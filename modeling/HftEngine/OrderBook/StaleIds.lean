import HftEngine.OrderBook.Allocation

/-!
# Ids of orders that are gone

`cancel_order` goes by what is left in the pool and the id map, not by what
became of the order (`cancelled_iff`).

* `cancels_truthful_iff` — so it cancels an order that has been cancelled
  before, or was filled on arrival, whenever it is asked to while the order's
  entry and slot have not been overwritten;
* `stale_id_cancels_nothing` — but it takes no order for another: what it
  releases is the slot of the very order it was asked to cancel.
-/

namespace HftEngine

open Lib

variable {n : PoolSize}

/-- The id of an order that was accepted and filled by its own call. -/
def Event.filledOnArrival (e : Event n) : Option UInt64 :=
  match e.allocates, e.rests with
  | some (orderId, _), none => some orderId
  | _, _ => none

/-- The ids for which `cancel_order` returned true, newest first; a `Cancel`
order calls it too. -/
def cancelledIds (h : List (Event n)) : List UInt64 :=
  h.filterMap fun e => e.cancelled.map Prod.fst

def filledIds (h : List (Event n)) : List UInt64 := h.filterMap Event.filledOnArrival

/-- `cancel_order` has returned true at most once for each id, and for no id
whose order had been filled by its own call. -/
structure CancelsTruthful (h : List (Event n)) : Prop where
  once : (cancelledIds h).Nodup
  not_filled : ∀ later e earlier, h = later ++ e :: earlier →
    ∀ orderId ∈ e.filledOnArrival, orderId ∉ cancelledIds later

/-- The call asks to cancel an order that was cancelled before or filled on
arrival, and whose entry and slot have not been overwritten since. -/
def Event.AsksForGone (e : Event n) (earlier : List (Event n)) : Prop :=
  ∃ orderId ∈ e.call.cancels, (orderId ∈ cancelledIds earlier ∨ orderId ∈ filledIds earlier) ∧
    ∃ slot, Retained n.index orderId slot (allocations earlier)

instance (e : Event n) (earlier : List (Event n)) : Decidable (e.AsksForGone earlier) :=
  match hc : e.call.cancels with
  | none => isFalse fun ⟨_, h, _⟩ => by
      rw [hc] at h
      cases h
  | some orderId =>
    decidable_of_iff ((orderId ∈ cancelledIds earlier ∨ orderId ∈ filledIds earlier) ∧
        ∃ slot, Retained n.index orderId slot (allocations earlier))
      ⟨fun h => ⟨orderId, hc, h⟩, fun ⟨orderId', h, hgone⟩ => by
        rw [hc] at h
        cases h
        exact hgone⟩

/-- No call of the history asks for an order that is gone. -/
def AsksOnlyLive : List (Event n) → Prop
  | [] => True
  | e :: h => AsksOnlyLive h ∧ ¬ e.AsksForGone h

instance decidableAsksOnlyLive : (h : List (Event n)) → Decidable (AsksOnlyLive h)
  | [] => isTrue trivial
  | e :: h =>
    have := decidableAsksOnlyLive h
    inferInstanceAs (Decidable (AsksOnlyLive h ∧ ¬ e.AsksForGone h))

theorem AsksOnlyLive.split {later earlier : List (Event n)} {e : Event n}
    (h : AsksOnlyLive (later ++ e :: earlier)) : ¬ e.AsksForGone earlier := by
  induction later with
  | nil => exact h.2
  | cons e' later ih => exact ih h.1

/-! ## Successful cancels -/

theorem cancelled_iff {e : Event n} {earlier : List (Event n)} (hrun : Run earlier e.before)
    (orderId : UInt64) (slot : UInt32) :
    e.cancelled = some (orderId, slot) ↔ e.call.cancels = some orderId ∧
      Retained n.index orderId slot (allocations earlier) := by
  rw [← cancelSlot_iff hrun]
  cases hc : e.call.cancels with
  | none =>
    rw [show e.cancelled = none from cancelled_of_not_cancels hc]
    exact ⟨nofun, nofun⟩
  | some orderId' =>
    rw [show e.cancelled = _ from cancelled_of_cancels hc, Option.map_eq_some_iff]
    constructor
    · rintro ⟨slot', hslot, heq⟩
      cases heq
      exact ⟨rfl, hslot⟩
    · rintro ⟨heq, hslot⟩
      cases heq
      exact ⟨slot, hslot, rfl⟩

theorem mem_cancelledIds {h : List (Event n)} {orderId : UInt64} :
    orderId ∈ cancelledIds h ↔ ∃ e ∈ h, ∃ slot, e.cancelled = some (orderId, slot) := by
  simp [cancelledIds]

theorem cancelledIds_append (h h' : List (Event n)) :
    cancelledIds (h ++ h') = cancelledIds h ++ cancelledIds h' := List.filterMap_append

theorem cancelledIds_cons {e : Event n} {x : UInt64 × UInt32} (he : e.cancelled = some x)
    (h : List (Event n)) : cancelledIds (e :: h) = x.1 :: cancelledIds h :=
  List.filterMap_cons_some (by rw [he]; rfl)

/-- Where no call asks for an order that is gone, a successful cancel is the
first of its id, and of an order that was not filled on arrival. -/
theorem fresh_of_cancelled {e : Event n} {earlier : List (Event n)}
    (hrun : Run earlier e.before) (hask : ¬ e.AsksForGone earlier) {orderId : UInt64}
    {slot : UInt32} (hc : e.cancelled = some (orderId, slot)) :
    orderId ∉ cancelledIds earlier ∧ orderId ∉ filledIds earlier := by
  obtain ⟨hcancels, hretained⟩ := (cancelled_iff hrun orderId slot).mp hc
  refine ⟨?_, ?_⟩
  · exact fun hmem => hask ⟨orderId, hcancels, .inl hmem, slot, hretained⟩
  · exact fun hmem => hask ⟨orderId, hcancels, .inr hmem, slot, hretained⟩

theorem nodup_cancelledIds {h : List (Event n)} {b : OrderBook n} (hrun : Run h b)
    (hask : AsksOnlyLive h) : (cancelledIds h).Nodup := by
  induction hrun with
  | new symbolId => exact List.nodup_nil
  | @call h b b' c r fuel hrun hexec ih =>
    cases hc : (⟨b, c, r, b'⟩ : Event n).cancelled with
    | none =>
      rw [cancelledIds, List.filterMap_cons_none (by rw [hc]; rfl)]
      exact ih hask.1
    | some x =>
      rw [cancelledIds_cons hc]
      exact List.nodup_cons.mpr ⟨(fresh_of_cancelled hrun hask.2 hc).1, ih hask.1⟩

/-- A successful cancel of an order that is gone is an untruthful answer. -/
theorem CancelsTruthful.not_asks {later earlier : List (Event n)} {e : Event n} {b : OrderBook n}
    (h : CancelsTruthful (later ++ e :: earlier)) (hrun : Run (later ++ e :: earlier) b) :
    ¬ e.AsksForGone earlier := by
  rintro ⟨orderId, hcancels, hgone, slot, hretained⟩
  have hc := (cancelled_iff hrun.split.1 orderId slot).mpr ⟨hcancels, hretained⟩
  rcases hgone with hcancelled | hfilled
  · have honce := h.once
    rw [cancelledIds_append, cancelledIds_cons hc] at honce
    exact (List.nodup_cons.mp (List.nodup_append.mp honce).2.1).1 hcancelled
  · -- the order was filled at a call further back
    obtain ⟨e₀, he₀, harrival⟩ := List.mem_filterMap.mp hfilled
    obtain ⟨mid, first, rfl⟩ := List.append_of_mem he₀
    refine h.not_filled (later ++ e :: mid) e₀ first (by simp) orderId harrival ?_
    exact mem_cancelledIds.mpr ⟨e, by simp, slot, hc⟩

theorem CancelsTruthful.tail {e : Event n} {h : List (Event n)} (ht : CancelsTruthful (e :: h)) :
    CancelsTruthful h := by
  refine ⟨?_, ?_⟩
  · exact ht.once.sublist ((List.sublist_cons_self e h).filterMap _)
  · intro later e' earlier hsplit orderId hfilled hmem
    refine ht.not_filled (e :: later) e' earlier (by rw [hsplit]; rfl) orderId hfilled ?_
    exact ((List.sublist_cons_self e later).filterMap _).subset hmem

/-- **When `cancel_order` answers truthfully.** In a run, it returns true at
most once for each id and never for an order that was filled on arrival,
exactly if no call asks it to cancel an order that is gone in one of these two
ways while no later order has been written to its entry or its slot. -/
theorem cancels_truthful_iff {h : List (Event n)} {b : OrderBook n} (hrun : Run h b) :
    CancelsTruthful h ↔ AsksOnlyLive h := by
  constructor
  · intro htruthful
    induction hrun with
    | new symbolId => trivial
    | call hrun hexec ih =>
      exact ⟨ih htruthful.tail,
        CancelsTruthful.not_asks (show CancelsTruthful ([] ++ _ :: _) from htruthful)
          (hrun.call hexec)⟩
  · intro hask
    refine ⟨nodup_cancelledIds hrun hask, ?_⟩
    rintro later e earlier rfl orderId hfilled hmem
    obtain ⟨e', he', slot, hc⟩ := mem_cancelledIds.mp hmem
    obtain ⟨l₁, l₂, rfl⟩ := List.append_of_mem he'
    rw [List.append_assoc, List.cons_append] at hrun hask
    refine (fresh_of_cancelled hrun.split.1 hask.split hc).2 ?_
    exact List.mem_filterMap.mpr ⟨e, by simp, hfilled⟩

theorem cancels_truthful_cancelled_once :
    CancelsTruthful cancelledOnce.1 ∧ cancelledIds cancelledOnce.1 = [2, 1] := by
  have hrun : Run cancelledOnce.1 cancelledOnce.2 := run_played _
  have hask : AsksOnlyLive cancelledOnce.1 := by decide
  exact ⟨(cancels_truthful_iff hrun).mpr hask, by decide⟩

/-- A cancel that finds its order. -/
theorem Run.cancel_found {h : List (Event n)} {b : OrderBook n} (hrun : Run h b)
    {orderId : UInt64} {slot : UInt32} (hslot : b.cancelSlot orderId = some slot) :
    Run (⟨b, .cancel orderId, .cancelled true, b.release slot⟩ :: h) (b.release slot) ∧
      cancelledIds (⟨b, .cancel orderId, .cancelled true, b.release slot⟩ :: h) =
        orderId :: cancelledIds h ∧
      (b.release slot).cancelSlot orderId = some slot := by
  have hexec : b.exec 0 (.cancel orderId) = some (.cancelled true, b.release slot) := by
    simp only [OrderBook.exec, OrderBook.cancelOrder_eq, hslot]
  have hrel := OrderBook.release_spec b slot
  refine ⟨hrun.call hexec, ?_, ?_⟩
  · refine cancelledIds_cons (x := (orderId, slot)) ?_ h
    rw [cancelled_of_cancels rfl, hslot]
    rfl
  · rw [← hslot]
    simp only [OrderBook.cancelSlot, hrel.orderPool, hrel.orderIdToSlot]

/-- In a pool of any size: an ask that is cancelled twice, and a buy order that
is filled by the ask and cancelled then. -/
theorem gone_orders_found (n : PoolSize) (hlog : 1 < n.log2) :
    (∃ (h : List (Event n)) (b : OrderBook n), Run h b ∧
      h.map (·.call) = [.cancel 1, .cancel 1, .add .sell 100 1 .limit] ∧
      cancelledIds h = [1, 1]) ∧
    ∃ (h : List (Event n)) (b : OrderBook n), Run h b ∧
      h.map (·.call) = [.cancel 2, .add .buy 100 1 .limit, .add .sell 100 1 .limit] ∧
      filledIds h = [2] ∧ cancelledIds h = [2] := by
  have hfour : 2 ^ 2 ≤ n.maxOrders := Nat.pow_le_pow_right (by decide) hlog
  obtain ⟨b₁, _, hrun₁, hp₁, hlen, hrests₁, hslot⟩ :=
    Run.first_ask n (by omega) 100 (by decide : (1 : UInt32) ≠ 0)
  refine ⟨?_, ?_⟩
  · obtain ⟨hrun₂, hids₂, hslot₂⟩ := hrun₁.cancel_found hslot
    obtain ⟨hrun₃, hids₃, _⟩ := hrun₂.cancel_found hslot₂
    refine ⟨_, _, hrun₃, rfl, ?_⟩
    rw [hids₃, hids₂]
    rfl
  · have hasks₁ : b₁.ladder .sell = ⟨[⟨100, 1, 1⟩]⟩ := hp₁.own
    have hbuy : b₁.matching 2 .buy 100 1 = some ⟨0, ⟨[]⟩, [⟨0, 0, 100, 1⟩]⟩ := by
      unfold OrderBook.matching
      rw [show b₁.ladder Side.buy.opposite = _ from hasks₁]
      decide
    obtain ⟨slot, rest, hcont₁⟩ := List.exists_cons_of_length_pos
      (l := b₁.freeList.contents) (by omega)
    obtain ⟨b₂, _, hrun₂, hp₂, _⟩ :=
      hrun₁.place OrderType.limit_ne_cancel hcont₁ hbuy
    have hnext : b₁.nextOrderId = 2 := hp₁.nextOrderId
    have hlt := (slotsValid_run hrun₁).free slot (by simp [hcont₁])
    have hslot : b₂.cancelSlot 2 = some slot := by
      rw [← hnext]
      exact OrderBook.cancelSlot_placed hp₂ (by omega)
    obtain ⟨hrun₃, hids₃, _⟩ := hrun₂.cancel_found hslot
    refine ⟨_, _, hrun₃, rfl, ?_, hids₃⟩
    obtain ⟨_, hpop, _⟩ := SpscQueue.pop_of_contents hcont₁
    have hask : (⟨.new n 1, .add .sell 100 1 .limit, .added 1 [], b₁⟩ :
        Event n).filledOnArrival = none := by
      simp only [Event.filledOnArrival, allocates_of_rests hrests₁, hrests₁]
    have hbought : (⟨b₁, .add .buy 100 1 .limit, .added b₁.nextOrderId [⟨0, 0, 100, 1⟩], b₂⟩ :
        Event n).filledOnArrival = some 2 := by
      simp only [Event.filledOnArrival, Event.allocates, Event.rests, hpop, hnext]
      rfl
    exact (List.filterMap_cons_none rfl).trans
      ((List.filterMap_cons_some hbought).trans (congrArg _ (List.filterMap_cons_none hask)))

/-- On a book of the size the engine is built with: the second cancel of an
order returns true, and so does the cancel of an order filled on arrival. -/
theorem gone_orders_cancelled :
    (∃ (h : List (Event .default)) (b : OrderBook .default), Run h b ∧
      h.map (·.call) = [.cancel 1, .cancel 1, .add .sell 100 1 .limit] ∧
      cancelledIds h = [1, 1] ∧ ¬ CancelsTruthful h) ∧
    ∃ (h : List (Event .default)) (b : OrderBook .default), Run h b ∧
      h.map (·.call) = [.cancel 2, .add .buy 100 1 .limit, .add .sell 100 1 .limit] ∧
      filledIds h = [2] ∧ cancelledIds h = [2] := by
  obtain ⟨⟨h, b, hrun, hcalls, hids⟩, hfilled⟩ := gone_orders_found .default (by decide)
  refine ⟨⟨h, b, hrun, hcalls, hids, ?_⟩, hfilled⟩
  intro htruthful
  have honce := htruthful.once
  rw [hids] at honce
  exact absurd honce (by decide)

/-! ## No order is taken for another -/

theorem cancelOrder_of_not_retained {h : List (Event n)} {b : OrderBook n} (hrun : Run h b)
    {orderId : UInt64} (hnone : ¬ ∃ slot, Retained n.index orderId slot (allocations h)) :
    b.cancelOrder orderId = (false, b) := by
  rw [OrderBook.cancelOrder_eq]
  cases hslot : b.cancelSlot orderId with
  | none => rfl
  | some slot => exact absurd ⟨slot, (cancelSlot_iff hrun orderId slot).mp hslot⟩ hnone

theorem cancelOrder_of_retained {h : List (Event n)} {b : OrderBook n} (hrun : Run h b)
    {orderId : UInt64} {slot : UInt32}
    (hretained : Retained n.index orderId slot (allocations h)) :
    b.cancelOrder orderId = (true, b.release slot) := by
  rw [OrderBook.cancelOrder_eq, (cancelSlot_iff hrun orderId slot).mpr hretained]

/-- The call that made a given write. -/
theorem allocations_eq_append {h : List (Event n)} {a : UInt64 × UInt32}
    {later earlier : List (UInt64 × UInt32)} (hh : allocations h = later ++ a :: earlier) :
    ∃ later' e earlier', h = later' ++ e :: earlier' ∧ e.allocates = some a ∧
      allocations later' = later := by
  obtain ⟨later', rest, rfl, hlater, hrest⟩ := List.filterMap_eq_append_iff.mp hh
  obtain ⟨skipped, e, earlier', rfl, hskipped, he, _⟩ := List.filterMap_eq_cons_iff.mp hrest
  refine ⟨later' ++ skipped, e, earlier', by simp, he, ?_⟩
  have hnil : skipped.filterMap Event.allocates = [] := List.filterMap_eq_nil_iff.mpr hskipped
  rw [allocations, List.filterMap_append, hnil, List.append_nil]
  exact hlater

/-- **A stale id cancels no other order.** With fewer than `2^64` ids issued: if
`cancel_order` returns true, the id was returned for a `Limit` or `Market`
order, the slot released is the one this order was given, and no order has
been written to it since.  An id that was given to no such order, or whose slot
holds another order by now, is refused, and the book stays as it is. -/
theorem stale_id_cancels_nothing {h : List (Event n)} {b : OrderBook n} (hrun : Run h b)
    (hissued : issued h < 2 ^ 64) (orderId : UInt64) :
    ((b.cancelOrder orderId).1 = true →
      ∃ later e earlier slot, h = later ++ e :: earlier ∧ e.allocates = some (orderId, slot) ∧
        b.cancelOrder orderId = (true, b.release slot) ∧
        (∀ a ∈ allocations later, a.2 ≠ slot) ∧
        ∀ slot', (orderId, slot') ∈ allocations h → slot' = slot) ∧
    ((∀ slot, (orderId, slot) ∉ allocations h) → b.cancelOrder orderId = (false, b)) ∧
    (∀ later e earlier slot, h = later ++ e :: earlier → e.allocates = some (orderId, slot) →
      (b.orderPool slot.toNat).orderId ≠ orderId ∨ (∃ a ∈ allocations later, a.2 = slot) →
      b.cancelOrder orderId = (false, b)) := by
  have hids := (allocations_ids hrun hissued).1
  refine ⟨?_, ?_, ?_⟩
  · intro htrue
    obtain ⟨slot, hretained⟩ := (cancelOrder_true_iff hrun orderId).mp htrue
    obtain ⟨later, earlier, hsplit, hlater⟩ := retained_iff.mp hretained
    obtain ⟨later', e, earlier', hh, he, rfl⟩ := allocations_eq_append hsplit
    refine ⟨later', e, earlier', slot, hh, he, cancelOrder_of_retained hrun hretained, ?_, ?_⟩
    · exact fun a ha => (hlater a ha).2
    · exact fun slot' hslot' => hretained.unique hids hslot'
  · intro hnever
    refine cancelOrder_of_not_retained hrun ?_
    rintro ⟨slot, hretained⟩
    exact hnever slot hretained.mem
  · rintro later e earlier slot rfl he hother
    refine cancelOrder_of_not_retained hrun ?_
    rintro ⟨slot', hretained⟩
    have hmem : (orderId, slot) ∈ allocations (later ++ e :: earlier) := by
      rw [allocations_split he]
      simp
    -- the id was given out once, so this is the slot that would be found
    have hslot := hretained.unique hids hmem
    subst hslot
    rcases hother with hpool | ⟨a, ha, haslot⟩
    · exact hpool (OrderBook.cancelSlot_spec ((cancelSlot_iff hrun orderId slot).mpr hretained)).2.2
    · rw [allocations_split he] at hids hretained
      exact (hretained.not_overwritten hids a ha).2 haslot

/-- The slot of a cancelled order is given to another. -/
def recycled : List (Event .four) × OrderBook .four :=
  played 1 1 [.add .sell 100 1 .limit, .add .sell 101 1 .limit, .cancel 1, .add .sell 102 1 .limit,
    .add .sell 103 1 .limit] (by decide)

theorem stale_id_cancels_nothing_recycled :
    allocations recycled.1 = [(4, 0), (3, 2), (2, 1), (1, 0)] ∧
      (∃ slot, recycled.2.cancelOrder 2 = (true, recycled.2.release slot)) ∧
      recycled.2.cancelOrder 9 = (false, recycled.2) ∧
      recycled.2.cancelOrder 1 = (false, recycled.2) := by
  have hrun : Run recycled.1 recycled.2 := run_played _
  have hissued : issued recycled.1 < 2 ^ 64 := by decide
  have hallocations : allocations recycled.1 = [(4, 0), (3, 2), (2, 1), (1, 0)] := by decide
  obtain ⟨_, _, _, slot, _, _, htwo, _⟩ :=
    (stale_id_cancels_nothing hrun hissued 2).1 (by decide)
  refine ⟨hallocations, ⟨slot, htwo⟩, ?_, ?_⟩
  · refine (stale_id_cancels_nothing hrun hissued 9).2.1 ?_
    rw [hallocations]
    simp
  · obtain ⟨later, e, earlier, hsplit, he, hpool⟩ : ∃ later e earlier,
        recycled.1 = later ++ e :: earlier ∧ e.allocates = some (1, 0) ∧
        (recycled.2.orderPool 0).orderId ≠ 1 := ⟨[_, _, _, _], _, [], rfl, by decide, by decide⟩
    exact (stale_id_cancels_nothing hrun hissued 1).2.2 later e earlier 0 hsplit he (.inl hpool)

end HftEngine
