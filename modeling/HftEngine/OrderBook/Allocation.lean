import HftEngine.Lib.Retained
import HftEngine.OrderBook.Cancel
import HftEngine.OrderBook.Slots

/-!
# Which orders `cancel_order` finds

An order that is accepted is written to a slot of the pool, and its id to the
entry of the id map that the low bits of the id name.  Nothing else writes to
either, so the history of these writes (`allocations`) decides what
`cancel_order` finds: an id passes its test exactly as long as no later order
was written to its entry of the map or to its slot (`cancelSlot_iff`).

What became of the order plays no part in this.

* `allocations_ids` — while ids have not come round, each is given out once;
* `resting_order_cancelled_iff` — an order that rests is not found once an
  order with the same low bits of its id has been accepted.
-/

namespace HftEngine

open Lib

variable {n : PoolSize}

namespace Event

/-- The id and the slot given to a `Limit` or `Market` order that was accepted. -/
def allocates (e : Event n) : Option (UInt64 × UInt32) :=
  match e.call, e.reply, e.before.freeList.pop.1 with
  | .add _ _ _ type, .added orderId _, some slot =>
    if type ≠ .cancel then some (orderId, slot) else none
  | _, _, _ => none

/-- The call uses up an id. -/
def issues (e : Event n) : Bool :=
  match e.call with
  | .add _ _ _ _ => true
  | .cancel _ => false

end Event

/-- The writes to the pool and the id map, newest first. -/
def allocations (h : List (Event n)) : List (UInt64 × UInt32) := h.filterMap Event.allocates

/-- The number of ids used up. -/
def issued (h : List (Event n)) : Nat := h.countP Event.issues

/-! ## What a call writes -/

section Steps

variable {b b' : OrderBook n} {c : Call} {r : Reply} {fuel : Nat} {h : List (Event n)}

theorem allocates_of_cancels {orderId : UInt64} (hc : c.cancels = some orderId) :
    (⟨b, c, r, b'⟩ : Event n).allocates = none := by
  cases c with
  | cancel orderId => rfl
  | add side p q type =>
    cases type with
    | limit => cases hc
    | market => cases hc
    | cancel =>
      unfold Event.allocates
      split
      · rename_i hcall _ _
        injection hcall with _ _ _ htype
        rw [if_neg (fun h => h htype.symm)]
      · rfl

theorem allocates_of_added {e : Event n} {side : Side} {p : Int64} {q : UInt32} {type : OrderType}
    {orderId : UInt64} {fills : List MatchResult} {slot : UInt32}
    (hcall : e.call = .add side p q type) (hreply : e.reply = .added orderId fills)
    (hpop : e.before.freeList.pop.1 = some slot) (htype : type ≠ .cancel) :
    e.allocates = some (orderId, slot) := by
  unfold Event.allocates
  rw [hcall, hreply, hpop]
  exact if_pos htype

/-- A call writes nothing to pool and map, or one order to a slot that was
free. -/
theorem allocate_step (hexec : b.exec fuel c = some (r, b')) :
    ((⟨b, c, r, b'⟩ : Event n).allocates = none ∧ b'.orderPool = b.orderPool ∧
      b'.orderIdToSlot = b.orderIdToSlot) ∨
    ∃ slot ∈ b.freeList.contents,
      (⟨b, c, r, b'⟩ : Event n).allocates = some (b.nextOrderId, slot) ∧ Written b slot b' := by
  cases OrderBook.exec_outcome hexec with
  | idle hc _ hsame => exact .inl ⟨allocates_of_cancels hc, hsame.orderPool, hsame.orderIdToSlot⟩
  | released hc _ hrel => exact .inl ⟨allocates_of_cancels hc, hrel.orderPool, hrel.orderIdToSlot⟩
  | refused _ hfree =>
    refine .inl ⟨?_, rfl, rfl⟩
    unfold Event.allocates
    simp only [SpscQueue.pop_of_nil hfree]
  | @placed side p q type slot freeList s _ htype hpop _ hp =>
    obtain ⟨rest, hfree, _⟩ := OrderBook.placed_contents hpop hp
    refine .inr ⟨slot, by simp [hfree], ?_, hp.ordered.1, hp.orderPool, hp.orderIdToSlot⟩
    exact allocates_of_added rfl rfl (congrArg Prod.fst hpop) htype

theorem allocations_cons_none {e : Event n} (he : e.allocates = none) :
    allocations (e :: h) = allocations h := List.filterMap_cons_none he

theorem allocations_cons_some {e : Event n} {a : UInt64 × UInt32} (he : e.allocates = some a) :
    allocations (e :: h) = a :: allocations h := List.filterMap_cons_some he

/-- An order that rests has been allocated its slot. -/
theorem allocates_of_rests {e : Event n} {o : Resting} (h : e.rests = some o) :
    e.allocates = some (o.orderId, o.slot) := by
  unfold Event.rests at h
  split at h
  · rename_i hcall hreply hpop
    split at h
    · rename_i htype
      cases h
      exact allocates_of_added hcall hreply hpop htype.1
    · cases h
  · cases h

/-- The next id moves with each `add_order`. -/
theorem nextOrderId_exec (hexec : b.exec fuel c = some (r, b')) :
    b'.nextOrderId = b.nextOrderId + if (⟨b, c, r, b'⟩ : Event n).issues then 1 else 0 := by
  cases c with
  | cancel orderId =>
    injection hexec with hexec
    injection hexec with _ hb
    rw [← hb, OrderBook.cancel_nextOrderId]
    exact (UInt64.add_zero _).symm
  | add side p q type =>
    show b'.nextOrderId = b.nextOrderId + 1
    by_cases htype : type = .cancel
    · subst htype
      cases hexec
      exact OrderBook.cancel_nextOrderId _ _
    · cases OrderBook.exec_outcome hexec with
      | idle hc => rw [cancels_of_ne htype] at hc; cases hc
      | released hc => rw [cancels_of_ne htype] at hc; cases hc
      | refused => rfl
      | placed _ _ _ hp => exact hp.nextOrderId

end Steps

/-! ## Every run -/

theorem cancelSlot_eq_some {b : OrderBook n} {orderId : UInt64} {slot : UInt32} :
    b.cancelSlot orderId = some slot ↔ b.orderIdToSlot (n.index orderId) = slot ∧
      slot.toNat < n.maxOrders ∧ (b.orderPool slot.toNat).orderId = orderId := by
  constructor
  · intro h
    obtain ⟨hmap, hlt, hid⟩ := OrderBook.cancelSlot_spec h
    exact ⟨hmap.symm, hlt, hid⟩
  · rintro ⟨rfl, hlt, hid⟩
    simp only [OrderBook.cancelSlot]
    rw [if_pos ⟨hlt, hid⟩]

/-- Pool and map after an order was written: its own id is found in its slot, and
of the others those whose entry and slot are elsewhere are found as before. -/
theorem cancelSlot_written {b b' : OrderBook n} {slot slot' : UInt32} {orderId : UInt64}
    (hw : Written b slot' b') (hslot' : slot'.toNat < n.maxOrders) :
    b'.cancelSlot orderId = some slot ↔
      (b.nextOrderId, slot') = (orderId, slot) ∨
        (n.index b.nextOrderId ≠ n.index orderId ∧ slot' ≠ slot ∧
          b.cancelSlot orderId = some slot) := by
  rw [cancelSlot_eq_some, cancelSlot_eq_some, hw.orderIdToSlot]
  by_cases hindex : n.index b.nextOrderId = n.index orderId
  · -- the entry of the map is the new order's
    rw [hindex, Function.update_self]
    constructor
    · rintro ⟨rfl, _, hid⟩
      rw [hw.ordered] at hid
      exact .inl (by rw [hid])
    · rintro (heq | ⟨hne, _⟩)
      · injection heq with hid hslot
        subst hid hslot
        exact ⟨rfl, hslot', hw.ordered⟩
      · exact absurd rfl hne
  · have hid : b.nextOrderId ≠ orderId := fun h => hindex (by rw [h])
    rw [Function.update_of_ne (Ne.symm hindex)]
    by_cases hslot : slot' = slot
    · -- the slot is the new order's, whose id is another
      subst hslot
      rw [hw.ordered]
      constructor
      · rintro ⟨_, _, heq⟩
        exact absurd heq hid
      · rintro (heq | ⟨_, hne, _⟩)
        · injection heq with heq
          exact absurd heq hid
        · exact absurd rfl hne
    · have hpool : b'.orderPool slot.toNat = b.orderPool slot.toNat :=
        hw.orderPool _ fun h => hslot (UInt32.toNat_inj.mp h).symm
      rw [hpool]
      constructor
      · exact fun h => .inr ⟨hindex, hslot, h⟩
      · rintro (heq | ⟨_, _, h⟩)
        · injection heq with heq
          exact absurd heq hid
        · exact h

theorem cancelSlot_iff {h : List (Event n)} {b : OrderBook n} (hrun : Run h b) (orderId : UInt64)
    (slot : UInt32) :
    b.cancelSlot orderId = some slot ↔ Retained n.index orderId slot (allocations h) := by
  induction hrun with
  | new symbolId =>
    -- no entry of a fresh map is a slot
    have hle := maxOrders_lt n
    have hmark : ((OrderBook.new n symbolId).orderIdToSlot (n.index orderId)).toNat = 2 ^ 32 - 1 :=
      rfl
    rw [cancelSlot_eq_some]
    constructor
    · rintro ⟨rfl, hlt, _⟩
      omega
    · exact False.elim
  | @call h b b' c r fuel hrun hexec ih =>
    rcases allocate_step hexec with ⟨hnone, hpool, hmap⟩ | ⟨slot', hfree, hsome, hw⟩
    · rw [allocations_cons_none hnone, ← ih]
      simp only [OrderBook.cancelSlot, hpool, hmap]
    · have hlt := (slotsValid_run hrun).free slot' hfree
      rw [allocations_cons_some hsome, cancelSlot_written hw (by omega), ih]
      rfl

theorem issued_cons (e : Event n) (h : List (Event n)) :
    issued (e :: h) = issued h + if e.issues then 1 else 0 := List.countP_cons

theorem issues_of_allocates {e : Event n} {a : UInt64 × UInt32} (he : e.allocates = some a) :
    e.issues = true := by
  unfold Event.allocates at he
  split at he
  · rename_i hcall _ _
    simp only [Event.issues, hcall]
  · cases he

theorem nextOrderId_issued {h : List (Event n)} {b : OrderBook n} (hrun : Run h b) :
    b.nextOrderId.toNat = (issued h + 1) % 2 ^ 64 := by
  induction hrun with
  | new symbolId => rfl
  | @call h b b' c r fuel hrun hexec ih =>
    rw [nextOrderId_exec hexec, UInt64.toNat_add, ih, issued_cons]
    split
    · show ((issued h + 1) % 2 ^ 64 + 1) % 2 ^ 64 = _
      omega
    · show ((issued h + 1) % 2 ^ 64 + 0) % 2 ^ 64 = _
      omega

/-- As long as ids have not come round, each is given out once. -/
theorem allocations_ids {h : List (Event n)} {b : OrderBook n} (hrun : Run h b)
    (hissued : issued h < 2 ^ 64) :
    ((allocations h).map Prod.fst).Nodup ∧ ∀ a ∈ allocations h, a.1.toNat ≤ issued h := by
  induction hrun with
  | new symbolId => exact ⟨List.nodup_nil, nofun⟩
  | @call h b b' c r fuel hrun hexec ih =>
    rw [issued_cons] at hissued ⊢
    obtain ⟨hnodup, hle⟩ := ih (by omega)
    rcases allocate_step hexec with ⟨hnone, _⟩ | ⟨slot, _, hsome, _⟩
    · rw [allocations_cons_none hnone]
      exact ⟨hnodup, fun a ha => (hle a ha).trans (Nat.le_add_right _ _)⟩
    · rw [issues_of_allocates hsome, if_pos rfl] at hissued ⊢
      have hid : b.nextOrderId.toNat = issued h + 1 := by
        rw [nextOrderId_issued hrun]
        exact Nat.mod_eq_of_lt hissued
      rw [allocations_cons_some hsome, List.map_cons]
      refine ⟨List.nodup_cons.mpr ⟨?_, hnodup⟩, ?_⟩
      · -- the new id is larger than all before
        intro hmem
        obtain ⟨a, ha, heq⟩ := List.mem_map.mp hmem
        have hale := hle a ha
        rw [heq, hid] at hale
        omega
      · intro a ha
        rcases List.mem_cons.mp ha with rfl | ha
        · exact hid.le
        · exact (hle a ha).trans (Nat.le_succ _)

theorem cancelOrder_true_iff {h : List (Event n)} {b : OrderBook n} (hrun : Run h b)
    (orderId : UInt64) :
    (b.cancelOrder orderId).1 = true ↔
      ∃ slot, Retained n.index orderId slot (allocations h) := by
  rw [OrderBook.cancelOrder_eq]
  cases hslot : b.cancelSlot orderId with
  | none =>
    refine ⟨nofun, ?_⟩
    rintro ⟨slot, hretained⟩
    rw [← cancelSlot_iff hrun, hslot] at hretained
    cases hretained
  | some slot => exact ⟨fun _ => ⟨slot, (cancelSlot_iff hrun orderId slot).mp hslot⟩, fun _ => rfl⟩

theorem allocations_split {later earlier : List (Event n)} {e : Event n} {a : UInt64 × UInt32}
    (he : e.allocates = some a) :
    allocations (later ++ e :: earlier) = allocations later ++ a :: allocations earlier := by
  unfold allocations
  rw [List.filterMap_append, List.filterMap_cons_some he]

/-! ## Orders that rest -/

/-- An order that nobody has cancelled holds its slot. -/
theorem held_of_not_cancelled {later earlier : List (Event n)} {e : Event n} {o : Resting}
    (ho : e.rests = some o) (hlater : ∀ e' ∈ later, e'.cancelled ≠ some (o.orderId, o.slot)) :
    o ∈ held (later ++ e :: earlier) := by
  induction later with
  | nil =>
    have hcancelled : e.cancelled = none := by
      cases hc : e.call.cancels with
      | none => exact cancelled_of_not_cancels hc
      | some orderId =>
        have hnone : e.rests = none := rests_of_cancels hc
        rw [ho] at hnone
        cases hnone
    simp only [List.nil_append, held, hcancelled, ho]
    exact List.mem_append_left _ (Option.mem_toList.mpr rfl)
  | cons e' later ih =>
    have ih := ih fun e'' he => hlater e'' (List.mem_cons_of_mem _ he)
    simp only [List.cons_append, held]
    cases hc : e'.cancelled with
    | none => exact List.mem_append_right _ ih
    | some name =>
      refine (List.mem_eraseP_of_neg ?_).mpr ih
      have hne := hlater e' List.mem_cons_self
      rw [hc] at hne
      exact fun heq => hne (by rw [← of_decide_eq_true heq]; rfl)

/-- Where no slot is freed twice, the slot of an order that nobody has
cancelled is given to nobody else. -/
theorem slot_not_reallocated {later earlier : List (Event n)} {e : Event n} {b : OrderBook n}
    {o : Resting} (hrun : Run (later ++ e :: earlier) b) (ho : e.rests = some o)
    (hlater : ∀ e' ∈ later, e'.cancelled ≠ some (o.orderId, o.slot))
    (honce : ReleasesOnce (later ++ e :: earlier)) : ∀ a ∈ allocations later, a.2 ≠ o.slot := by
  intro a ha
  obtain ⟨e', he', hallocates⟩ := List.mem_filterMap.mp ha
  obtain ⟨l₁, l₂, rfl⟩ := List.append_of_mem he'
  rw [List.append_assoc, List.cons_append] at hrun honce
  obtain ⟨hrun', fuel, hexec⟩ := hrun.split
  have hheld : o ∈ held (l₂ ++ e :: earlier) :=
    held_of_not_cancelled ho fun e'' he => hlater e'' (by simp [he])
  have hsuffix : l₂ ++ e :: earlier <:+ l₁ ++ e' :: (l₂ ++ e :: earlier) :=
    (List.suffix_cons _ _).trans (List.suffix_append _ _)
  have hfree := (accounted_run hrun' (honce.of_suffix hsuffix)).apart.held_not_free o hheld
  rcases allocate_step hexec with ⟨hnone, _⟩ | ⟨slot, hslot, hsome, _⟩
  · rw [show e'.allocates = none from hnone] at hallocates
    cases hallocates
  · rw [show e'.allocates = _ from hsome] at hallocates
    cases hallocates
    exact fun heq => hfree (heq ▸ hslot)

/-- **When a resting order can be cancelled.** `cancel_order` returns true for
an order that came to rest exactly if the last order written to its entry of
the id map or to its slot is one with its id.  While ids have not come round
this means: no order accepted since has the same low bits in its id or got the
same slot.  If moreover the order has not been cancelled and no slot has been
freed twice, only the low bits matter. -/
theorem resting_order_cancelled_iff {later earlier : List (Event n)} {e : Event n}
    {b : OrderBook n} {o : Resting} (hrun : Run (later ++ e :: earlier) b)
    (ho : e.rests = some o) :
    ((b.cancelOrder o.orderId).1 = true ↔
      ∃ slot, Retained n.index o.orderId slot (allocations (later ++ e :: earlier))) ∧
    (issued (later ++ e :: earlier) < 2 ^ 64 →
      ((b.cancelOrder o.orderId).1 = true ↔
        ∀ a ∈ allocations later, n.index a.1 ≠ n.index o.orderId ∧ a.2 ≠ o.slot) ∧
      ((∀ e' ∈ later, e'.cancelled ≠ some (o.orderId, o.slot)) →
        ReleasesOnce (later ++ e :: earlier) →
        ((b.cancelOrder o.orderId).1 = true ↔
          ∀ a ∈ allocations later, n.index a.1 ≠ n.index o.orderId))) := by
  have hiff := cancelOrder_true_iff hrun o.orderId
  refine ⟨hiff, ?_⟩
  intro hissued
  have hids := (allocations_ids hrun hissued).1
  rw [allocations_split (allocates_of_rests ho)] at hiff hids
  rw [retained_split hids] at hiff
  refine ⟨hiff, ?_⟩
  intro hlater honce
  have hslots := slot_not_reallocated hrun ho hlater honce
  rw [hiff]
  exact ⟨fun h a ha => (h a ha).1, fun h a ha => ⟨h a ha, hslots a ha⟩⟩

/-- Two asks, with ids and slots of their own. -/
def twoAsks : List (Event .four) × OrderBook .four :=
  played 1 1 [.add .sell 100 1 .limit, .add .sell 101 1 .limit] (by decide)

theorem resting_order_cancelled_two_asks :
    ∃ later e earlier, twoAsks.1 = later ++ e :: earlier ∧
      e.rests = some ⟨1, 0, .sell, 100, 1⟩ ∧ allocations later = [(2, 1)] ∧
      (twoAsks.2.cancelOrder 1).1 = true := by
  have hrun : Run twoAsks.1 twoAsks.2 := run_played _
  obtain ⟨later, e, earlier, hsplit, hrests, hlater⟩ : ∃ later e earlier,
      twoAsks.1 = later ++ e :: earlier ∧ e.rests = some ⟨1, 0, .sell, 100, 1⟩ ∧
      allocations later = [(2, 1)] := ⟨[_], _, [], rfl, by decide, by decide⟩
  have hissued : issued twoAsks.1 < 2 ^ 64 := by decide
  refine ⟨later, e, earlier, hsplit, hrests, hlater, ?_⟩
  rw [hsplit] at hrun hissued
  refine ((resting_order_cancelled_iff hrun hrests).2 hissued).1.mpr ?_
  rw [hlater]
  intro a ha
  rw [List.mem_singleton.mp ha]
  decide

theorem exec_idle_cancel {b : OrderBook n} (hnone : b.cancelSlot 0 = none) :
    b.exec 0 (.add .sell 0 0 .cancel) = some (.added b.nextOrderId [], b.bump) := by
  have hbump : b.bump.cancelSlot (0 : Int64).toUInt64 = none := hnone
  simp only [OrderBook.exec, OrderBook.addOrder_cancel, Option.map_some]
  rw [OrderBook.cancelOrder_eq, hbump]

/-- `Cancel` orders that find nothing use up ids and change nothing else. -/
theorem Run.idle_cancels {h : List (Event n)} {b : OrderBook n} (hrun : Run h b)
    (hnone : b.cancelSlot 0 = none) (k : Nat) :
    ∃ later, later.map (·.call) = List.replicate k (.add .sell 0 0 .cancel) ∧
      Run (later ++ h) { b with nextOrderId := b.nextOrderId + UInt64.ofNat k } ∧
      ∀ e ∈ later, e.allocates = none ∧ e.cancelled = none ∧
        ∀ kind side, e.tradedWhere kind side = 0 := by
  induction k with
  | zero =>
    refine ⟨[], rfl, ?_, nofun⟩
    rw [show b.nextOrderId + UInt64.ofNat 0 = b.nextOrderId from UInt64.add_zero _]
    exact hrun
  | succ k ih =>
    obtain ⟨later, hcalls, hlater, hquiet⟩ := ih
    have hnext : b.nextOrderId + UInt64.ofNat k + 1 = b.nextOrderId + UInt64.ofNat (k + 1) := by
      rw [UInt64.ofNat_add, UInt64.add_assoc]
      rfl
    have hexec := exec_idle_cancel
      (b := { b with nextOrderId := b.nextOrderId + UInt64.ofNat k }) hnone
    have hbump : OrderBook.bump { b with nextOrderId := b.nextOrderId + UInt64.ofNat k } =
        { b with nextOrderId := b.nextOrderId + UInt64.ofNat (k + 1) } := by
      simp only [OrderBook.bump, hnext]
    rw [hbump] at hexec
    refine ⟨_ :: later, ?_, hlater.call hexec, ?_⟩
    · rw [List.map_cons, hcalls]
      rfl
    · intro e he
      rcases List.mem_cons.mp he with rfl | he
      · refine ⟨allocates_of_cancels rfl, ?_, ?_⟩
        · rw [cancelled_of_cancels (show (Call.add .sell 0 0 .cancel).cancels = some 0 from rfl)]
          exact congrArg _ hnone
        · intro kind side
          simp only [Event.tradedWhere, Event.fills]
          exact ite_self _
      · exact hquiet e he

/-- An id whose entry of the map has just been given to another is not found. -/
theorem not_cancelled_of_overwritten {e : Event n} {h : List (Event n)} {b : OrderBook n}
    (hrun : Run (e :: h) b) {id orderId : UInt64} {slot : UInt32}
    (hallocates : e.allocates = some (id, slot)) (hindex : n.index id = n.index orderId)
    (hne : id ≠ orderId) : (b.cancelOrder orderId).1 = false := by
  refine Bool.eq_false_iff.mpr ?_
  intro htrue
  obtain ⟨slot', hretained⟩ := (cancelOrder_true_iff hrun orderId).mp htrue
  rw [allocations_cons_some hallocates] at hretained
  rcases hretained with heq | ⟨hother, _⟩
  · injection heq with heq
    exact hne heq
  · exact hother hindex

/-- The id `maxOrders` after the first has the low bits of the first. -/
theorem index_maxOrders_add_one {id : UInt64} (hid : id.toNat = n.maxOrders + 1) :
    n.index id = n.index 1 := by
  unfold PoolSize.index
  rw [hid, PoolSize.maxOrders, Nat.and_two_pow_sub_one_eq_mod, Nat.and_two_pow_sub_one_eq_mod]
  exact Nat.add_mod_left _ _

/-- In a pool of any size: an order rests, all but one of the `maxOrders` next
ids go to `Cancel` orders, and the order after them overwrites its entry. -/
theorem entry_overwritten (n : PoolSize) (hlog : 1 < n.log2) :
    ∃ (h : List (Event n)) (b : OrderBook n), Run h b ∧
      h.map (·.call) = .add .sell 101 1 .limit ::
        (List.replicate (n.maxOrders - 1) (.add .sell 0 0 .cancel) ++
          [.add .sell 100 1 .limit]) ∧
      Untouched h ⟨1, 0, .sell, 100, 1⟩ ∧ (b.cancelOrder 1).1 = false := by
  have htype := OrderType.limit_ne_cancel
  have hfour : 2 ^ 2 ≤ n.maxOrders := Nat.pow_le_pow_right (by decide) hlog
  obtain ⟨b₁, _, hrun₁, hp₁, hlen, hrests₁, _⟩ :=
    Run.first_ask n (by omega) 100 (by decide : (1 : UInt32) ≠ 0)
  have hnone : b₁.cancelSlot 0 = none := by
    refine Option.eq_none_iff_forall_ne_some.mpr ?_
    intro slot hslot
    rw [cancelSlot_iff hrun₁, allocations_cons_some (allocates_of_rests hrests₁)] at hslot
    rcases hslot with heq | ⟨_, _, hnil⟩
    · injection heq with hid
      exact absurd hid (by decide)
    · exact hnil
  obtain ⟨mid, hcalls, hrun₂, hquiet⟩ := hrun₁.idle_cancels hnone (n.maxOrders - 1)
  generalize hb₂ : ({ b₁ with
    nextOrderId := b₁.nextOrderId + UInt64.ofNat (n.maxOrders - 1) } : OrderBook n) = b₂ at hrun₂
  obtain ⟨slot, rest, hcont₁⟩ := List.exists_cons_of_length_pos
    (l := b₁.freeList.contents) (by omega)
  have hfree₂ : b₂.freeList.contents = slot :: rest := by
    rw [← hb₂]
    exact hcont₁
  have hbids₂ : b₂.ladder .buy = ⟨[]⟩ := by
    rw [← hb₂]
    exact hp₁.opposite
  obtain ⟨b₃, _, hrun₃, _, _⟩ := hrun₂.place htype hfree₂
    (OrderBook.matching_of_empty .sell hbids₂ 101 1)
  change Run (⟨b₂, .add .sell 101 1 .limit, .added b₂.nextOrderId [], b₃⟩ :: _) b₃ at hrun₃
  have hallocates : (⟨b₂, .add .sell 101 1 .limit, .added b₂.nextOrderId [], b₃⟩ :
      Event n).allocates = some (b₂.nextOrderId, slot) := by
    obtain ⟨_, hpop, _⟩ := SpscQueue.pop_of_contents hfree₂
    exact allocates_of_added rfl rfl (congrArg Prod.fst hpop) htype
  have hid : b₂.nextOrderId.toNat = n.maxOrders + 1 := by
    have hle := maxOrders_lt n
    rw [← hb₂, hp₁.nextOrderId]
    show ((1 + 1 : UInt64) + UInt64.ofNat (n.maxOrders - 1)).toNat = _
    rw [UInt64.toNat_add, UInt64.toNat_ofNat_of_lt' (by rw [UInt64.size]; omega)]
    show (2 + (n.maxOrders - 1)) % 2 ^ 64 = _
    omega
  have hne : b₂.nextOrderId ≠ 1 := by
    intro heq
    have hone := congrArg UInt64.toNat heq
    rw [hid, UInt64.toNat_one] at hone
    omega
  refine ⟨_, b₃, hrun₃, ?_, ⟨_ :: mid, _, [], rfl, hrests₁, ?_⟩, ?_⟩
  · rw [List.map_cons, List.map_append, hcalls]
    rfl
  · intro e he
    rcases List.mem_cons.mp he with rfl | he
    · refine ⟨?_, rfl⟩
      rw [cancelled_of_not_cancels rfl]
      exact (Option.some_ne_none _).symm
    · obtain ⟨_, hcancelled, htraded⟩ := hquiet e he
      refine ⟨?_, htraded _ _⟩
      rw [hcancelled]
      exact (Option.some_ne_none _).symm
  · exact not_cancelled_of_overwritten hrun₃ hallocates (index_maxOrders_add_one hid) hne

/-- On a book of the size the engine is built with, an order that rests
untouched cannot be cancelled once `2^20` more ids have been used. -/
theorem live_order_not_cancelled :
    ∃ (h : List (Event .default)) (b : OrderBook .default), Run h b ∧
      h.map (·.call) = .add .sell 101 1 .limit ::
        (List.replicate (2 ^ 20 - 1) (.add .sell 0 0 .cancel) ++ [.add .sell 100 1 .limit]) ∧
      Untouched h ⟨1, 0, .sell, 100, 1⟩ ∧ (b.cancelOrder 1).1 = false :=
  entry_overwritten .default (by decide)

end HftEngine
