import HftEngine.OrderBook.Flow

/-!
# Who holds which slot

`held h` lists the orders of a history that came to rest and have not been
cancelled: each of them holds a slot of the pool.  `slot_step` says what a
call does to the free list and to that list, and three invariants follow:

* `slotsValid_run` — in every run, the free list and the id map name slots
  that were given out by the constructor;
* `held_count` — in every run, no slot is lost: the orders that hold one and
  the free ones are at least as many as the slots;
* `accounted_run` — as long as each cancel releases a slot that is held, the
  free slots and the held ones are all the slots, each once.

`slots_apart_iff` is the exact condition for the last: a single cancel of an
order that holds no slot (it was cancelled before, or filled on arrival) puts
a slot on the free list twice, unless the free list is full.
-/

namespace HftEngine

open Lib

variable {n : PoolSize}

/-- What `cancel_order` knows of an order. -/
def Resting.name (o : Resting) : UInt64 × UInt32 := (o.orderId, o.slot)

/-- The orders that came to rest and have not been cancelled, newest first. -/
def held : List (Event n) → List Resting
  | [] => []
  | e :: h =>
    match e.cancelled with
    | some name => (held h).eraseP fun o => o.name = name
    | none => e.rests.toList ++ held h

/-! ## What a call does to the slots -/

/-- The pool and the id map after an order was written to `slot`. -/
structure Written (b : OrderBook n) (slot : UInt32) (b' : OrderBook n) : Prop where
  ordered : (b'.orderPool slot.toNat).orderId = b.nextOrderId
  orderPool : ∀ i, i ≠ slot.toNat → b'.orderPool i = b.orderPool i
  orderIdToSlot : b'.orderIdToSlot =
    Function.update b.orderIdToSlot (n.index b.nextOrderId) slot

/-- The free list after `slot` was pushed: nothing happens to a full one. -/
def Pushed (b : OrderBook n) (slot : UInt32) (b' : OrderBook n) : Prop :=
  (b.freeList.contents.length + 1 = n.maxOrders ∧ b'.freeList.contents = b.freeList.contents) ∨
  (b.freeList.contents.length + 1 < n.maxOrders ∧
    b'.freeList.contents = b.freeList.contents ++ [slot])

/-- What a call can do to the slots: nothing; give one to an order that is
filled at once and returns it; give one to an order that comes to rest; or
release one. -/
inductive SlotStep (b : OrderBook n) (L : List Resting) (b' : OrderBook n) :
    Option (UInt64 × UInt32) → List Resting → Prop
  | kept : b'.freeList = b.freeList → b'.orderPool = b.orderPool →
      b'.orderIdToSlot = b.orderIdToSlot → SlotStep b L b' none L
  | filled {slot : UInt32} {rest : List UInt32} : b.freeList.contents = slot :: rest →
      b'.freeList.contents = rest ++ [slot] → Written b slot b' → SlotStep b L b' none L
  | rested {rest : List UInt32} {o : Resting} : b.freeList.contents = o.slot :: rest →
      b'.freeList.contents = rest → Written b o.slot b' → o.orderId = b.nextOrderId →
      SlotStep b L b' none (o :: L)
  | released {orderId : UInt64} {slot : UInt32} : b.cancelSlot orderId = some slot →
      Pushed b slot b' → b'.orderPool = b.orderPool → b'.orderIdToSlot = b.orderIdToSlot →
      SlotStep b L b' (some (orderId, slot)) (L.eraseP fun o => o.name = (orderId, slot))

section Steps

variable {b b' : OrderBook n} {c : Call} {r : Reply} {fuel : Nat} {h : List (Event n)}

theorem pushed_push (slot : UInt32) (hb' : b'.freeList = (b.freeList.push slot).2) :
    Pushed b slot b' := by
  obtain ⟨hfull, hpush⟩ | ⟨hroom, _, hpush⟩ := b.freeList.push_eq slot
  · refine .inl ⟨hfull, ?_⟩
    rw [hb', hpush]
  · refine .inr ⟨hroom, ?_⟩
    rw [hb', hpush]

theorem cancelled_of_not_cancels (hc : c.cancels = none) :
    (⟨b, c, r, b'⟩ : Event n).cancelled = none := by
  simp [Event.cancelled, hc]

theorem cancelled_of_cancels {orderId : UInt64} (hc : c.cancels = some orderId) :
    (⟨b, c, r, b'⟩ : Event n).cancelled = (b.cancelSlot orderId).map fun slot => (orderId, slot) := by
  cases hslot : b.cancelSlot orderId <;> simp [Event.cancelled, hc, hslot]

/-- The inversion lemma of a call, as far as slots go. -/
theorem slot_step (hrun : Run h b) (hexec : b.exec fuel c = some (r, b')) :
    SlotStep b (held h) b' (⟨b, c, r, b'⟩ : Event n).cancelled (held (⟨b, c, r, b'⟩ :: h)) := by
  cases OrderBook.exec_outcome hexec with
  | idle hc hslot hsame =>
    have hcancelled : (⟨b, c, r, b'⟩ : Event n).cancelled = none := by
      rw [cancelled_of_cancels hc, hslot]
      rfl
    have hheld : held (⟨b, c, r, b'⟩ :: h) = held h := by
      simp only [held, hcancelled, rests_of_cancels hc]
      rfl
    rw [hcancelled, hheld]
    exact .kept hsame.freeList hsame.orderPool hsame.orderIdToSlot
  | @released _ _ _ orderId slot hc hslot hrel =>
    have hcancelled : (⟨b, c, r, b'⟩ : Event n).cancelled = some (orderId, slot) := by
      rw [cancelled_of_cancels hc, hslot]
      rfl
    simp only [held, hcancelled]
    exact .released hslot (pushed_push slot hrel.freeList) hrel.orderPool hrel.orderIdToSlot
  | @refused side p q type htype hfree =>
    have hheld : held (⟨b, .add side p q type, .added 0 [], b.bump⟩ :: h) = held h := by
      simp only [held, cancelled_of_not_cancels (cancels_of_ne htype), rests_refused hfree]
      rfl
    rw [cancelled_of_not_cancels (cancels_of_ne htype), hheld]
    exact .kept rfl rfl rfl
  | @placed side p q type slot freeList s _ htype hpop hs hp =>
    have hm := matching_matched ((wf_run hrun).sorted _) hs
    have hrests := rests_placed b' b.nextOrderId htype hpop hm
    have hwritten : Written b slot b' := ⟨hp.ordered.1, hp.orderPool, hp.orderIdToSlot⟩
    obtain ⟨rest, hfree, hcont⟩ := OrderBook.placed_contents hpop hp
    rw [cancelled_of_not_cancels (cancels_of_ne htype)]
    simp only [held, cancelled_of_not_cancels (cancels_of_ne htype), hrests]
    by_cases hzero : s.quantity = 0
    · rw [if_pos hzero] at hcont ⊢
      exact .filled hfree hcont hwritten
    · rw [if_neg hzero] at hcont ⊢
      exact .rested (o := ⟨b.nextOrderId, slot, side, p, s.quantity.toNat⟩) hfree hcont hwritten rfl

end Steps

/-! ## Invariants of every run -/

/-- The slots named by the free list and the id map are among those the
constructor gave out; what else the map holds is no slot. -/
structure SlotsValid (b : OrderBook n) : Prop where
  free : ∀ slot ∈ b.freeList.contents, slot.toNat < n.maxOrders - 1
  mapped : ∀ i, (b.orderIdToSlot i).toNat < n.maxOrders →
    (b.orderIdToSlot i).toNat < n.maxOrders - 1

theorem maxOrders_lt (n : PoolSize) : n.maxOrders ≤ 2 ^ 31 :=
  Nat.pow_le_pow_right (by decide) (Nat.le_of_lt_succ n.log2_lt)

theorem toNat_ofNat_of_lt {i : Nat} (hi : i < n.maxOrders) : (UInt32.ofNat i).toNat = i := by
  have hle := maxOrders_lt n
  exact UInt32.toNat_ofNat_of_lt' (by rw [UInt32.size]; omega)

theorem slotsValid_new (symbolId : UInt32) : SlotsValid (OrderBook.new n symbolId) := by
  refine ⟨?_, ?_⟩
  · intro slot hslot
    rw [OrderBook.contents_new] at hslot
    obtain ⟨i, hi, rfl⟩ := List.mem_map.mp hslot
    have hi := List.mem_range.mp hi
    rw [toNat_ofNat_of_lt (n := n) (by omega)]
    exact hi
  · intro i hi
    have hle := maxOrders_lt n
    have hmark : ((OrderBook.new n symbolId).orderIdToSlot i).toNat = 2 ^ 32 - 1 := rfl
    omega

/-- A slot that passes the test of `cancel_order` was given out by the
constructor. -/
theorem SlotsValid.cancelSlot {b : OrderBook n} (hv : SlotsValid b) {orderId : UInt64}
    {slot : UInt32} (h : b.cancelSlot orderId = some slot) : slot.toNat < n.maxOrders - 1 := by
  obtain ⟨hmapped, hlt, _⟩ := OrderBook.cancelSlot_spec h
  rw [hmapped] at hlt ⊢
  exact hv.mapped _ hlt

theorem slotsValid_written {b b' : OrderBook n} {slot : UInt32} (hv : SlotsValid b)
    (hw : Written b slot b') (hslot : slot ∈ b.freeList.contents)
    (hfree : b'.freeList.contents ⊆ b.freeList.contents) : SlotsValid b' := by
  refine ⟨fun slot' hslot' => hv.free slot' (hfree hslot'), ?_⟩
  intro i hi
  rw [hw.orderIdToSlot] at hi ⊢
  by_cases hindex : i = n.index b.nextOrderId
  · subst hindex
    rw [Function.update_self]
    exact hv.free slot hslot
  · rw [Function.update_of_ne hindex] at hi ⊢
    exact hv.mapped i hi

theorem slotsValid_step {b b' : OrderBook n} {L L' : List Resting}
    {name : Option (UInt64 × UInt32)} (hv : SlotsValid b) (hstep : SlotStep b L b' name L') :
    SlotsValid b' := by
  cases hstep with
  | kept hfree _ hmap =>
    refine ⟨?_, ?_⟩
    · rw [hfree]
      exact hv.free
    · rw [hmap]
      exact hv.mapped
  | filled hfree hfree' hw =>
    refine slotsValid_written hv hw (by simp [hfree]) ?_
    rw [hfree, hfree']
    intro slot hslot
    simpa [or_comm] using hslot
  | rested hfree hfree' hw =>
    refine slotsValid_written hv hw (by simp [hfree]) ?_
    rw [hfree, hfree']
    exact List.subset_cons_self _ _
  | @released orderId slot hslot hpushed _ hmap =>
    refine ⟨?_, ?_⟩
    · rcases hpushed with ⟨_, hsame⟩ | ⟨_, hpush⟩
      · rw [hsame]
        exact hv.free
      · rw [hpush]
        intro slot' hslot'
        rcases List.mem_append.mp hslot' with hslot' | hslot'
        · exact hv.free slot' hslot'
        · rw [List.mem_singleton.mp hslot']
          exact hv.cancelSlot hslot
    · rw [hmap]
      exact hv.mapped

theorem slotsValid_run {h : List (Event n)} {b : OrderBook n} (hrun : Run h b) :
    SlotsValid b := by
  induction hrun with
  | new symbolId => exact slotsValid_new symbolId
  | call hrun hexec ih => exact slotsValid_step ih (slot_step hrun hexec)

/-- No slot is lost while its order is counted. -/
theorem held_count_step {b b' : OrderBook n} {L L' : List Resting}
    {name : Option (UInt64 × UInt32)}
    (hcount : n.maxOrders - 1 ≤ L.length + b.freeList.contents.length)
    (hstep : SlotStep b L b' name L') :
    n.maxOrders - 1 ≤ L'.length + b'.freeList.contents.length := by
  cases hstep with
  | kept hfree _ _ =>
    rw [hfree]
    exact hcount
  | filled hfree hfree' _ =>
    rw [hfree] at hcount
    rw [hfree']
    simpa using hcount
  | rested hfree hfree' _ _ =>
    rw [hfree] at hcount
    rw [hfree']
    simp only [List.length_cons] at hcount ⊢
    omega
  | @released orderId slot _ hpushed _ _ =>
    -- at most one order leaves the held ones, for the one slot pushed
    have herase : L.length - 1 ≤ (L.eraseP fun o => o.name = (orderId, slot)).length :=
      List.le_length_eraseP
    rcases hpushed with ⟨hfull, hsame⟩ | ⟨_, hpush⟩
    · rw [hsame]
      omega
    · rw [hpush, List.length_append, List.length_singleton]
      omega

theorem held_count {h : List (Event n)} {b : OrderBook n} (hrun : Run h b) :
    n.maxOrders - 1 ≤ (held h).length + b.freeList.contents.length := by
  induction hrun with
  | new symbolId =>
    rw [OrderBook.contents_new]
    simp [held]
  | call hrun hexec ih => exact held_count_step ih (slot_step hrun hexec)

/-! ## Each slot once -/

/-- All slots are accounted for: each is free or held by one order, never
both, and a held slot still carries the id of its order. -/
structure Accounted (L : List Resting) (b : OrderBook n) : Prop where
  slots : (b.freeList.contents ++ L.map (·.slot)).Perm
    ((List.range (n.maxOrders - 1)).map UInt32.ofNat)
  ids : ∀ o ∈ L, (b.orderPool o.slot.toNat).orderId = o.orderId

theorem nodup_slots (n : PoolSize) :
    ((List.range (n.maxOrders - 1)).map UInt32.ofNat).Nodup := by
  refine List.Nodup.map_on ?_ List.nodup_range
  intro i hi j hj heq
  have hi := List.mem_range.mp hi
  have hj := List.mem_range.mp hj
  have hnat := congrArg UInt32.toNat heq
  rwa [toNat_ofNat_of_lt (n := n) (by omega), toNat_ofNat_of_lt (n := n) (by omega)] at hnat

theorem Accounted.nodup {L : List Resting} {b : OrderBook n} (ha : Accounted L b) :
    (b.freeList.contents ++ L.map (·.slot)).Nodup := ha.slots.nodup_iff.mpr (nodup_slots n)

/-- A slot the constructor gave out is free or held. -/
theorem Accounted.free_or_held {L : List Resting} {b : OrderBook n} (ha : Accounted L b)
    {slot : UInt32} (hslot : slot.toNat < n.maxOrders - 1) :
    slot ∈ b.freeList.contents ∨ ∃ o ∈ L, o.slot = slot := by
  have hmem : slot ∈ (List.range (n.maxOrders - 1)).map UInt32.ofNat :=
    List.mem_map.mpr ⟨slot.toNat, List.mem_range.mpr hslot, UInt32.ofNat_toNat⟩
  rcases List.mem_append.mp (ha.slots.mem_iff.mpr hmem) with hfree | hheld
  · exact .inl hfree
  · exact .inr (List.mem_map.mp hheld)

/-- Writing to a free slot leaves the held ones alone. -/
theorem ids_written {L : List Resting} {b b' : OrderBook n} {slot : UInt32} (ha : Accounted L b)
    (hw : Written b slot b') (hslot : slot ∈ b.freeList.contents) :
    ∀ o ∈ L, (b'.orderPool o.slot.toNat).orderId = o.orderId := by
  intro o ho
  have hne : o.slot ≠ slot := by
    intro heq
    have hdisjoint := (List.nodup_append.mp ha.nodup).2.2
    exact hdisjoint slot hslot o.slot (List.mem_map_of_mem ho) heq.symm
  rw [hw.orderPool o.slot.toNat fun heq => hne (UInt32.toNat_inj.mp heq)]
  exact ha.ids o ho

/-- Releasing the slot of an order that holds it moves the slot from the held
ones to the free ones. -/
theorem Accounted.slots_released {L : List Resting} {b : OrderBook n} (ha : Accounted L b)
    {orderId : UInt64} {slot : UInt32} {o : Resting} (ho : o ∈ L)
    (hname : o.name = (orderId, slot)) :
    (b.freeList.contents ++ [slot] ++
      (L.eraseP fun o => o.name = (orderId, slot)).map (·.slot)).Perm
      ((List.range (n.maxOrders - 1)).map UInt32.ofNat) := by
  obtain ⟨o', L₁, L₂, _, hname', hL, herase⟩ :=
    List.exists_of_eraseP (p := fun o : Resting => o.name = (orderId, slot)) ho
      (decide_eq_true hname)
  have hslot : o'.slot = slot := congrArg Prod.snd (of_decide_eq_true hname')
  have hslots := ha.slots
  rw [hL, List.map_append, List.map_cons, hslot] at hslots
  rw [herase, List.map_append, List.append_assoc, List.singleton_append]
  refine List.Perm.trans (List.Perm.append_left _ ?_) hslots
  exact List.perm_middle.symm

/-- A call keeps the account if what it releases, if anything, is held, or if
the free list is full. -/
theorem accounted_step {b b' : OrderBook n} {L L' : List Resting}
    {name : Option (UInt64 × UInt32)} (ha : Accounted L b) (hstep : SlotStep b L b' name L')
    (hheld : ∀ x, name = some x → (∃ o ∈ L, o.name = x) ∨
      b.freeList.contents.length + 1 = n.maxOrders) :
    Accounted L' b' := by
  cases hstep with
  | kept hfree hpool _ =>
    refine ⟨?_, ?_⟩
    · rw [hfree]
      exact ha.slots
    · rw [hpool]
      exact ha.ids
  | filled hfree hfree' hw =>
    refine ⟨?_, ids_written ha hw (by simp [hfree])⟩
    have hslots := ha.slots
    rw [hfree] at hslots
    rw [hfree']
    exact ((List.perm_append_singleton _ _).append_right _).trans hslots
  | @rested rest o hfree hfree' hw hid =>
    have hslots := ha.slots
    rw [hfree] at hslots
    refine ⟨?_, ?_⟩
    · rw [hfree', List.map_cons]
      exact List.perm_middle.trans hslots
    · intro o' ho'
      rcases List.mem_cons.mp ho' with rfl | ho'
      · rw [hw.ordered, hid]
      · exact ids_written ha hw (by simp [hfree]) o' ho'
  | @released orderId slot hslot hpushed hpool _ =>
    have hlen := ha.slots.length_eq
    simp only [List.length_append, List.length_map, List.length_range] at hlen
    refine ⟨?_, ?_⟩
    · rcases hheld _ rfl with ⟨o, ho, hname⟩ | hfull
      · -- an order holds a slot, so the free list has room for it
        have hpos := List.length_pos_of_mem ho
        obtain ⟨hfull, _⟩ | ⟨_, hpush⟩ := hpushed
        · omega
        · rw [hpush]
          exact ha.slots_released ho hname
      · -- a full free list: nothing is held, nothing is pushed
        have hnil : L = [] := List.eq_nil_of_length_eq_zero (by omega)
        have hsame : b'.freeList.contents = b.freeList.contents := by
          rcases hpushed with ⟨_, hsame⟩ | ⟨hroom, _⟩
          · exact hsame
          · omega
        have hslots := ha.slots
        subst hnil
        rw [hsame]
        exact hslots
    · intro o ho
      rw [hpool]
      exact ha.ids o (List.mem_of_mem_eraseP ho)

/-- A call releases, if anything, the slot of an order that holds it; or the
free list is full, so that nothing is released. -/
def Event.ReleasesHeld (e : Event n) (L : List Resting) : Prop :=
  ∀ x ∈ e.cancelled, (∃ o ∈ L, o.name = x) ∨
    e.before.freeList.contents.length + 1 = n.maxOrders

instance (e : Event n) (L : List Resting) : Decidable (e.ReleasesHeld L) :=
  match hc : e.cancelled with
  | none => isTrue fun x hx => by
      rw [hc] at hx
      cases hx
  | some x =>
    decidable_of_iff
      ((∃ o ∈ L, o.name = x) ∨ e.before.freeList.contents.length + 1 = n.maxOrders)
      ⟨fun h y hy => by
        rw [hc] at hy
        cases hy
        exact h, fun h => h x hc⟩

/-- Each call of the history releases only what is held. -/
def ReleasesOnce : List (Event n) → Prop
  | [] => True
  | e :: h => ReleasesOnce h ∧ e.ReleasesHeld (held h)

instance decidableReleasesOnce : (h : List (Event n)) → Decidable (ReleasesOnce h)
  | [] => isTrue trivial
  | e :: h =>
    have := decidableReleasesOnce h
    inferInstanceAs (Decidable (ReleasesOnce h ∧ e.ReleasesHeld (held h)))

theorem ReleasesOnce.of_suffix {h h' : List (Event n)} (hsuf : h' <:+ h)
    (hr : ReleasesOnce h) : ReleasesOnce h' := by
  induction h with
  | nil =>
    rw [List.suffix_nil.mp hsuf]
    trivial
  | cons e h ih =>
    rcases List.suffix_cons_iff.mp hsuf with rfl | hsuf
    · exact hr
    · exact ih hsuf hr.1

theorem accounted_run {h : List (Event n)} {b : OrderBook n} (hrun : Run h b)
    (hr : ReleasesOnce h) : Accounted (held h) b := by
  induction hrun with
  | new symbolId =>
    refine ⟨?_, ?_⟩
    · rw [OrderBook.contents_new]
      simp [held]
    · simp [held]
  | call hrun hexec ih => exact accounted_step (ih hr.1) (slot_step hrun hexec) hr.2

/-- The free list holds no slot twice and no slot of an order that holds it,
and no two orders hold one slot. -/
structure SlotsApart (h : List (Event n)) (b : OrderBook n) : Prop where
  free : b.freeList.contents.Nodup
  held_not_free : ∀ o ∈ held h, o.slot ∉ b.freeList.contents
  held_apart : ((held h).map (·.slot)).Nodup

instance (h : List (Event n)) (b : OrderBook n) : Decidable (SlotsApart h b) :=
  decidable_of_iff (b.freeList.contents.Nodup ∧ (∀ o ∈ held h, o.slot ∉ b.freeList.contents) ∧
      ((held h).map (·.slot)).Nodup)
    ⟨fun ⟨hfree, hheld, hapart⟩ => ⟨hfree, hheld, hapart⟩, fun ⟨hfree, hheld, hapart⟩ =>
      ⟨hfree, hheld, hapart⟩⟩

theorem Accounted.apart {h : List (Event n)} {b : OrderBook n} (ha : Accounted (held h) b) :
    SlotsApart h b := by
  obtain ⟨hfree, hheld, hdisjoint⟩ := List.nodup_append.mp ha.nodup
  refine ⟨hfree, ?_, hheld⟩
  intro o ho hmem
  exact hdisjoint o.slot hmem o.slot (List.mem_map_of_mem ho) rfl

/-- A slot that is released though no order holds it was free already, and is
now on the free list twice. -/
theorem not_nodup_of_released {b b' : OrderBook n} {L L' : List Resting}
    {x : UInt64 × UInt32} (hv : SlotsValid b) (ha : Accounted L b)
    (hstep : SlotStep b L b' (some x) L') (hheld : ¬ ∃ o ∈ L, o.name = x)
    (hroom : b.freeList.contents.length + 1 ≠ n.maxOrders) :
    ¬ b'.freeList.contents.Nodup := by
  cases hstep with
  | @released orderId slot hslot hpushed _ _ =>
    obtain ⟨_, _, hid⟩ := OrderBook.cancelSlot_spec hslot
    have hfree : slot ∈ b.freeList.contents := by
      rcases ha.free_or_held (hv.cancelSlot hslot) with hfree | ⟨o, ho, hoslot⟩
      · exact hfree
      · -- the order that holds the slot is the one the pool names there
        refine absurd ⟨o, ho, ?_⟩ hheld
        have hoid := ha.ids o ho
        rw [hoslot, hid] at hoid
        show (o.orderId, o.slot) = (orderId, slot)
        rw [← hoid, hoslot]
    rcases hpushed with ⟨hfull, _⟩ | ⟨_, hpush⟩
    · exact absurd hfull hroom
    · rw [hpush]
      intro hnodup
      exact (List.nodup_append.mp hnodup).2.2 slot hfree slot List.mem_cons_self rfl

/-- **No slot is freed twice, exactly if each cancel releases a held slot.**
At every moment of a run the free list is without duplicates and apart from
the slots of the resting orders, and these are apart from each other, if and
only if each successful cancel of the run was of an order that had come to
rest and had not been cancelled before, or found the free list full. -/
theorem slots_apart_iff {h : List (Event n)} {b : OrderBook n} (hrun : Run h b) :
    (∀ h' b', h' <:+ h → Run h' b' → SlotsApart h' b') ↔ ReleasesOnce h := by
  refine ⟨?_, ?_⟩
  · intro hapart
    induction hrun with
    | new symbolId => trivial
    | @call h b b' c r fuel hrun hexec ih =>
      have hr : ReleasesOnce h :=
        ih fun h' b' hsuf => hapart h' b' (hsuf.trans (List.suffix_cons _ _))
      refine ⟨hr, ?_⟩
      intro x hx
      have hstep := slot_step hrun hexec
      rw [hx] at hstep
      -- a release of anything else puts a slot into the free list twice
      by_contra hnot
      rw [not_or] at hnot
      have hdup := not_nodup_of_released (slotsValid_run hrun) (accounted_run hrun hr) hstep
        hnot.1 hnot.2
      exact hdup (hapart _ _ List.suffix_rfl (hrun.call hexec)).free
  · intro hr h' b' hsuf hrun'
    exact (accounted_run hrun' (hr.of_suffix hsuf)).apart

/-- Two orders that rest and are cancelled, each once, and a third that takes
the slot of the first. -/
def cancelledOnce : List (Event .four) × OrderBook .four :=
  played 1 1 [.add .sell 100 1 .limit, .add .sell 101 1 .limit, .cancel 1, .add .sell 102 1 .limit,
    .cancel 2] (by decide)

theorem slots_apart_cancelled_once : SlotsApart cancelledOnce.1 cancelledOnce.2 := by
  have hrun : Run cancelledOnce.1 cancelledOnce.2 := run_played _
  have hr : ReleasesOnce cancelledOnce.1 := by decide
  exact (slots_apart_iff hrun).mpr hr _ _ List.suffix_rfl hrun

/-- An order cancelled twice while another one rests. -/
def cancelledTwice : List (Event .four) × OrderBook .four :=
  played 1 1 [.add .sell 100 1 .limit, .add .sell 101 1 .limit, .cancel 1, .cancel 1] (by decide)

/-- The same, and three more orders. -/
def slotShared : List (Event .four) × OrderBook .four :=
  played 1 1 [.add .sell 100 1 .limit, .add .sell 101 1 .limit, .cancel 1, .cancel 1,
    .add .sell 102 1 .limit, .add .sell 103 1 .limit, .add .sell 104 1 .limit] (by decide)

/-- Cancelled twice, an order's slot is on the free list twice; the next
orders that rest get it one after the other. -/
theorem cancelled_twice_shares_slot :
    Run cancelledTwice.1 cancelledTwice.2 ∧ cancelledTwice.2.freeList.contents = [2, 0, 0] ∧
      ¬ SlotsApart cancelledTwice.1 cancelledTwice.2 ∧
      Run slotShared.1 slotShared.2 ∧ (held slotShared.1).map (·.slot) = [0, 0, 2, 1] ∧
      ¬ SlotsApart slotShared.1 slotShared.2 :=
  ⟨run_played _, by decide, by decide, run_played _, by decide, by decide⟩

end HftEngine
